import Lox.Text.Basic

/-!
# Faults of YAML files

What can be wrong with a YAML file, and where. A fault is shown with its line unless it is on the
first one.
-/

namespace Lox.Yaml

/-- Why bytes are no characters. -/
inductive Unreadable where
  | leadingOctet
  | trailingOctet
  | incompleteOctets
  | sequenceLength
  | notCharacter
  | incompleteUnit
  | incompletePair
  | unexpectedLow
  | missingLow
  | control
  | folder (path : Text)
  deriving DecidableEq, Repr

/-- The reason in words. -/
def Unreadable.message : Unreadable → Text
  | leadingOctet => "invalid leading UTF-8 octet"
  | trailingOctet => "invalid trailing UTF-8 octet"
  | incompleteOctets => "incomplete UTF-8 octet sequence"
  | sequenceLength => "invalid length of a UTF-8 sequence"
  | notCharacter => "invalid Unicode character"
  | incompleteUnit => "incomplete UTF-16 character"
  | incompletePair => "incomplete UTF-16 surrogate pair"
  | unexpectedLow => "unexpected low surrogate area"
  | missingLow => "expected low surrogate area"
  | control => "control characters are not allowed"
  | folder path => "input error: read " ++ path ++ ": is a directory"

/-- What can be wrong with a YAML file. -/
inductive Problem where
  | unreadable (why : Unreadable)
  /-- A loop went on for longer than the file allows, which does not happen. -/
  | endless
  | keyWithoutColon
  | tooDeep
  | misplacedItem
  | misplacedKey
  | misplacedValue
  | noToken
  | unknownDirective
  | restOfLine
  | noDirectiveName
  | badDirectiveName
  | versionPoint
  | longVersion
  | noVersion
  | noBlank
  | noGap
  | badAnchor
  | tagClose
  | tagHandle
  | noTag
  | badEscapedOctet
  | leadingEscapedOctet
  | trailingEscapedOctet
  | zeroIndentation
  | tabIndentation
  | tabInPlain
  | documentMark
  | endOfFile
  | unknownEscape
  | notHexadecimal
  | badEscapeCode
  | noDocumentStart
  | duplicateVersion
  | badVersion
  | duplicateHandle
  | undefinedHandle
  | noContent
  | noItem
  | noKey
  | noItemEnd
  | noEntryEnd
  | unknownAnchor (name : Text)
  | selfReference (name : Text)
  | badTag (found : Text) (value : Text) (wanted : Text)
  | badBase64
  | badMerge
  deriving DecidableEq, Repr

/-- The problem in words. -/
def Problem.message : Problem → Text
  | unreadable why => why.message
  | endless => "unknown problem parsing YAML content"
  | keyWithoutColon => "could not find expected ':'"
  | tooDeep => "exceeded max depth of 10000"
  | misplacedItem => "block sequence entries are not allowed in this context"
  | misplacedKey => "mapping keys are not allowed in this context"
  | misplacedValue => "mapping values are not allowed in this context"
  | noToken => "found character that cannot start any token"
  | unknownDirective => "found unknown directive name"
  | restOfLine => "did not find expected comment or line break"
  | noDirectiveName => "could not find expected directive name"
  | badDirectiveName => "found unexpected non-alphabetical character"
  | versionPoint => "did not find expected digit or '.' character"
  | longVersion => "found extremely long version number"
  | noVersion => "did not find expected version number"
  | noBlank => "did not find expected whitespace"
  | noGap => "did not find expected whitespace or line break"
  | badAnchor => "did not find expected alphabetic or numeric character"
  | tagClose => "did not find the expected '>'"
  | tagHandle => "did not find expected '!'"
  | noTag => "did not find expected tag URI"
  | badEscapedOctet => "did not find URI escaped octet"
  | leadingEscapedOctet => "found an incorrect leading UTF-8 octet"
  | trailingEscapedOctet => "found an incorrect trailing UTF-8 octet"
  | zeroIndentation => "found an indentation indicator equal to 0"
  | tabIndentation => "found a tab character where an indentation space is expected"
  | tabInPlain => "found a tab character that violates indentation"
  | documentMark => "found unexpected document indicator"
  | endOfFile => "found unexpected end of stream"
  | unknownEscape => "found unknown escape character"
  | notHexadecimal => "did not find expected hexdecimal number"
  | badEscapeCode => "found invalid Unicode character escape code"
  | noDocumentStart => "did not find expected <document start>"
  | duplicateVersion => "found duplicate %YAML directive"
  | badVersion => "found incompatible YAML document"
  | duplicateHandle => "found duplicate %TAG directive"
  | undefinedHandle => "found undefined tag handle"
  | noContent => "did not find expected node content"
  | noItem => "did not find expected '-' indicator"
  | noKey => "did not find expected key"
  | noItemEnd => "did not find expected ',' or ']'"
  | noEntryEnd => "did not find expected ',' or '\x7d'"
  | unknownAnchor name => "unknown anchor '" ++ name ++ "' referenced"
  | selfReference name => "anchor '" ++ name ++ "' value contains itself"
  | badTag found value wanted =>
    "cannot decode " ++ found ++ " \x60" ++ value ++ "\x60 as a " ++ wanted
  | badBase64 => "!!binary value contains invalid base64 data"
  | badMerge => "map merge requires map or sequence of maps as the value"

/-- A problem and the line that it is shown with; zero stands for none. -/
structure Fault where
  line : Nat := 0
  problem : Problem
  deriving DecidableEq, Repr

/-- The fault in words. -/
def Fault.text (f : Fault) : Text :=
  let place : Text := if f.line = 0 then [] else "line " ++ Text.ofNat f.line ++ ": "
  "yaml: " ++ place ++ f.problem.message

end Lox.Yaml
