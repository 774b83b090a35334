import Lox.Text.Basic

/-!
# Tokens of YAML
-/

namespace Lox.Yaml

/-- A place in a file: how many characters stand before it, in the whole and on its line, and how
many lines. -/
structure Mark where
  index : Nat := 0
  line : Nat := 0
  column : Nat := 0
  deriving DecidableEq, Repr

/-- How a scalar is written. -/
inductive Style where
  | plain
  | singleQuoted
  | doubleQuoted
  | literal
  | folded
  deriving DecidableEq, Repr

/-- What a token is. -/
inductive Sign where
  | streamEnd
  | version (major minor : Nat)
  | handle (name stem : Text)
  | documentStart
  | documentEnd
  | sequenceStart
  | mappingStart
  | blockEnd
  | openBracket
  | closeBracket
  | openBrace
  | closeBrace
  | item
  | comma
  | key
  | value
  | reference (name : Text)
  | anchor (name : Text)
  | tag (handle suffix : Text)
  | scalar (text : Text) (style : Style)
  deriving DecidableEq, Repr

/-- A sign and where it starts. -/
structure Token where
  sign : Sign
  mark : Mark
  deriving DecidableEq, Repr

end Lox.Yaml
