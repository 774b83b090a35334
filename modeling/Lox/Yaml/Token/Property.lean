import Lox.Yaml.Token.Scalar

/-!
# Names, tags and directives

A value can be named by an anchor, so that references can repeat it, and a tag can say of which
kind it is. Directives stand in front of a document: one gives the version of YAML, others give
handles that shorten tags.
-/

namespace Lox.Yaml

namespace Reading

/-! ### Names -/

/-- Reads letters, digits, underscores and hyphens. -/
def nameParts : Reading (List Char) := do
  need 1
  readWhile isNamePart [] (← get).rounds

/-- The signs that may follow a name at once. -/
def nameEnds : List Char := ['?', ':', ',', ']', '}', '%', '@', '\x60']

/-- Reads the name of an anchor or a reference after its sign. -/
def name : Reading Text := do
  let start := (← get).mark
  skip
  let cs ← nameParts
  let c ← current
  if cs = [] || !(isGap c || c ∈ nameEnds) then failFrom start .badAnchor
  pure (textOf cs)

/-! ### Tags -/

/-- Reads a handle: a name between exclamation marks, or one mark. Without the second mark it is
the start of a tag, unless a handle is what a directive defines. -/
def handle (start : Mark) (defining : Bool) : Reading (List Char) := do
  need 1
  if (← current) ≠ '!' then failFrom start .tagHandle
  skip
  let cs ← nameParts
  if (← current) = '!' then
    skip
    pure ('!' :: cs ++ ['!'])
  else if defining && cs ≠ [] then failFrom start .tagHandle
  else pure ('!' :: cs)

/-- Whether a character may stand in a tag. -/
def isTagPart (c : Char) : Bool := isNamePart c || c ∈ ";/?:@&=+$,.!~*'()[]%".toList

/-- Reads an octet written as a percent sign and two hexadecimal digits. -/
def escapedOctet (start : Mark) : Reading UInt8 := do
  need 3
  match hexDigit? (← look 1), hexDigit? (← look 2) with
  | some high, some low =>
    if (← current) = '%' then pure (16 * high + low).toUInt8
    else failFrom start .badEscapedOctet
  | _, _ => failFrom start .badEscapedOctet

/-- Reads the trailing octets of an escaped character. -/
def trailingOctets (start : Mark) (done : Text) : (n : Nat) → Reading Text
  | 0 => pure done.reverse
  | n + 1 => do
    let b ← escapedOctet start
    if b &&& 0xC0 ≠ 0x80 then failFrom start .trailingEscapedOctet
    skipMany 3
    trailingOctets start (b :: done) n

/-- Reads an escaped character. -/
def escapedCharacter (start : Mark) : Reading Text := do
  let b ← escapedOctet start
  match Encoding.width b with
  | 0 => failFrom start .leadingEscapedOctet
  | width + 1 =>
    skipMany 3
    trailingOctets start [b] width

/-- Reads the characters of a tag. -/
def tagParts (start : Mark) (done : Text) : (rounds : Nat) → Reading Text
  | 0 => fail .endless
  | rounds + 1 => do
    let c ← current
    if c = '%' then
      let t ← escapedCharacter start
      need 1
      tagParts start (done ++ t) rounds
    else if isTagPart c then
      skip
      need 1
      tagParts start (done ++ Text.ofChar c) rounds
    else pure done

/-- Reads a tag of which the characters `head` are known. There must be some characters. -/
def tagText (start : Mark) (head : List Char) : Reading Text := do
  need 1
  let known := textOf head.tail
  let index := (← get).mark.index
  let t ← tagParts start known (← get).rounds
  if head = [] && (← get).mark.index = index then failFrom start .noTag
  pure t

/-- Reads a tag. -/
def tag : Reading Sign := do
  let start := (← get).mark
  need 2
  let sign ←
    if (← look 1) = '<' then do
      skipMany 2
      let t ← tagText start []
      if (← current) ≠ '>' then failFrom start .tagClose
      skip
      pure (Sign.tag [] t)
    else do
      let cs ← handle start false
      if 1 < cs.length && cs.getLast? = some '!' then do
        pure (.tag (textOf cs) (← tagText start []))
      else do
        let t ← tagText start cs
        pure (if t = [] then .tag [] (textOf cs) else .tag "!" t)
  need 1
  if !isGap (← current) then failFrom start .noGap
  pure sign

/-! ### Directives -/

/-- Reads digits, of which there must not be more than `room`. -/
def versionDigits (start : Mark) (done : List Char) (room : Nat) : Reading (List Char) := do
  let c ← current
  if c.isDigit then
    match room with
    | 0 => failFrom start .longVersion
    | room + 1 =>
      skip
      need 1
      versionDigits start (c :: done) room
  else pure done.reverse

/-- Reads a number of at most two digits. -/
def versionNumber (start : Mark) : Reading Nat := do
  need 1
  let cs ← versionDigits start [] 2
  if cs = [] then failFrom start .noVersion
  pure (textOf cs).toNat

/-- Reads the value of a version directive. -/
def versionValue (start : Mark) : Reading Sign := do
  skipBlanks
  let major ← versionNumber start
  if (← current) ≠ '.' then failFrom start .versionPoint
  skip
  pure (.version major (← versionNumber start))

/-- Reads the value of a directive that defines a handle. -/
def handleValue (start : Mark) : Reading Sign := do
  skipBlanks
  let name ← handle start true
  need 1
  if !isBlank (← current) then failFrom start .noBlank
  skipBlanks
  let stem ← tagText start []
  need 1
  if !isGap (← current) then failFrom start .noGap
  pure (.handle (textOf name) stem)

/-- Reads a directive and the rest of its line. -/
def directive : Reading Sign := do
  let start := (← get).mark
  skip
  let cs ← nameParts
  if cs = [] then failFrom start .noDirectiveName
  if !isGap (← current) then failFrom start .badDirectiveName
  let sign ←
    if cs = ['Y', 'A', 'M', 'L'] then versionValue start
    else if cs = ['T', 'A', 'G'] then handleValue start
    else failFrom start .unknownDirective
  restOfLine start
  pure sign

end Reading

end Lox.Yaml
