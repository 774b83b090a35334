import Lox.Text.Glyph
import Lox.Yaml.Fault

/-!
# Characters of a YAML file

A YAML file is read in blocks of bytes and decoded as UTF-8, or as UTF-16 if it starts with a byte
order mark for that. A byte order mark at the start is dropped. Nothing of a block is seen before
the whole block has been decoded, so a fault in it is met by whoever needs its first character, and
by nobody who stops before it.
-/

namespace Lox.Yaml

/-- How characters are written as bytes. -/
inductive Encoding where
  | utf8
  | utf16 (bigEndian : Bool)
  deriving DecidableEq, Repr

/-- What stands at the start of some bytes. -/
inductive FirstCharacter where
  | character (c : Char) (rest : Text)
  /-- More bytes are needed; without them it is a fault. -/
  | incomplete (why : Unreadable)
  | invalid (why : Unreadable)

/-- Whether a character may stand in a file. -/
def isAllowed (c : Char) : Bool :=
  let n := c.val
  n = 0x09 || n = 0x0A || n = 0x0D || (0x20 ≤ n && n ≤ 0x7E) || n = 0x85
    || (0xA0 ≤ n && n ≤ 0xFFFD) || 0x10000 ≤ n

namespace FirstCharacter

/-- The character with a code, if there is one and it is allowed. -/
def ofCode (code : Nat) (rest : Text) : FirstCharacter :=
  if h : code.isValidChar then
    let c := Char.ofNatAux code h
    if isAllowed c then character c rest else invalid .control
  else invalid .notCharacter

end FirstCharacter

namespace Encoding

/-- The length of the UTF-8 sequence that starts with a byte; zero if none does. -/
def width (b : UInt8) : Nat :=
  if b &&& 0x80 = 0 then 1
  else if b &&& 0xE0 = 0xC0 then 2
  else if b &&& 0xF0 = 0xE0 then 3
  else if b &&& 0xF8 = 0xF0 then 4
  else 0

/-- The bits of a leading byte that belong to the code. -/
def leadingBits (width : Nat) (b : UInt8) : Nat :=
  match width with
  | 1 => b.toNat
  | 2 => b.toNat % 0x20
  | 3 => b.toNat % 0x10
  | _ => b.toNat % 0x08

/-- The least code that needs a sequence of the given length. -/
def leastCode : (width : Nat) → Nat
  | 1 => 0
  | 2 => 0x80
  | 3 => 0x800
  | _ => 0x10000

/-- The first character of bytes in UTF-8. -/
def firstOctets (b : UInt8) (t : Text) : FirstCharacter :=
  match width b with
  | 0 => .invalid .leadingOctet
  | width =>
    let more := t.take (width - 1)
    if more.length + 1 < width then .incomplete .incompleteOctets
    else if more.any fun o => o &&& 0xC0 ≠ 0x80 then .invalid .trailingOctet
    else
      let code := more.foldl (fun n o => 0x40 * n + o.toNat % 0x40) (leadingBits width b)
      if code < leastCode width then .invalid .sequenceLength
      else .ofCode code (t.drop (width - 1))

/-- The value of a unit of UTF-16. -/
def unit (bigEndian : Bool) (a b : UInt8) : Nat :=
  if bigEndian then 0x100 * a.toNat + b.toNat else a.toNat + 0x100 * b.toNat

/-- The first character of bytes in UTF-16. -/
def firstUnits (bigEndian : Bool) : Text → FirstCharacter
  | a :: b :: t =>
    let high := unit bigEndian a b
    if high / 0x400 = 0x37 then .invalid .unexpectedLow
    else if high / 0x400 = 0x36 then
      match t with
      | c :: d :: t =>
        let low := unit bigEndian c d
        if low / 0x400 = 0x37 then .ofCode (0x10000 + 0x400 * (high % 0x400) + low % 0x400) t
        else .invalid .missingLow
      | _ => .incomplete .incompletePair
    else .ofCode high t
  | _ => .incomplete .incompleteUnit

/-- The first character of a non-empty text. -/
def first (encoding : Encoding) (b : UInt8) (t : Text) : FirstCharacter :=
  match encoding with
  | utf8 => firstOctets b t
  | utf16 bigEndian => firstUnits bigEndian (b :: t)

/-- What a file is encoded in, and how long its byte order mark is. -/
def ofMark : Text → Encoding × Nat
  | 0xFF :: 0xFE :: _ => (utf16 false, 2)
  | 0xFE :: 0xFF :: _ => (utf16 true, 2)
  | 0xEF :: 0xBB :: 0xBF :: _ => (utf8, 3)
  | _ => (utf8, 0)

/-- Decodes a block, one character a round: the characters, latest first, and the bytes of one that
is not complete. -/
def decode (encoding : Encoding) (done : List Char) :
    (rounds : Nat) → Text → Except Unreadable (List Char × Text)
  | rounds + 1, b :: t =>
    match encoding.first b t with
    | .character c rest => encoding.decode (c :: done) rounds rest
    | .incomplete _ => .ok (done, b :: t)
    | .invalid why => .error why
  | _, t => .ok (done, t)

end Encoding

/-- The characters of a file, the sizes of the blocks in which they are read, and what is met
after them, if it is not the end. -/
structure Characters where
  chars : List Char
  blocks : List Nat
  unreadable : Option Unreadable

namespace Characters

/-- How many bytes are read at once. -/
def blockSize : Nat := 512

/-- Decodes blocks, one a round. `left` are bytes of a character that the last block has begun. -/
def ofBlocks (encoding : Encoding) : (rounds : Nat) → (left rest : Text) → Characters
  | 0, _, _ => ⟨[], [], none⟩
  | rounds + 1, left, rest =>
    match rest with
    | [] =>
      match left with
      | [] => ⟨[], [], none⟩
      | b :: t =>
        match encoding.first b t with
        | .incomplete why => ⟨[], [], some why⟩
        | _ => ⟨[], [], none⟩
    | _ =>
      let size := blockSize - left.length
      match encoding.decode [] blockSize (left ++ rest.take size) with
      | .error why => ⟨[], [], some why⟩
      | .ok (chars, left) =>
        let more := ofBlocks encoding rounds left (rest.drop size)
        ⟨chars.reverse ++ more.chars, chars.length :: more.blocks, more.unreadable⟩

/-- The characters of a file. -/
def ofBytes (t : Text) : Characters :=
  let (encoding, mark) := Encoding.ofMark t
  match encoding.decode [] blockSize ((t.take blockSize).drop mark) with
  | .error why => ⟨[], [], some why⟩
  | .ok (chars, left) =>
    let more := ofBlocks encoding (t.length + 1) left (t.drop blockSize)
    ⟨chars.reverse ++ more.chars, chars.length :: more.blocks, more.unreadable⟩

end Characters

end Lox.Yaml
