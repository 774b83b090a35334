import Lox.Text.Glyph
import Lox.Text.Printable

/-!
# Quoted text

A quoted text stands between double quotes. A quote and a backslash are escaped by a backslash,
seven control characters have letters, other ASCII controls and stray bytes are written as two
hexadecimal digits after a backslash and an x, and characters that are not printable as four
digits after a backslash and a u or eight after a backslash and a U.
-/

namespace Lox

namespace Text

/-- The lower-case hexadecimal digit of a number below sixteen. -/
def hexDigit (n : Nat) : UInt8 := byte (Nat.digitChar n)

/-- The lowest `width` hexadecimal digits of a number. -/
def hex : (width n : Nat) → Text
  | 0, _ => []
  | width + 1, n => hexDigit (n / Nat.pow 16 width % 16) :: hex width n

end Text

/-- The letter that follows the backslash for a control character, a quote or a backslash. -/
def escapeLetter? (c : Char) : Option Char :=
  match c with
  | '\x07' => some 'a'
  | '\x08' => some 'b'
  | '\x0c' => some 'f'
  | '\n' => some 'n'
  | '\r' => some 'r'
  | '\t' => some 't'
  | '\x0b' => some 'v'
  | '\\' => some '\\'
  | '"' => some '"'
  | _ => none

/-- A backslash, a letter and some hexadecimal digits. -/
def hexEscape (letter : Char) (width n : Nat) : Text :=
  Text.byte '\\' :: Text.byte letter :: Text.hex width n

/-- How a glyph is written inside quotes. -/
def Glyph.escaped : Glyph → Text
  | .stray b => hexEscape 'x' 2 b.toNat
  | .char c =>
    match escapeLetter? c with
    | some letter => [Text.byte '\\', Text.byte letter]
    | none =>
      if Text.isPrintable c then Text.ofChar c
      else if c.toNat < 0x80 then hexEscape 'x' 2 c.toNat
      else if c.toNat < 0x10000 then hexEscape 'u' 4 c.toNat
      else hexEscape 'U' 8 c.toNat

/-- The text between double quotes, with everything unprintable escaped. -/
def Text.quoted (t : Text) : Text :=
  byte '"' :: t.glyphs.flatMap Glyph.escaped ++ [byte '"']

end Lox
