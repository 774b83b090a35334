import Lox.Text.Glyph

/-!
# White space

The characters with the property White_Space, and trimming them from both ends of a text. A stray
byte is never white space.
-/

namespace Lox

/-- Whether a character is white space. -/
def isBlank (c : Char) : Bool :=
  let n := c.toNat
  decide ((9 ≤ n ∧ n ≤ 13) ∨ n = 0x20 ∨ n = 0x85 ∨ n = 0xA0 ∨ n = 0x1680 ∨
    (0x2000 ≤ n ∧ n ≤ 0x200A) ∨ n = 0x2028 ∨ n = 0x2029 ∨ n = 0x202F ∨ n = 0x205F ∨ n = 0x3000)

/-- Whether a glyph is white space. -/
def Glyph.isBlank : Glyph → Bool
  | .char c => Lox.isBlank c
  | .stray _ => false

/-- The text without the white space at its ends. -/
def Text.trim (t : Text) : Text :=
  let inner := t.glyphs.dropWhile Glyph.isBlank
  ofGlyphs (inner.reverse.dropWhile Glyph.isBlank).reverse

end Lox
