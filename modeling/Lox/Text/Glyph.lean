import Lox.Text.Basic

/-!
# Characters in a text

A text reads from left to right as well-formed UTF-8 characters and stray bytes: where no
well-formed character starts, one byte is taken alone.

## Design notes

`decode?` guesses the character from its first bytes and keeps the guess only if the text does
start with its encoding. Overlong forms, surrogates and values beyond the last code point are
therefore refused without being named.
-/

namespace Lox

namespace Text

/-- The UTF-8 encoding of a character. -/
def ofChar (c : Char) : Text := String.utf8EncodeChar c

/-- The code point spelled by a leading byte and the payload bits of the bytes after it. -/
def codePoint : Text → Nat
  | [] => 0
  | a :: t =>
    let low (i : Nat) : Nat := (t.getD i 0).toNat % 64
    if a < 0x80 then a.toNat
    else if a < 0xE0 then a.toNat % 32 * 64 + low 0
    else if a < 0xF0 then a.toNat % 16 * 4096 + low 0 * 64 + low 1
    else a.toNat % 8 * 262144 + low 0 * 4096 + low 1 * 64 + low 2

/-- The character whose encoding the text starts with, and the rest of the text. -/
def decode? (t : Text) : Option (Char × Text) :=
  let c := Char.ofNat (codePoint t)
  (afterPrefix? (ofChar c) t).map fun rest => (c, rest)

theorem ofChar_ne_nil (c : Char) : ofChar c ≠ [] := by
  intro h
  have hlen := congrArg List.length h
  simp only [ofChar, String.length_utf8EncodeChar, List.length_nil] at hlen
  have := c.utf8Size_pos
  omega

theorem eq_append_of_decode? {t rest : Text} {c : Char} (h : decode? t = some (c, rest)) :
    t = ofChar c ++ rest := by
  simp only [decode?, Option.map_eq_some_iff, Prod.mk.injEq] at h
  obtain ⟨r, hr, rfl, rfl⟩ := h
  exact afterPrefix?_eq_some_iff.1 hr

theorem length_lt_of_decode? {t rest : Text} {c : Char} (h : decode? t = some (c, rest)) :
    rest.length < t.length := by
  have hpos := List.length_pos_iff.2 (ofChar_ne_nil c)
  rw [eq_append_of_decode? h, List.length_append]
  omega

end Text

/-- One character of a text, or a byte that belongs to none. -/
inductive Glyph where
  | char (c : Char)
  | stray (b : UInt8)
  deriving DecidableEq, Repr

namespace Glyph

/-- The bytes a glyph was read from. -/
def bytes : Glyph → Text
  | char c => Text.ofChar c
  | stray b => [b]

/-- The character shown for a glyph: a stray byte shows as the replacement character. -/
def shown : Glyph → Char
  | char c => c
  | stray _ => '�'

end Glyph

namespace Text

/-- The first glyph of a non-empty text, and the rest. -/
def firstGlyph (b : UInt8) (t : Text) : Glyph × Text :=
  match decode? (b :: t) with
  | some (c, rest) => (.char c, rest)
  | none => (.stray b, t)

theorem firstGlyph_bytes (b : UInt8) (t : Text) :
    b :: t = (firstGlyph b t).1.bytes ++ (firstGlyph b t).2 := by
  unfold firstGlyph
  split
  · next h => exact eq_append_of_decode? h
  · rfl

theorem length_firstGlyph_lt (b : UInt8) (t : Text) :
    (firstGlyph b t).2.length < (b :: t).length := by
  unfold firstGlyph
  split
  · next h => exact length_lt_of_decode? h
  · simp

/-- A text as characters and stray bytes. -/
def glyphs : Text → List Glyph
  | [] => []
  | b :: t => (firstGlyph b t).1 :: glyphs (firstGlyph b t).2
termination_by t => t.length
decreasing_by exact length_firstGlyph_lt b t

/-- Whether every byte belongs to a well-formed character. -/
def isUtf8 (t : Text) : Bool :=
  t.glyphs.all fun
    | .char _ => true
    | .stray _ => false

/-- The text of a list of glyphs. -/
def ofGlyphs (gs : List Glyph) : Text := gs.flatMap Glyph.bytes

/-- Reading a text as glyphs loses nothing. -/
theorem ofGlyphs_glyphs (t : Text) : ofGlyphs t.glyphs = t := by
  fun_induction glyphs t with
  | case1 => rfl
  | case2 b t ih =>
    simp only [ofGlyphs, List.flatMap_cons] at ih ⊢
    rw [ih]
    exact (firstGlyph_bytes b t).symm

end Text

end Lox
