import Lox.Proofs.Source.Glyphs
import Lox.Text.Quoted

/-!
# Reading quoted text back

Each glyph between the quotes can be read back from the way it is written, whatever follows it, and
no glyph is written with a quote in front. So a quoted text ends at its own closing quote, and
different texts are quoted differently.
-/

namespace Lox

open Text (byte)

namespace Text

/-! ### Hexadecimal digits -/

/-- The number of a lower-case hexadecimal digit. -/
def hexValue (b : UInt8) : Nat := if b < 0x3A then b.toNat - 48 else b.toNat - 87

/-- The number that hexadecimal digits stand for. -/
def unhex (t : Text) : Nat := t.foldl (fun n b => 16 * n + hexValue b) 0

theorem hexValue_hexDigit {n : Nat} (h : n < 16) : hexValue (hexDigit n) = n := by
  have hall : ∀ n < 16, hexValue (hexDigit n) = n := by decide
  exact hall n h

theorem length_hex (width n : Nat) : (hex width n).length = width := by
  induction width with
  | zero => rfl
  | succ width ih => rw [hex, List.length_cons, ih]

theorem foldl_hex (width n start : Nat) :
    (hex width n).foldl (fun n b => 16 * n + hexValue b) start =
      16 ^ width * start + n % 16 ^ width := by
  induction width generalizing start with
  | zero => simp [hex, Nat.mod_one]
  | succ width ih =>
    rw [hex, List.foldl_cons, ih, hexValue_hexDigit (Nat.mod_lt _ (by decide)), Nat.pow_eq,
      Nat.pow_succ, Nat.mod_mul]
    ring

theorem unhex_hex {width n : Nat} (h : n < 16 ^ width) : unhex (hex width n) = n := by
  rw [unhex, foldl_hex, Nat.mul_zero, Nat.zero_add, Nat.mod_eq_of_lt h]

/-! ### Characters of ASCII -/

/-- A byte of ASCII is a character by itself. -/
theorem decode?_ascii {b : UInt8} (h : b < 0x80) (t : Text) :
    decode? (b :: t) = some (Char.ofNat b.toNat, t) := by
  have hall : ∀ n < 128, ofChar (Char.ofNat n) = [UInt8.ofNat n] := by decide
  rw [decode?_eq_some_iff, hall b.toNat (UInt8.lt_iff_toNat_lt.1 h), UInt8.ofNat_toNat]
  rfl

/-- A character that starts with a byte of ASCII is that byte. -/
theorem toNat_of_ofChar_eq_cons {c : Char} {b : UInt8} {t : Text} (hb : b < 0x80)
    (h : ofChar c = b :: t) : c.toNat = b.toNat := by
  have hpoint := codePoint_ofChar_append c []
  rw [List.append_nil, h, codePoint, if_pos hb] at hpoint
  exact hpoint.symm

end Text

namespace Glyph

/-- A stray byte is not one of ASCII. -/
def IsProper : Glyph → Prop
  | char _ => True
  | stray b => 0x80 ≤ b

/-- The glyph that two hexadecimal digits stand for. -/
def ofByte (n : Nat) : Glyph := if n < 0x80 then char (Char.ofNat n) else stray (UInt8.ofNat n)

/-- The characters that a letter stands for after a backslash. -/
def ofLetter? (letter : UInt8) : Option Glyph :=
  (['\x07', '\x08', '\x0c', '\n', '\r', '\t', '\x0b', '\\', '"'].find? fun c =>
    (escapeLetter? c).map byte = some letter).map char

/-- How many digits follow a letter after a backslash, and the glyph that they stand for. -/
def ofHexLetter? (letter : UInt8) : Option (Nat × (Nat → Glyph)) :=
  if letter = byte 'x' then some (2, ofByte)
  else if letter = byte 'u' then some (4, fun n => char (Char.ofNat n))
  else if letter = byte 'U' then some (8, fun n => char (Char.ofNat n))
  else none

/-- The glyph that is written after a backslash, and the rest of the text. -/
def readEscape? : Text → Option (Glyph × Text)
  | [] => none
  | letter :: t =>
    match ofHexLetter? letter with
    | some (width, make) => some (make (Text.unhex (t.take width)), t.drop width)
    | none => (ofLetter? letter).map fun g => (g, t)

/-- The glyph that is written at the start of a text, and the rest of the text. -/
def read? : Text → Option (Glyph × Text)
  | [] => none
  | b :: t =>
    if b = byte '\\' then readEscape? t
    else (Text.decode? (b :: t)).map fun found => (char found.1, found.2)

theorem read?_cons_of_ne {b : UInt8} (hb : b ≠ byte '\\') (t : Text) :
    read? (b :: t) = (Text.decode? (b :: t)).map fun found => (char found.1, found.2) := by
  rw [read?, if_neg hb]

theorem read?_hexEscape {letter : Char} {width n : Nat} {make : Nat → Glyph}
    (h : ofHexLetter? (byte letter) = some (width, make)) (hn : n < 16 ^ width) (rest : Text) :
    read? (hexEscape letter width n ++ rest) = some (make n, rest) := by
  have hlength := Text.length_hex width n
  have htake : (Text.hex width n ++ rest).take width = Text.hex width n := List.take_left' hlength
  have hdrop : (Text.hex width n ++ rest).drop width = rest := List.drop_left' hlength
  rw [hexEscape, List.cons_append, List.cons_append, read?, if_pos rfl, readEscape?, h]
  dsimp only
  rw [htake, hdrop, Text.unhex_hex hn]

theorem read?_letter {c letter : Char} (h : escapeLetter? c = some letter) (rest : Text) :
    read? ([byte '\\', byte letter] ++ rest) = some (char c, rest) := by
  unfold escapeLetter? at h
  split at h
  case h_10 => cases h
  all_goals
    obtain rfl := Option.some.inj h
    rfl

/-- A character that has no letter starts neither like a backslash nor like a quote. -/
theorem ofChar_head {c : Char} (h : escapeLetter? c = none) :
    ∃ b t, Text.ofChar c = b :: t ∧ b ≠ byte '\\' ∧ b ≠ byte '"' := by
  obtain ⟨b, t, hc⟩ := List.exists_cons_of_ne_nil (Text.ofChar_ne_nil c)
  have hascii {d : Char} (hd : byte d < 0x80) (hd' : (byte d).toNat = d.toNat)
      (hletter : escapeLetter? d ≠ none) : b ≠ byte d := by
    rintro rfl
    have hpoint := Text.toNat_of_ofChar_eq_cons hd hc
    obtain rfl : c = d := Char.toNat_inj.1 (hpoint.trans hd')
    exact hletter h
  exact ⟨b, t, hc, hascii (by decide) (by decide) (by decide),
    hascii (by decide) (by decide) (by decide)⟩

theorem ofByte_of_lt {c : Char} (h : c.toNat < 0x80) : ofByte c.toNat = char c := by
  rw [ofByte, if_pos h, Char.ofNat_toNat]

theorem ofByte_of_le {b : UInt8} (h : 0x80 ≤ b) : ofByte b.toNat = stray b := by
  have hle : ¬ b.toNat < 0x80 := Nat.not_lt.2 (UInt8.le_iff_toNat_le.1 h)
  rw [ofByte, if_neg hle, UInt8.ofNat_toNat]

/-- A glyph is read back from the way it is written, whatever follows it. -/
theorem read?_escaped {g : Glyph} (hg : g.IsProper) (rest : Text) :
    read? (g.escaped ++ rest) = some (g, rest) := by
  cases g with
  | stray b => rw [escaped, read?_hexEscape rfl b.toNat_lt, ofByte_of_le hg]
  | char c =>
    have hlast : c.toNat < 16 ^ 8 := by
      rcases c.valid with h | ⟨-, h⟩
      · exact Nat.lt_trans h (by decide)
      · exact Nat.lt_trans h (by decide)
    rw [escaped]
    cases hletter : escapeLetter? c with
    | some letter => exact read?_letter hletter rest
    | none =>
      dsimp only
      split_ifs with hprint hascii hshort
      · obtain ⟨b, t, hc, hb, -⟩ := ofChar_head hletter
        rw [hc, List.cons_append, read?_cons_of_ne hb, ← List.cons_append, ← hc,
          Text.decode?_eq_some_iff.2 rfl]
        rfl
      · rw [read?_hexEscape rfl (Nat.lt_trans hascii (by decide)), ofByte_of_lt hascii]
      · rw [read?_hexEscape rfl hshort, Char.ofNat_toNat]
      · rw [read?_hexEscape rfl hlast, Char.ofNat_toNat]

/-- No glyph is written with a quote in front. -/
theorem escaped_head (g : Glyph) : ∃ b t, g.escaped = b :: t ∧ b ≠ byte '"' := by
  have hbackslash : byte '\\' ≠ byte '"' := by decide
  cases g with
  | stray b => exact ⟨_, _, rfl, hbackslash⟩
  | char c =>
    rw [escaped]
    cases hletter : escapeLetter? c with
    | some letter => exact ⟨_, _, rfl, hbackslash⟩
    | none =>
      dsimp only
      split_ifs
      · obtain ⟨b, t, hc, -, hb⟩ := ofChar_head hletter
        exact ⟨b, t, hc, hb⟩
      all_goals exact ⟨_, _, rfl, hbackslash⟩

end Glyph

namespace Text

theorem isProper_of_mem_glyphs {t : Text} {g : Glyph} (h : g ∈ t.glyphs) : g.IsProper := by
  fun_induction glyphs t with
  | case1 => cases h
  | case2 b t ih =>
    rcases List.mem_cons.1 h with rfl | h
    · unfold firstGlyph
      cases hd : decode? (b :: t) with
      | some found => trivial
      | none =>
        -- a byte of ASCII would have been a character
        by_contra hascii
        rw [decode?_ascii (UInt8.not_le.1 hascii)] at hd
        cases hd
    · exact ih h

/-- Glyphs between quotes end where the closing quote is. -/
theorem flatMap_escaped_inj {gs hs : List Glyph} (hgs : ∀ g ∈ gs, g.IsProper)
    (hhs : ∀ g ∈ hs, g.IsProper) {k l : Text}
    (h : gs.flatMap Glyph.escaped ++ byte '"' :: k = hs.flatMap Glyph.escaped ++ byte '"' :: l) :
    gs = hs ∧ k = l := by
  have hquote (g : Glyph) (t u : Text) : byte '"' :: t ≠ g.escaped ++ u := by
    obtain ⟨b, v, hb, hne⟩ := g.escaped_head
    rw [hb, List.cons_append]
    exact fun heq => hne (List.cons.inj heq).1.symm
  induction gs generalizing hs with
  | nil =>
    cases hs with
    | nil => exact ⟨rfl, (List.cons.inj h).2⟩
    | cons g hs =>
      rw [List.flatMap_nil, List.nil_append, List.flatMap_cons, List.append_assoc] at h
      exact absurd h (hquote g _ _)
  | cons g gs ih =>
    cases hs with
    | nil =>
      rw [List.flatMap_nil, List.nil_append, List.flatMap_cons, List.append_assoc] at h
      exact absurd h.symm (hquote g _ _)
    | cons g' hs =>
      obtain ⟨hg, hgsrest⟩ := List.forall_mem_cons.1 hgs
      obtain ⟨hg', hhsrest⟩ := List.forall_mem_cons.1 hhs
      rw [List.flatMap_cons, List.flatMap_cons, List.append_assoc, List.append_assoc] at h
      have hread := congrArg Glyph.read? h
      rw [Glyph.read?_escaped hg, Glyph.read?_escaped hg', Option.some.injEq,
        Prod.mk.injEq] at hread
      obtain ⟨rfl, hrest⟩ := hread
      obtain ⟨rfl, hkl⟩ := ih hgsrest hhsrest hrest
      exact ⟨rfl, hkl⟩

/-- A quoted text is found again in front of any other text. -/
theorem quoted_append_inj {t u k l : Text} (h : t.quoted ++ k = u.quoted ++ l) : t = u ∧ k = l := by
  unfold quoted at h
  simp only [List.cons_append, List.append_assoc, List.nil_append, List.cons.injEq, true_and] at h
  obtain ⟨hglyphs, hkl⟩ := flatMap_escaped_inj (fun _ => isProper_of_mem_glyphs)
    (fun _ => isProper_of_mem_glyphs) h
  rw [← ofGlyphs_glyphs t, hglyphs, ofGlyphs_glyphs u]
  exact ⟨rfl, hkl⟩

end Text

end Lox
