import Lox.Text.Glyph
import Mathlib

/-!
# Characters at the start of a text

No encoding of a character is the start of another one, and no byte of it but the first can be one
of ASCII. So which character a text starts with does not depend on what comes later in the text,
and no character reaches over a line end.
-/

namespace Lox

namespace Text

/-- The bytes of a character stand for its code point, whatever follows them. -/
theorem codePoint_ofChar_append (c : Char) (t : Text) : codePoint (ofChar c ++ t) = c.toNat := by
  have hc : c.val.toNat < 1114112 := by
    rcases c.valid with h | ⟨-, h⟩
    · exact Nat.lt_trans h (by decide)
    · exact h
  have hbyte : ∀ k, k < 256 → (UInt8.ofNat k).toNat = k := fun k hk => by simp; omega
  unfold ofChar String.utf8EncodeChar Char.toNat
  generalize c.val.toNat = n at hc
  dsimp only
  -- one case for each length of an encoding
  split
  · next h =>
    simp only [List.cons_append, codePoint, UInt8.lt_iff_toNat_lt, hbyte n (by omega)]
    exact if_pos (Nat.lt_succ_of_le h)
  · split
    · simp only [List.cons_append, List.nil_append, codePoint, UInt8.lt_iff_toNat_lt,
        List.getD_cons_zero, hbyte (n / 64 % 32 + 192) (by omega), hbyte (n % 64 + 128) (by omega)]
      simp only [UInt8.reduceToNat]
      split_ifs <;> omega
    · split
      · simp only [List.cons_append, List.nil_append, codePoint, UInt8.lt_iff_toNat_lt,
          List.getD_cons_zero, List.getD_cons_succ, hbyte (n / 4096 % 16 + 224) (by omega),
          hbyte (n / 64 % 64 + 128) (by omega), hbyte (n % 64 + 128) (by omega)]
        simp only [UInt8.reduceToNat]
        split_ifs <;> omega
      · simp only [List.cons_append, List.nil_append, codePoint, UInt8.lt_iff_toNat_lt,
          List.getD_cons_zero, List.getD_cons_succ, hbyte (n / 262144 % 8 + 240) (by omega),
          hbyte (n / 4096 % 64 + 128) (by omega), hbyte (n / 64 % 64 + 128) (by omega),
          hbyte (n % 64 + 128) (by omega)]
        simp only [UInt8.reduceToNat]
        split_ifs <;> omega

/-- A text starts with a character if it starts with the bytes of the character. -/
theorem decode?_eq_some_iff {t rest : Text} {c : Char} :
    decode? t = some (c, rest) ↔ t = ofChar c ++ rest := by
  constructor
  · exact eq_append_of_decode?
  · rintro rfl
    unfold decode?
    dsimp only
    rw [codePoint_ofChar_append, Char.ofNat_toNat, afterPrefix?_eq_some_iff.mpr rfl]
    rfl

theorem decode?_eq_none_iff {t : Text} : decode? t = none ↔ ∀ c, ¬ ofChar c <+: t := by
  rw [Option.eq_none_iff_forall_ne_some]
  constructor
  · rintro h c ⟨rest, rfl⟩
    exact h (c, rest) (decode?_eq_some_iff.mpr rfl)
  · rintro h ⟨c, rest⟩ hd
    exact h c ⟨rest, (eq_append_of_decode? hd).symm⟩

/-- Only the first byte of a character can be one of ASCII. -/
theorem le_of_mem_tail_ofChar {c : Char} {a b : UInt8} {t : Text} (h : ofChar c = b :: t)
    (ha : a ∈ t) : 0x80 ≤ a := by
  have hbyte : ∀ k, 0x80 ≤ UInt8.ofNat (k % 64 + 128) := by
    intro k
    rw [UInt8.le_iff_toNat_le]
    simp
    omega
  unfold ofChar String.utf8EncodeChar at h
  dsimp only at h
  split_ifs at h
  all_goals
    obtain ⟨-, rfl⟩ := List.cons.inj h
  · cases ha
  · obtain rfl := List.mem_singleton.mp ha
    exact hbyte _
  · simp only [List.mem_cons, List.not_mem_nil, or_false] at ha
    rcases ha with rfl | rfl <;> exact hbyte _
  · simp only [List.mem_cons, List.not_mem_nil, or_false] at ha
    rcases ha with rfl | rfl | rfl <;> exact hbyte _

/-- The first character of a text is the same before an ASCII byte and whatever follows it. -/
theorem decode?_append_ascii {a : UInt8} (ha : a < 0x80) (b : UInt8) (t v : Text) :
    decode? (b :: t ++ a :: v) = (decode? (b :: t)).map fun found =>
      (found.1, found.2 ++ a :: v) := by
  cases hd : decode? (b :: t) with
  | some found =>
    obtain ⟨c, rest⟩ := found
    rw [eq_append_of_decode? hd, List.append_assoc]
    exact decode?_eq_some_iff.mpr rfl
  | none =>
    rw [decode?_eq_none_iff] at hd
    refine decode?_eq_none_iff.mpr ?_
    rintro c ⟨rest, hc⟩
    rcases List.append_eq_append_iff.mp hc with ⟨u, hu, -⟩ | ⟨u, hu, hv⟩
    · exact hd c ⟨u, hu.symm⟩
    · cases u with
      | nil => exact hd c ⟨[], by rw [hu, List.append_nil, List.append_nil]⟩
      | cons a' u =>
        -- the encoding would go on with the byte of ASCII
        obtain rfl := (List.cons.inj hv).1
        have hle : 0x80 ≤ a := le_of_mem_tail_ofChar hu (by simp)
        exact absurd ha (UInt8.not_lt.mpr hle)

theorem firstGlyph_append_ascii {a : UInt8} (ha : a < 0x80) (b : UInt8) (t v : Text) :
    firstGlyph b (t ++ a :: v) = ((firstGlyph b t).1, (firstGlyph b t).2 ++ a :: v) := by
  unfold firstGlyph
  rw [← List.cons_append, decode?_append_ascii ha]
  cases decode? (b :: t) <;> rfl

end Text

end Lox
