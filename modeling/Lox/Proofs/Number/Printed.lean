import Mathlib
import Lox.Number.Read
import Lox.Proofs.Number.Rounding
import Lox.Proofs.Source.Lexicon

/-!
# Printed numbers

A number in positional notation is read as what its digits say, and what they say rounds to the
double that was printed. So the printed text of a double tells all of its bits.
-/

namespace Lox

open Text (byte)

namespace Text

/-! ### Digits -/

theorem toNat_append (s t : Text) : toNat (s ++ t) = toNat s * 10 ^ t.length + toNat t := by
  induction t using List.reverseRecOn with
  | nil => simp [toNat]
  | append_singleton t d ih =>
    have hsnoc (u : Text) : toNat (u ++ [d]) = 10 * toNat u + (d.toNat - 48) := by
      simp [toNat, List.foldl_append]
    rw [← List.append_assoc, hsnoc, hsnoc, ih, List.length_append, List.length_singleton, pow_succ]
    ring

theorem toNat_zero_cons (t : Text) : toNat (byte '0' :: t) = toNat t := by
  have hzero : toNat [byte '0'] = 0 := by decide
  rw [← List.singleton_append, toNat_append, hzero, Nat.zero_mul, Nat.zero_add]

theorem toNat_replicate_append (n : Nat) (t : Text) :
    toNat (List.replicate n (byte '0') ++ t) = toNat t := by
  induction n with
  | zero => rfl
  | succ n ih => rw [List.replicate_succ, List.cons_append, toNat_zero_cons, ih]

theorem toNat_byte_of_isDigit {c : Char} (h : c.isDigit = true) : (byte c).toNat = c.toNat := by
  have hle : c.toNat ≤ 57 := by
    simp only [Char.isDigit, Bool.and_eq_true, decide_eq_true_eq] at h
    exact h.2
  show (UInt32.toUInt8 c.val).toNat = c.val.toNat
  rw [UInt32.toNat_toUInt8]
  exact Nat.mod_eq_of_lt (Nat.lt_of_le_of_lt hle (by decide))

theorem toNat_ofNat (n : Nat) : toNat (ofNat n) = n := by
  calc toNat (ofNat n)
    _ = Nat.ofDigitChars 10 (Nat.toDigits 10 n) 0 := by
      rw [toNat, ofNat, List.foldl_map, Nat.ofDigitChars_eq_foldl]
      refine List.foldl_ext _ _ _ fun sum c hc => ?_
      rw [toNat_byte_of_isDigit (Nat.isDigit_of_mem_toDigits (by decide) (by decide) hc)]
      rfl
    _ = n := Nat.ofDigitChars_ten_toDigits

theorem isDigit_of_mem_ofNat {n : Nat} {b : UInt8} (h : b ∈ ofNat n) : Number.isDigit b = true := by
  obtain ⟨c, hc, rfl⟩ := List.mem_map.1 h
  have hdigit := Nat.isDigit_of_mem_toDigits (by decide) (by decide) hc
  have hbyte := toNat_byte_of_isDigit hdigit
  simp only [Char.isDigit, Bool.and_eq_true, decide_eq_true_eq] at hdigit
  rw [Number.isDigit, decide_eq_true_eq, UInt8.le_iff_toNat_le, UInt8.le_iff_toNat_le, hbyte]
  exact hdigit

theorem ofNat_ne_nil (n : Nat) : ofNat n ≠ [] := by
  simp [ofNat]

/-! ### Positional notation -/

/-- The number that digits with an optional point stand for. -/
def numeral (t : Text) : ℚ :=
  let parts := t.cut (· ≠ byte '.')
  toNat (parts.1 ++ parts.2.drop 1) / 10 ^ (parts.2.drop 1).length

theorem numeral_of_whole {whole : Text} (h : byte '.' ∉ whole) : numeral whole = toNat whole := by
  rw [numeral, cut_of_notMem h]
  simp

theorem numeral_of_point {whole : Text} (h : byte '.' ∉ whole) (fraction : Text) :
    numeral (whole ++ byte '.' :: fraction) = toNat (whole ++ fraction) / 10 ^ fraction.length := by
  rw [numeral, cut_append_of_notMem h]
  simp

/-- A number in positional notation stands for its digits, the point being where it is. -/
theorem numeral_positional {digits : Text} (h : byte '.' ∉ digits) (point : Int) :
    numeral (Decimal.positional digits point) = toNat digits * 10 ^ (point - digits.length) := by
  unfold Decimal.positional
  dsimp only
  split_ifs with hneg hlong
  · rw [List.cons_append, List.cons_append, ← List.singleton_append,
      numeral_of_point (by decide), List.singleton_append, toNat_zero_cons, toNat_replicate_append,
      div_eq_mul_inv, ← zpow_natCast, ← zpow_neg]
    congr 2
    simp only [List.length_append, List.length_replicate]
    omega
  · have hpoint : byte '.' ∉ digits ++ List.replicate (point.toNat - digits.length) (byte '0') := by
      intro hmem
      rcases List.mem_append.1 hmem with hmem | hmem
      · exact h hmem
      · exact absurd (List.eq_of_mem_replicate hmem) (by decide)
    have hzeros : toNat (List.replicate (point.toNat - digits.length) (byte '0')) = 0 := by
      rw [← List.append_nil (List.replicate _ _), toNat_replicate_append]
      rfl
    rw [numeral_of_whole hpoint, toNat_append, hzeros, List.length_replicate, Nat.add_zero,
      Nat.cast_mul, Nat.cast_pow, Nat.cast_ofNat, ← zpow_natCast]
    congr 2
    omega
  · rw [numeral_of_point fun hmem => h (List.mem_of_mem_take hmem), List.take_append_drop,
      div_eq_mul_inv, ← zpow_natCast, ← zpow_neg]
    congr 2
    simp only [List.length_drop]
    omega

/-- A text of digits and points that starts with a digit. -/
def IsPositional (t : Text) : Prop :=
  (∃ b rest, t = b :: rest ∧ Number.isDigit b = true) ∧
    ∀ b ∈ t, Number.isDigit b = true ∨ b = byte '.'

theorem isPositional_positional {digits : Text} (hne : digits ≠ [])
    (h : ∀ b ∈ digits, Number.isDigit b = true) (point : Int) :
    IsPositional (Decimal.positional digits point) := by
  have hzero : Number.isDigit (byte '0') = true := by decide
  obtain ⟨d, rest, rfl⟩ := List.exists_cons_of_ne_nil hne
  have hd := h d List.mem_cons_self
  unfold Decimal.positional
  dsimp only
  split_ifs with hneg hlong
  · refine ⟨⟨_, _, rfl, hzero⟩, fun b hb => ?_⟩
    simp only [List.cons_append, List.mem_cons, List.mem_append, List.mem_replicate] at hb
    rcases hb with rfl | rfl | ⟨-, rfl⟩ | hb
    · exact .inl hzero
    · exact .inr rfl
    · exact .inl hzero
    · exact .inl (h b (List.mem_cons.2 hb))
  · refine ⟨⟨_, _, rfl, hd⟩, fun b hb => .inl ?_⟩
    rcases List.mem_append.1 hb with hb | hb
    · exact h b hb
    · exact (List.eq_of_mem_replicate hb) ▸ hzero
  · obtain ⟨n, hn⟩ : ∃ n : Nat, point.toNat = n + 1 := ⟨point.toNat - 1, by omega⟩
    rw [hn]
    refine ⟨⟨_, _, rfl, hd⟩, fun b hb => ?_⟩
    rcases List.mem_append.1 hb with hb | hb
    · exact .inl (h b (List.mem_of_mem_take hb))
    · rcases List.mem_cons.1 hb with rfl | hb
      · exact .inr rfl
      · exact .inl (h b (List.mem_of_mem_drop hb))

end Text

/-! ### Doubles -/

/-- The printed text of a decimal has the value of the decimal. -/
theorem Decimal.numeral_text (d : Decimal) :
    (d.text Number.printedLayout).numeral = d.value ∧
      (d.text Number.printedLayout).IsPositional := by
  have hdigits : ∀ b ∈ Text.ofNat d.digits, Number.isDigit b = true := fun b hb =>
    Text.isDigit_of_mem_ofNat hb
  have hpoint : byte '.' ∉ Text.ofNat d.digits := fun hmem => absurd (hdigits _ hmem) (by decide)
  have htext : d.text Number.printedLayout =
      positional (Text.ofNat d.digits) ((Text.ofNat d.digits).length + d.exponent) := by
    rw [text]
    exact if_pos rfl
  rw [htext]
  constructor
  · rw [Text.numeral_positional hpoint, Text.toNat_ofNat, add_sub_cancel_left, value]
  · exact Text.isPositional_positional (Text.ofNat_ne_nil _) hdigits _

namespace Number

/-- The bits of a double without its sign: the double of that number among those of its sign. -/
def index (x : Float) : Nat := x.toBits.toNat % Nat.pow 2 63

/-- Whether the sign bit of a double is set. -/
def isNegative (x : Float) : Bool := Nat.pow 2 63 ≤ x.toBits.toNat

/-- What is printed of a finite double after its sign. -/
def magnitude (x : Float) : Text :=
  if index x = 0 then "0" else (Binary.ofIndex (index x)).shortest.text printedLayout

/-- A numeral with a sign in front of it. -/
def signed (negative : Bool) (t : Text) : Text := if negative then byte '-' :: t else t

/-- An infinity. -/
def infinite (negative : Bool) : Text := if negative then "-Inf" else "+Inf"

theorem index_lt (x : Float) : index x < Nat.pow 2 63 := Nat.mod_lt _ (by decide)

/-- The exponent and the fraction of a double are the two parts of its index. -/
theorem fields_index (x : Float) :
    x.toBits.toNat / Nat.pow 2 52 % Nat.pow 2 11 = index x / Nat.pow 2 52 ∧
      x.toBits.toNat % Nat.pow 2 52 = index x % Nat.pow 2 52 := by
  have hlt := x.toBits.toNat_lt
  unfold index
  simp only [Nat.pow_eq]
  omega

theorem printed_eq (x : Float) : printed x =
    if index x < 2047 * Nat.pow 2 52 then signed (isNegative x) (magnitude x)
    else if index x = 2047 * Nat.pow 2 52 then infinite (isNegative x) else "NaN" := by
  obtain ⟨hexponent, hfraction⟩ := fields_index x
  have hlt := index_lt x
  have hdiv := Nat.div_add_mod (index x) (Nat.pow 2 52)
  have hmod := Nat.mod_lt (index x) (show 0 < Nat.pow 2 52 by decide)
  unfold printed text
  dsimp only
  rw [hexponent, hfraction]
  by_cases hfinite : index x < 2047 * Nat.pow 2 52
  · have hne : index x / Nat.pow 2 52 ≠ 2047 := by
      simp only [Nat.pow_eq] at *
      omega
    have hzero : (index x / Nat.pow 2 52 = 0 ∧ index x % Nat.pow 2 52 = 0) ↔ index x = 0 := by
      simp only [Nat.pow_eq] at *
      omega
    rw [if_neg hne, if_pos hfinite, signed, isNegative]
    simp only [hzero, magnitude, Binary.ofIndex, decide_eq_true_eq]
  · have heq : index x / Nat.pow 2 52 = 2047 := by
      simp only [Nat.pow_eq] at *
      omega
    have hfraction : index x % Nat.pow 2 52 = 0 ↔ index x = 2047 * Nat.pow 2 52 := by
      simp only [Nat.pow_eq] at *
      omega
    rw [if_pos heq, if_neg hfinite, infinite, isNegative]
    simp only [hfraction, ite_not, decide_eq_true_eq]

/-- What is printed of a finite double after its sign is a numeral that rounds to it. -/
theorem rounds_magnitude {x : Float} (h : index x < 2047 * Nat.pow 2 52) :
    (magnitude x).IsPositional ∧ (Binary.ofIndex (index x)).Rounds (magnitude x).numeral := by
  unfold magnitude
  split
  next hzero =>
    have hdigit : Number.isDigit (byte '0') = true := by decide
    have hnumeral : Text.numeral [byte '0'] = 0 := by
      rw [Text.numeral_of_whole (by decide), Text.toNat_zero_cons]
      exact Nat.cast_zero
    rw [hzero, show Text.ofString "0" = [byte '0'] by decide, hnumeral]
    exact ⟨⟨⟨_, _, rfl, hdigit⟩, List.forall_mem_singleton.2 (.inl hdigit)⟩, Binary.rounds_zero⟩
  · obtain ⟨hvalue, hshape⟩ := (Binary.ofIndex (index x)).shortest.numeral_text
    rw [hvalue]
    exact ⟨hshape, Binary.rounds_shortest h⟩

theorem eq_of_index_eq {x y : Float} (hindex : index x = index y)
    (hsign : isNegative x = isNegative y) : x = y := by
  have hx := x.toBits.toNat_lt
  have hy := y.toBits.toNat_lt
  have hbits : x.toBits = y.toBits := by
    rw [isNegative, isNegative, decide_eq_decide] at hsign
    unfold index at hindex
    apply UInt64.toNat_inj.1
    simp only [Nat.pow_eq] at *
    omega
  obtain ⟨⟨bits, hvalid⟩⟩ := x
  obtain ⟨⟨bits', hvalid'⟩⟩ := y
  obtain rfl : bits = bits' := hbits
  rfl

/-! ### What is not a number -/

section NaN

open Float.Model Float.Model.UnpackedFloat

theorem toNat_unpackExponent (b : BitVec Format.binary64.numBits) :
    (unpackExponent b).toNat = b.toNat / Nat.pow 2 52 % Nat.pow 2 11 := by
  simp [unpackExponent, BitVec.extractLsb_toNat, Nat.shiftRight_eq_div_pow]

theorem toNat_unpackMantissa (b : BitVec Format.binary64.numBits) :
    (unpackMantissa b).toNat = b.toNat % Nat.pow 2 52 := by
  simp [unpackMantissa, BitVec.extractLsb_toNat]

theorem isNaN_unpack_iff (b : BitVec Format.binary64.numBits) :
    (UnpackedFloat.unpack Format.binary64 b).isNaN = true ↔
      unpackExponent b = -1#_ ∧ unpackMantissa b ≠ 0#_ := by
  unfold UnpackedFloat.unpack
  dsimp only
  by_cases hexponent : unpackExponent b = -1#_
  · rw [if_pos hexponent]
    by_cases hmantissa : unpackMantissa b = 0#_
    · simp [hmantissa, UnpackedFloat.isNaN]
    · simp [hmantissa, hexponent, UnpackedFloat.isNaN]
  · rw [if_neg hexponent]
    split_ifs <;> exact ⟨fun h => absurd h Bool.false_ne_true, fun h => absurd h.1 hexponent⟩

/-- A double that is not a number has an index above that of infinity. -/
theorem isNaN_iff (x : Float) : x.isNaN = true ↔ 2047 * Nat.pow 2 52 < index x := by
  obtain ⟨hexponent, hfraction⟩ := fields_index x
  have hlt := index_lt x
  have hbits : (UnpackedFloat.unpack Format.binary64 x.toBits.toBitVec).isNaN = true ↔
      index x / Nat.pow 2 52 = 2047 ∧ index x % Nat.pow 2 52 ≠ 0 := by
    rw [isNaN_unpack_iff, ← BitVec.toNat_inj, ne_eq, ← BitVec.toNat_inj, toNat_unpackExponent,
      toNat_unpackMantissa, ← hexponent, ← hfraction]
    exact Iff.rfl
  refine hbits.trans ?_
  simp only [Nat.pow_eq] at *
  omega

/-- There is only one double that is not a number. -/
theorem eq_of_isNaN {x y : Float} (hx : x.isNaN = true) (hy : y.isNaN = true) : x = y := by
  have hcanonical {z : Float} (hz : z.isNaN = true) :
      z.toBits.toBitVec = packedNaN Format.binary64 :=
    z.toModel.valid.eq_packedNaN ((isNaN_unpack_iff _).1 hz).1 ((isNaN_unpack_iff _).1 hz).2
  have hbits : x.toBits = y.toBits :=
    UInt64.toBitVec_inj.1 ((hcanonical hx).trans (hcanonical hy).symm)
  refine eq_of_index_eq ?_ ?_
  · rw [index, index, hbits]
  · rw [isNegative, isNegative, hbits]

/-- What is packed stays a number: an exponent of ones is only written with an empty fraction. -/
theorem isNaN_pack {f : UnpackedFloat} (h : f.isNaN = false) :
    (UnpackedFloat.unpack Format.binary64 (UnpackedFloat.pack Format.binary64 f)).isNaN =
      false := by
  rw [Bool.eq_false_iff, ne_eq, isNaN_unpack_iff, not_and_not_right]
  fun_cases UnpackedFloat.pack with
  | case1 => cases h
  | case2 s => simp [packedInfinity]
  | case3 s => simp [packedZero]
  | case4 s m e hm biasedExponent hlarge => simp [packedInfinity]
  | case5 s m e hm actualMantissaBits biasedExponent hsmall hnormal =>
    rw [unpackExponent_packComponents]
    intro hones
    have htoNat : biasedExponent % 2 ^ 11 = 2047 := congrArg BitVec.toNat hones
    have hlt : ¬ 2 ^ 11 ≤ biasedExponent + 1 := hsmall
    omega
  | case6 s m e hm actualMantissaBits biasedExponent hsmall hsubnormal =>
    rw [unpackExponent_packComponents]
    intro hones
    exact absurd hones (by decide)

theorem isNaN_roundWithAccuracy (spec : Format) (s : Sign) (m : Nat) (e : Int) (a : Accuracy) :
    (roundWithAccuracy spec s m e a).isNaN = false := by
  unfold roundWithAccuracy
  dsimp only
  split <;> rfl

theorem isNaN_mul {f : UnpackedFloat} (h : f.isNaN = false) (spec : Format) (s : Sign) (m : Nat)
    (e : Int) (hm : 0 < m) : (UnpackedFloat.mul spec f (.finite s m e hm)).isNaN = false := by
  cases f with
  | notANumber => cases h
  | infinity s => rfl
  | zero s => rfl
  | finite s m e hm => exact isNaN_roundWithAccuracy _ _ _ _ _

theorem isNaN_div {f : UnpackedFloat} (h : f.isNaN = false) (spec : Format) (s : Sign) (m : Nat)
    (e : Int) (hm : 0 < m) : (UnpackedFloat.div spec f (.finite s m e hm)).isNaN = false := by
  cases f with
  | notANumber => cases h
  | infinity s => rfl
  | zero s => rfl
  | finite s m e hm => exact isNaN_roundWithAccuracy _ _ _ _ _

theorem isNaN_ofNat (spec : Format) (n : Nat) : (UnpackedFloat.ofNat spec n).isNaN = false := by
  unfold UnpackedFloat.ofNat UnpackedFloat.ofInt UnpackedFloat.normalize
  split
  · exact isNaN_roundWithAccuracy _ _ _ _ _
  · rfl
  · exact isNaN_roundWithAccuracy _ _ _ _ _

theorem isNaN_ofScientific (spec : Format) (m : Nat) (e : Int) :
    (UnpackedFloat.ofScientific spec m e).isNaN = false := by
  unfold UnpackedFloat.ofScientific
  split_ifs
  · rfl
  · rfl
  · rfl
  · exact isNaN_mul rfl _ _ _ _ _
  · exact isNaN_div rfl _ _ _ _ _

/-- A double other than zero that is finite. -/
def isRegular (x : Float) : Bool :=
  match x.toModel.unpack with
  | .finite _ _ _ _ => true
  | _ => false

theorem isRegular_powerOfTen :
    ∀ x ∈ Float.exactlyRepresentablePowersOfTen.toList, isRegular x = true := by
  decide +kernel

theorem isNaN_ofModel_pack {f : UnpackedFloat} (h : f.isNaN = false) :
    (Float.ofModel (Float.Model.pack f)).isNaN = false := isNaN_pack h

theorem isNaN_mul_regular {x y : Float} (hx : x.isNaN = false) (hy : isRegular y = true) :
    (x * y).isNaN = false := by
  refine isNaN_ofModel_pack ?_
  unfold isRegular at hy
  cases hunpack : y.toModel.unpack with
  | finite s m e hm => exact isNaN_mul hx _ _ _ _ _
  | _ => simp [hunpack] at hy

theorem isNaN_div_regular {x y : Float} (hx : x.isNaN = false) (hy : isRegular y = true) :
    (x / y).isNaN = false := by
  refine isNaN_ofModel_pack ?_
  unfold isRegular at hy
  cases hunpack : y.toModel.unpack with
  | finite s m e hm => exact isNaN_div hx _ _ _ _ _
  | _ => simp [hunpack] at hy

/-- A decimal is always read as a number. -/
theorem isNaN_ofDecimal (m : Nat) (e : Int) : (ofDecimal m e).isNaN = false := by
  have hwhole (n : UInt64) : n.toFloat.isNaN = false := isNaN_ofModel_pack (isNaN_ofNat _ _)
  unfold ofDecimal Float.ofScientific
  dsimp only
  split_ifs with hsmall hneg
  · exact isNaN_div_regular (hwhole _) (isRegular_powerOfTen _ (by simp))
  · exact isNaN_mul_regular (hwhole _) (isRegular_powerOfTen _ (by simp))
  all_goals exact isNaN_ofModel_pack (isNaN_ofScientific _ _ _)

end NaN

/-! ### Different doubles -/

theorem signed_inj {b c : Bool} {t u : Text} (ht : t.IsPositional) (hu : u.IsPositional)
    (h : signed b t = signed c u) : b = c ∧ t = u := by
  have hminus {v : Text} (hv : v.IsPositional) (w : Text) : byte '-' :: w ≠ v := by
    obtain ⟨⟨d, rest, rfl, hd⟩, -⟩ := hv
    intro heq
    obtain ⟨rfl, -⟩ := List.cons.inj heq
    exact absurd hd (by decide)
  cases b <;> cases c
  · exact ⟨rfl, h⟩
  · exact absurd h.symm (hminus ht u)
  · exact absurd h (hminus hu t)
  · exact ⟨rfl, (List.cons.inj h).2⟩

theorem infinite_eq (b : Bool) :
    infinite b = (if b then byte '-' else byte '+') :: byte 'I' :: Text.ofString "nf" := by
  cases b <;> decide

/-- A numeral is no word, with a sign or without. -/
theorem signed_ne_infinite {b c : Bool} {t : Text} (ht : t.IsPositional) :
    signed b t ≠ infinite c := by
  obtain ⟨⟨d, rest, rfl, hd⟩, -⟩ := ht
  rw [infinite_eq]
  intro h
  cases b with
  | true =>
    obtain ⟨-, htail⟩ := List.cons.inj h
    obtain ⟨rfl, -⟩ := List.cons.inj htail
    exact absurd hd (by decide)
  | false =>
    obtain ⟨rfl, -⟩ := List.cons.inj h
    cases c <;> exact absurd hd (by decide)

theorem signed_ne_nan {b : Bool} {t : Text} (ht : t.IsPositional) : signed b t ≠ "NaN" := by
  obtain ⟨⟨d, rest, rfl, hd⟩, -⟩ := ht
  rw [show Text.ofString "NaN" = byte 'N' :: Text.ofString "aN" by decide]
  intro h
  cases b with
  | true => exact absurd (List.cons.inj h).1 (by decide)
  | false =>
    obtain ⟨rfl, -⟩ := List.cons.inj h
    exact absurd hd (by decide)

theorem infinite_ne_nan (b : Bool) : infinite b ≠ "NaN" := by
  cases b <;> decide

theorem infinite_inj {b c : Bool} (h : infinite b = infinite c) : b = c := by
  rw [infinite_eq, infinite_eq] at h
  have hsign := (List.cons.inj h).1
  cases b <;> cases c <;> revert hsign <;> decide

/-- Different doubles are printed differently. -/
theorem printed_injective : Function.Injective printed := by
  intro x y h
  rw [printed_eq, printed_eq] at h
  split_ifs at h with hx hy hyinf hxinf hy hyinf hy hyinf
  · -- two finite doubles: the numeral rounds to both of them
    obtain ⟨hxshape, hxround⟩ := rounds_magnitude hx
    obtain ⟨hyshape, hyround⟩ := rounds_magnitude hy
    obtain ⟨hsign, hmagnitude⟩ := signed_inj hxshape hyshape h
    rw [hmagnitude] at hxround
    exact eq_of_index_eq (hxround.index_unique hyround) hsign
  · exact absurd h (signed_ne_infinite (rounds_magnitude hx).1)
  · exact absurd h (signed_ne_nan (rounds_magnitude hx).1)
  · exact absurd h.symm (signed_ne_infinite (rounds_magnitude hy).1)
  · exact eq_of_index_eq (hxinf.trans hyinf.symm) (infinite_inj h)
  · exact absurd h (infinite_ne_nan _)
  · exact absurd h.symm (signed_ne_nan (rounds_magnitude hy).1)
  · exact absurd h.symm (infinite_ne_nan _)
  · exact eq_of_isNaN ((isNaN_iff x).2 (by omega)) ((isNaN_iff y).2 (by omega))

/-- The bytes of printed numbers other than digits. -/
def marks : Text := ".-+Inf"

/-- A number is printed as digits and marks, a digit or a sign first. -/
theorem printed_shape {x : Float} (hx : x.isNaN = false) :
    (∃ b rest, printed x = b :: rest ∧ (isDigit b = true ∨ b = byte '-' ∨ b = byte '+')) ∧
      ∀ b ∈ printed x, isDigit b = true ∨ b ∈ marks := by
  have hindex : ¬ 2047 * Nat.pow 2 52 < index x := by
    rw [← isNaN_iff, hx]
    exact Bool.false_ne_true
  rw [printed_eq]
  split_ifs with hfinite hinfinite
  · obtain ⟨⟨⟨d, rest, heq, hd⟩, hbytes⟩, -⟩ := rounds_magnitude hfinite
    have hmarks : ∀ b ∈ magnitude x, isDigit b = true ∨ b ∈ marks := by
      intro b hb
      refine (hbytes b hb).imp_right ?_
      rintro rfl
      decide
    unfold signed
    split
    · exact ⟨⟨_, _, rfl, .inr (.inl rfl)⟩, List.forall_mem_cons.2 ⟨.inr (by decide), hmarks⟩⟩
    · exact ⟨⟨d, rest, heq, .inl hd⟩, hmarks⟩
  · have hmarks : ∀ c, (infinite c).all (fun b => decide (b ∈ marks)) = true := by decide
    refine ⟨?_, fun b hb => .inr (of_decide_eq_true (List.all_eq_true.1 (hmarks _) b hb))⟩
    rw [infinite_eq]
    refine ⟨_, _, rfl, ?_⟩
    cases isNegative x <;> simp
  · omega

end Number

end Lox
