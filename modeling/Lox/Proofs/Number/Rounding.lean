import Mathlib
import Lox.Number.Shortest

/-!
# Rounding intervals

The doubles of one sign can be numbered in ascending order, and the numbers that round to them form
intervals that follow each other without a gap: where one ends the next begins. Of two neighbours
one has an even last bit, and the end that they share belongs to that one. So every number rounds to
one double only, and a decimal that rounds to a double tells which one it is. The shortest decimal
is found in time, so it is such a decimal.
-/

namespace Lox

/-- The number `digits · 10 ^ exponent`. -/
def Decimal.value (d : Decimal) : ℚ := d.digits * 10 ^ d.exponent

/-- A power with an integer exponent as a quotient of two powers, one of which is trivial. -/
theorem zpow_mul_toNat_neg {a : ℚ} (ha : a ≠ 0) (n : ℤ) : a ^ n * a ^ (-n).toNat = a ^ n.toNat := by
  obtain ⟨m, rfl | rfl⟩ := n.eq_nat_or_neg
  · simp
  · simp [ha]

namespace Binary

/-- The lower end of the interval. -/
def lower (b : Binary) : ℚ := b.low * 2 ^ (b.power - 2)

/-- The upper end of the interval. -/
def upper (b : Binary) : ℚ := b.high * 2 ^ (b.power - 2)

/-- A number lies in the interval that rounds to the double. -/
def Rounds (b : Binary) (v : ℚ) : Prop :=
  if b.closed then b.lower ≤ v ∧ v ≤ b.upper else b.lower < v ∧ v < b.upper

theorem Rounds.lower_le {b : Binary} {v : ℚ} (h : b.Rounds v) : b.lower ≤ v := by
  unfold Rounds at h
  split at h
  · exact h.1
  · exact h.1.le

theorem Rounds.le_upper {b : Binary} {v : ℚ} (h : b.Rounds v) : v ≤ b.upper := by
  unfold Rounds at h
  split at h
  · exact h.2
  · exact h.2.le

/-- An end that rounds to the double belongs to a closed interval. -/
theorem Rounds.closed_of_lower {b : Binary} (h : b.Rounds b.lower) : b.closed = true := by
  by_contra hopen
  rw [Rounds, if_neg hopen] at h
  exact lt_irrefl _ h.1

theorem Rounds.closed_of_upper {b : Binary} (h : b.Rounds b.upper) : b.closed = true := by
  by_contra hopen
  rw [Rounds, if_neg hopen] at h
  exact lt_irrefl _ h.2

/-! ### Comparisons without denominators -/

theorem scale_pos (b : Binary) (k : Int) : 0 < b.scale k := by
  simp [scale]

theorem unit_pos (b : Binary) (k : Int) : 0 < b.unit k := by
  simp [unit]

/-- What `10 ^ k` and a quarter become when their common denominator is multiplied out. -/
theorem unit_mul_quarter (b : Binary) (k : Int) :
    (b.unit k : ℚ) * 2 ^ (b.power - 2) = 10 ^ k * b.scale k := by
  have htwo := zpow_mul_toNat_neg (two_ne_zero (α := ℚ)) (b.power - 2)
  have hten := zpow_mul_toNat_neg (show (10 : ℚ) ≠ 0 by norm_num) k
  rw [neg_sub] at htwo
  simp only [unit, scale, Nat.pow_eq, Nat.cast_mul, Nat.cast_pow, Nat.cast_ofNat]
  rw [← htwo, ← hten]
  ring

theorem digits_mul_quarter (b : Binary) (k : Int) (d : Nat) :
    ((d * b.unit k : Nat) : ℚ) * 2 ^ (b.power - 2) = Decimal.value ⟨d, k⟩ * b.scale k := by
  rw [Nat.cast_mul, mul_assoc, unit_mul_quarter, Decimal.value, mul_assoc]

theorem scale_le_unit_iff (b : Binary) (k : Int) (n d : Nat) :
    n * b.scale k ≤ d * b.unit k ↔ (n : ℚ) * 2 ^ (b.power - 2) ≤ Decimal.value ⟨d, k⟩ := by
  have hscale : (0 : ℚ) < b.scale k := by exact_mod_cast b.scale_pos k
  have hquarter : (0 : ℚ) < 2 ^ (b.power - 2) := by positivity
  rw [← Nat.cast_le (α := ℚ), ← mul_le_mul_iff_left₀ hquarter, digits_mul_quarter, Nat.cast_mul,
    mul_right_comm, mul_le_mul_iff_left₀ hscale]

theorem unit_le_scale_iff (b : Binary) (k : Int) (n d : Nat) :
    d * b.unit k ≤ n * b.scale k ↔ Decimal.value ⟨d, k⟩ ≤ (n : ℚ) * 2 ^ (b.power - 2) := by
  have hscale : (0 : ℚ) < b.scale k := by exact_mod_cast b.scale_pos k
  have hquarter : (0 : ℚ) < 2 ^ (b.power - 2) := by positivity
  rw [← Nat.cast_le (α := ℚ), ← mul_le_mul_iff_left₀ hquarter, digits_mul_quarter, Nat.cast_mul,
    mul_right_comm, mul_le_mul_iff_left₀ hscale]

theorem contains_iff {b : Binary} {k : Int} {d : Nat} :
    b.contains k d = true ↔ b.Rounds (Decimal.value ⟨d, k⟩) := by
  unfold contains Rounds
  dsimp only
  split
  · rw [decide_eq_true_eq, scale_le_unit_iff, unit_le_scale_iff, lower, upper]
  · rw [decide_eq_true_eq, ← not_le, ← not_le, scale_le_unit_iff, unit_le_scale_iff, not_le, not_le,
      lower, upper]

/-! ### Neighbours -/

/-- The positive double with the given number among those of one sign, in ascending order. The
number holds the exponent above the fraction. -/
def ofIndex (n : Nat) : Binary := ofFields (n / Nat.pow 2 52) (n % Nat.pow 2 52)

/-- The fraction of a double with the bit in front of it, if there is one. -/
def significand (exponent fraction : Nat) : Nat :=
  if exponent = 0 then fraction else Nat.pow 2 52 + fraction

theorem ofFields_high (exponent fraction : Nat) :
    (ofFields exponent fraction).high = 4 * significand exponent fraction + 2 := rfl

theorem ofFields_closed (exponent fraction : Nat) :
    (ofFields exponent fraction).closed = decide (significand exponent fraction % 2 = 0) := rfl

theorem ofFields_power (exponent fraction : Nat) :
    (ofFields exponent fraction).power = (max exponent 1 : Nat) - 1075 := rfl

theorem ofFields_low (exponent fraction : Nat) : (ofFields exponent fraction).low =
    if fraction = 0 ∧ 1 < exponent then 4 * significand exponent fraction - 1
    else 4 * significand exponent fraction - 2 := rfl

theorem high_eq_quarters (exponent fraction : Nat) :
    (ofFields exponent fraction).high = (ofFields exponent fraction).quarters + 2 := rfl

theorem low_le_quarters (exponent fraction : Nat) :
    (ofFields exponent fraction).low ≤ (ofFields exponent fraction).quarters := by
  show _ ≤ 4 * significand exponent fraction
  rw [ofFields_low]
  split <;> omega

theorem low_lt_high (exponent fraction : Nat) :
    (ofFields exponent fraction).low < (ofFields exponent fraction).high := by
  have hlow := low_le_quarters exponent fraction
  rw [high_eq_quarters]
  omega

theorem lower_lt_upper (n : Nat) : (ofIndex n).lower < (ofIndex n).upper := by
  have hlt : ((ofIndex n).low : ℚ) < (ofIndex n).high := by exact_mod_cast low_lt_high _ _
  exact mul_lt_mul_of_pos_right hlt (by positivity)

/-- The exponent and the fraction of the next double: a carry goes from the fraction into the
exponent. -/
theorem ofIndex_succ (n : Nat) : ofIndex (n + 1) =
    if n % Nat.pow 2 52 + 1 < Nat.pow 2 52 then
      ofFields (n / Nat.pow 2 52) (n % Nat.pow 2 52 + 1)
    else ofFields (n / Nat.pow 2 52 + 1) 0 := by
  have hdiv := Nat.div_add_mod n (Nat.pow 2 52)
  have hmod := Nat.mod_lt n (show 0 < Nat.pow 2 52 by decide)
  unfold ofIndex
  simp only [Nat.pow_eq] at *
  norm_num at *
  split
  · congr 1 <;> omega
  · congr 1 <;> omega

theorem significand_succ (exponent fraction : Nat) :
    significand exponent (fraction + 1) = significand exponent fraction + 1 := by
  unfold significand
  split <;> omega

theorem upper_ofFields (exponent fraction : Nat) :
    (ofFields exponent fraction).upper = (ofFields exponent (fraction + 1)).lower := by
  have hhigh : (ofFields exponent fraction).high = (ofFields exponent (fraction + 1)).low := by
    rw [ofFields_high, ofFields_low, if_neg (by omega), significand_succ]
    omega
  rw [upper, lower, hhigh, ofFields_power, ofFields_power]

/-- Above the last fraction of an exponent the steps are twice as long, unless the exponent is the
least one. -/
theorem upper_ofFields_carry (exponent : Nat) :
    (ofFields exponent (Nat.pow 2 52 - 1)).upper = (ofFields (exponent + 1) 0).lower := by
  rw [upper, lower, ofFields_power, ofFields_power, ofFields_high, ofFields_low]
  rcases Nat.eq_zero_or_pos exponent with rfl | hpos
  · norm_num [significand]
  · have hmax : max exponent 1 = exponent := by omega
    have hmax' : max (exponent + 1) 1 = exponent + 1 := by omega
    rw [if_pos ⟨rfl, by omega⟩, hmax, hmax']
    have hpower : ((exponent + 1 : Nat) : ℤ) - 1075 - 2 = (exponent - 1075 - 2) + 1 := by
      push_cast
      ring
    rw [hpower, zpow_add_one₀ two_ne_zero, significand, significand, if_neg (by omega),
      if_neg (by omega)]
    norm_num
    ring

theorem closed_ofFields (exponent fraction : Nat) :
    (ofFields exponent (fraction + 1)).closed = !(ofFields exponent fraction).closed := by
  rw [ofFields_closed, ofFields_closed, significand_succ, ← decide_not, decide_eq_decide]
  omega

theorem closed_ofFields_carry (exponent : Nat) :
    (ofFields (exponent + 1) 0).closed = !(ofFields exponent (Nat.pow 2 52 - 1)).closed := by
  rw [ofFields_closed, ofFields_closed, significand, if_neg (by omega), significand]
  split <;> decide

/-- An interval ends where the next one begins. -/
theorem upper_ofIndex (n : Nat) : (ofIndex n).upper = (ofIndex (n + 1)).lower := by
  have hmod := Nat.mod_lt n (show 0 < Nat.pow 2 52 by decide)
  rw [ofIndex_succ, ofIndex]
  split
  · exact upper_ofFields _ _
  · rw [show n % Nat.pow 2 52 = Nat.pow 2 52 - 1 by omega]
    exact upper_ofFields_carry _

/-- Of two neighbours one has an even significand. -/
theorem closed_ofIndex (n : Nat) : (ofIndex (n + 1)).closed = !(ofIndex n).closed := by
  have hmod := Nat.mod_lt n (show 0 < Nat.pow 2 52 by decide)
  rw [ofIndex_succ, ofIndex]
  split
  · exact closed_ofFields _ _
  · rw [show n % Nat.pow 2 52 = Nat.pow 2 52 - 1 by omega]
    exact closed_ofFields_carry _

theorem upper_le_lower {m n : Nat} (h : m < n) : (ofIndex m).upper ≤ (ofIndex n).lower := by
  induction n, h using Nat.le_induction with
  | base => exact (upper_ofIndex m).le
  | succ n _ ih =>
    calc (ofIndex m).upper
      _ ≤ (ofIndex n).lower := ih
      _ ≤ (ofIndex n).upper := (lower_lt_upper n).le
      _ = (ofIndex (n + 1)).lower := upper_ofIndex n

/-- No number rounds to a double and to a greater one. -/
theorem Rounds.not_lt {m n : Nat} {v : ℚ} (hm : (ofIndex m).Rounds v) (hn : (ofIndex n).Rounds v) :
    ¬ m < n := by
  intro hlt
  -- the number is where the first interval ends and the other begins
  have hupper : v = (ofIndex m).upper :=
    le_antisymm hm.le_upper ((upper_le_lower hlt).trans hn.lower_le)
  have hlower : v = (ofIndex n).lower :=
    le_antisymm (hm.le_upper.trans (upper_le_lower hlt)) hn.lower_le
  have hmclosed := Rounds.closed_of_upper (hupper ▸ hm)
  have hnclosed := Rounds.closed_of_lower (hlower ▸ hn)
  rcases Nat.lt_or_ge (m + 1) n with hgap | hnext
  · have hbetween : (ofIndex m).upper < (ofIndex n).lower :=
      calc (ofIndex m).upper
        _ = (ofIndex (m + 1)).lower := upper_ofIndex m
        _ < (ofIndex (m + 1)).upper := lower_lt_upper (m + 1)
        _ ≤ (ofIndex n).lower := upper_le_lower hgap
    exact hbetween.ne (hupper.symm.trans hlower)
  · obtain rfl : n = m + 1 := by omega
    rw [closed_ofIndex, hmclosed] at hnclosed
    exact absurd hnclosed (by decide)

/-- A number rounds to one double only. -/
theorem Rounds.index_unique {m n : Nat} {v : ℚ} (hm : (ofIndex m).Rounds v)
    (hn : (ofIndex n).Rounds v) : m = n := by
  have hmn := hm.not_lt hn
  have hnm := hn.not_lt hm
  omega

/-! ### The search for the shortest decimal -/

section Search

variable {b : Binary} {k : Int}

theorem contains_of_nearest? {d : Nat} (h : b.nearest? k = some d) : b.contains k d = true := by
  unfold nearest? at h
  dsimp only at h
  split_ifs at h with hup hdown hnext
  · exact Option.some.inj h ▸ hup.2
  · exact Option.some.inj h ▸ hdown
  · exact Option.some.inj h ▸ hnext

/-- Multiples of a power of ten that is shorter than the upper half of the interval cannot miss
it. -/
theorem nearest?_ne_none (hlow : b.low ≤ b.quarters) (hhigh : b.high = b.quarters + 2)
    (h : b.unit k < 2 * b.scale k) : b.nearest? k ≠ none := by
  have hnext : b.contains k (b.quarters * b.scale k / b.unit k + 1) = true := by
    have hdiv := Nat.div_add_mod (b.quarters * b.scale k) (b.unit k)
    have hmod := Nat.mod_lt (b.quarters * b.scale k) (b.unit_pos k)
    have hbelow : b.low * b.scale k ≤ b.quarters * b.scale k := Nat.mul_le_mul_right _ hlow
    have habove : b.high * b.scale k = b.quarters * b.scale k + 2 * b.scale k := by
      rw [hhigh, Nat.add_mul]
    have hmul : (b.quarters * b.scale k / b.unit k + 1) * b.unit k =
        b.unit k * (b.quarters * b.scale k / b.unit k) + b.unit k := by ring
    unfold contains
    dsimp only
    split <;> rw [decide_eq_true_eq] <;> omega
  unfold nearest?
  dsimp only
  split_ifs
  all_goals simp

/-- The search ends with a decimal in the interval if there is one among those it tries. -/
theorem rounds_search {steps : Nat} (h : ∃ i : Nat, i < steps ∧ b.nearest? (k - i) ≠ none) :
    b.Rounds (b.search steps k).value := by
  induction steps generalizing k with
  | zero =>
    obtain ⟨i, hi, -⟩ := h
    omega
  | succ steps ih =>
    rw [search]
    cases hfound : b.nearest? k with
    | some d => exact contains_iff.1 (contains_of_nearest? hfound)
    | none =>
      apply ih
      obtain ⟨i, hi, hne⟩ := h
      cases i with
      | zero => simp [hfound] at hne
      | succ i =>
        refine ⟨i, by omega, ?_⟩
        rwa [show k - 1 - (i : ℤ) = k - ((i + 1 : Nat) : ℤ) by push_cast; ring]

end Search

/-! ### Powers of ten and powers of two -/

theorem two_pow_lt_ten_pow {m n : Nat} (h : 13 * m < 43 * n) : 2 ^ m < 10 ^ n := by
  refine lt_of_pow_lt_pow_left₀ 13 (Nat.zero_le _) ?_
  calc (2 ^ m) ^ 13
    _ = 2 ^ (13 * m) := by rw [← pow_mul, Nat.mul_comm]
    _ < 2 ^ (43 * n) := Nat.pow_lt_pow_right (by decide) h
    _ = (2 ^ 43) ^ n := pow_mul _ _ _
    _ ≤ (10 ^ 13) ^ n := Nat.pow_le_pow_left (by norm_num) n
    _ = (10 ^ n) ^ 13 := pow_right_comm _ _ _

theorem ten_pow_lt_two_pow {m n : Nat} (h : 10 * m < 3 * n) : 10 ^ m < 2 ^ n := by
  refine lt_of_pow_lt_pow_left₀ 3 (Nat.zero_le _) ?_
  calc (10 ^ m) ^ 3
    _ = (10 ^ 3) ^ m := pow_right_comm _ _ _
    _ ≤ (2 ^ 10) ^ m := Nat.pow_le_pow_left (by norm_num) m
    _ = 2 ^ (10 * m) := (pow_mul _ _ _).symm
    _ < 2 ^ (3 * n) := Nat.pow_lt_pow_right (by decide) h
    _ = (2 ^ n) ^ 3 := by rw [← pow_mul, Nat.mul_comm]

/-- Eighteen places below the first digit of the largest number with a given last bit, a power of
ten is less than half of that bit. -/
theorem ten_zpow_lt_two_zpow {k p : ℤ} (hlow : -1074 ≤ p) (hhigh : p ≤ 971)
    (h : 100000 * (k + 18) ≤ (53 + p) * 30103) : (10 : ℚ) ^ k < 2 ^ (p - 1) := by
  rcases le_or_gt 0 k with hk | hk
  · obtain ⟨m, rfl⟩ := Int.eq_ofNat_of_zero_le hk
    obtain ⟨n, hn⟩ := Int.eq_ofNat_of_zero_le (show 0 ≤ p - 1 by omega)
    rw [hn, zpow_natCast, zpow_natCast]
    exact_mod_cast ten_pow_lt_two_pow (m := m) (n := n) (by omega)
  · obtain ⟨m, hm⟩ := Int.eq_ofNat_of_zero_le (show 0 ≤ -k by omega)
    obtain ⟨n, hn⟩ : ∃ n : Nat, n = (1 - p).toNat := ⟨_, rfl⟩
    have hpow : (2 : ℚ) ^ n < 10 ^ m := by
      exact_mod_cast two_pow_lt_ten_pow (m := n) (n := m) (by omega)
    calc (10 : ℚ) ^ k
      _ = (10 ^ m)⁻¹ := by rw [← zpow_natCast, ← zpow_neg, ← hm, neg_neg]
      _ < (2 ^ n)⁻¹ := inv_strictAnti₀ (by positivity) hpow
      _ = 2 ^ (-(n : ℤ)) := by rw [zpow_neg, zpow_natCast]
      _ ≤ 2 ^ (p - 1) := zpow_le_zpow_right₀ (by norm_num) (by omega)

/-! ### The shortest decimal -/

theorem high_lt (n : Nat) : (ofIndex n).high < 2 ^ 55 := by
  have hmod := Nat.mod_lt n (show 0 < Nat.pow 2 52 by decide)
  rw [ofIndex, ofFields_high, significand]
  simp only [Nat.pow_eq] at *
  split <;> omega

theorem power_bounds {n : Nat} (hn : n < 2047 * Nat.pow 2 52) :
    -1074 ≤ (ofIndex n).power ∧ (ofIndex n).power ≤ 971 := by
  have hdiv : n / Nat.pow 2 52 < 2047 := (Nat.div_lt_iff_lt_mul (by decide)).2 hn
  rw [ofIndex, ofFields_power]
  omega

/-- The last place that the search tries is fine enough. -/
theorem unit_lt_of_finite {n : Nat} (hn : n < 2047 * Nat.pow 2 52) :
    (ofIndex n).unit ((ofIndex n).startPower - 19) <
      2 * (ofIndex n).scale ((ofIndex n).startPower - 19) := by
  obtain ⟨hlow, hhigh⟩ := power_bounds hn
  have hlog : (ofIndex n).high.log2 < 55 :=
    (Nat.log2_lt (by simp [ofIndex, ofFields])).2 (high_lt n)
  have hstart : 100000 * ((ofIndex n).startPower - 19 + 18) ≤ (53 + (ofIndex n).power) * 30103 := by
    unfold startPower
    omega
  generalize ofIndex n = b at *
  have hpower := ten_zpow_lt_two_zpow hlow hhigh hstart
  generalize b.startPower - 19 = k at *
  have hscale : (0 : ℚ) < b.scale k := by exact_mod_cast b.scale_pos k
  have hquarter : (0 : ℚ) < 2 ^ (b.power - 2) := by positivity
  have hlt : (b.unit k : ℚ) * 2 ^ (b.power - 2) < (2 * b.scale k : Nat) * 2 ^ (b.power - 2) :=
    calc (b.unit k : ℚ) * 2 ^ (b.power - 2)
      _ = 10 ^ k * b.scale k := unit_mul_quarter b k
      _ < 2 ^ (b.power - 1) * b.scale k := mul_lt_mul_of_pos_right hpower hscale
      _ = 2 ^ (b.power - 2 + 1) * b.scale k := by rw [show b.power - 1 = b.power - 2 + 1 by ring]
      _ = (2 * b.scale k : Nat) * 2 ^ (b.power - 2) := by
        rw [zpow_add_one₀ two_ne_zero]
        push_cast
        ring
  exact_mod_cast lt_of_mul_lt_mul_right hlt hquarter.le

/-- The shortest decimal of a finite double rounds to it. -/
theorem rounds_shortest {n : Nat} (hn : n < 2047 * Nat.pow 2 52) :
    (ofIndex n).Rounds (ofIndex n).shortest.value := by
  have hlow := low_le_quarters (n / Nat.pow 2 52) (n % Nat.pow 2 52)
  have hhigh := high_eq_quarters (n / Nat.pow 2 52) (n % Nat.pow 2 52)
  have hunit := unit_lt_of_finite hn
  rw [← ofIndex] at hlow hhigh
  generalize ofIndex n = b at *
  have hfound := nearest?_ne_none hlow hhigh hunit
  rw [shortest]
  exact rounds_search ⟨19, by decide, hfound⟩

theorem rounds_zero : (ofIndex 0).Rounds 0 := by
  have hlow : (ofIndex 0).low = 0 := by decide
  have hlower : (ofIndex 0).lower = 0 := by rw [lower, hlow, Nat.cast_zero, zero_mul]
  have hupper : 0 ≤ (ofIndex 0).upper := by
    unfold upper
    positivity
  rw [Rounds, if_pos (by decide)]
  exact ⟨hlower.le, hupper⟩

end Binary

end Lox
