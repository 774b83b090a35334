/-!
# Remainder of doubles

The remainder of a division truncated toward zero, computed without rounding: it has the sign of
the dividend, and its magnitude is the remainder of the magnitudes as multiples of a common power
of two.
-/

namespace Lox.Number

/-- A finite double's magnitude as `m · 2 ^ (e - 1075)`. -/
def fields (x : Float) : Nat × Nat :=
  let bits := x.toBits.toNat
  let exponent := bits / Nat.pow 2 52 % Nat.pow 2 11
  let fraction := bits % Nat.pow 2 52
  if exponent = 0 then (fraction, 1) else (Nat.pow 2 52 + fraction, exponent)

/-- The double `m · 2 ^ (e - 1075)`, for an `m` below `2 ^ 53` and an exponent at which it fits. -/
def ofFields (negative : Bool) (m e : Nat) : Float :=
  let bits := if m < Nat.pow 2 52 then m else (e - 1) * Nat.pow 2 52 + m
  Float.ofBits ((if negative then Nat.pow 2 63 + bits else bits).toUInt64)

/-- Shifts `m` left until it has 53 bits or the exponent has reached its least value. -/
def normalize : (fuel m e : Nat) → Nat × Nat
  | 0, m, e => (m, e)
  | fuel + 1, m, e => if Nat.pow 2 52 ≤ m ∨ e ≤ 1 then (m, e) else normalize fuel (2 * m) (e - 1)

/-- The remainder of `x` divided by `y`, truncated toward zero. In units of the smaller exponent it
is less than one of the two mantissas, so it needs no rounding. It is not a number when `x` is
infinite, when `y` is zero or when either is not a number; it is `x` when `y` is infinite. -/
def remainder (x y : Float) : Float :=
  if x.isNaN ∨ y.isNaN ∨ x.isInf ∨ y == 0 then 0.0 / 0.0
  else if y.isInf then x
  else
    let (mx, ex) := fields x
    let (my, ey) := fields y
    let e := min ex ey
    let r := (mx * Nat.pow 2 (ex - e)) % (my * Nat.pow 2 (ey - e))
    let (m, k) := normalize 53 r e
    ofFields (decide (Nat.pow 2 63 ≤ x.toBits.toNat)) m k

end Lox.Number
