/-!
# Shortest decimals

The decimal with the fewest digits that reads back as a given finite double.

A double is `m · 2 ^ q`. The reals that round to it form an interval around it: its ends lie
halfway to the neighbouring doubles and belong to it when `m` is even. The shortest decimal is a
multiple of the largest power of ten that has a multiple in the interval, and of those multiples
the one nearest to the double; of two equally near ones the even one.

## Design notes

All comparisons are exact. The interval is kept in quarters of `2 ^ q`, so its ends are integers;
a comparison with a power of ten multiplies out the denominators first.
-/

namespace Lox

/-- The number `digits · 10 ^ exponent`. -/
structure Decimal where
  digits : Nat
  exponent : Int
  deriving DecidableEq, Repr

/-- The number `quarters / 4 · 2 ^ power` with the interval of reals that round to it:
from `low` to `high` quarters, ends included when `closed`. -/
structure Binary where
  low : Nat
  quarters : Nat
  high : Nat
  closed : Bool
  power : Int

namespace Binary

/-- The double with the given biased exponent and fraction bits. A fraction of zero means a power
of two, whose lower neighbour is only half as far away as its upper one. -/
def ofFields (exponent fraction : Nat) : Binary :=
  let m := if exponent = 0 then fraction else Nat.pow 2 52 + fraction
  { low := if fraction = 0 ∧ 1 < exponent then 4 * m - 1 else 4 * m - 2
    quarters := 4 * m
    high := 4 * m + 2
    closed := m % 2 = 0
    power := (max exponent 1 : Nat) - 1075 }

/-- The factor that turns quarters into multiples of the common denominator with `10 ^ k`. -/
def scale (b : Binary) (k : Int) : Nat := Nat.pow 2 (b.power - 2).toNat * Nat.pow 10 (-k).toNat

/-- `10 ^ k` in multiples of the same denominator. -/
def unit (b : Binary) (k : Int) : Nat := Nat.pow 2 (2 - b.power).toNat * Nat.pow 10 k.toNat

/-- Whether `d · 10 ^ k` rounds to the double. -/
def contains (b : Binary) (k : Int) (d : Nat) : Bool :=
  let x := d * b.unit k
  let lo := b.low * b.scale k
  let hi := b.high * b.scale k
  if b.closed then decide (lo ≤ x ∧ x ≤ hi) else decide (lo < x ∧ x < hi)

/-- The multiple of `10 ^ k` in the interval that is nearest to the double, if there is one. -/
def nearest? (b : Binary) (k : Int) : Option Nat :=
  let v := b.quarters * b.scale k
  let u := b.unit k
  let d := v / u
  let below := v - d * u
  let above := u - below
  let up := above < below ∨ (above = below ∧ d % 2 = 1)
  if up ∧ b.contains k (d + 1) then some (d + 1)
  else if b.contains k d then some d
  else if b.contains k (d + 1) then some (d + 1)
  else none

/-- The shortest decimal among the multiples of `10 ^ k`, `10 ^ (k - 1)`, … -/
def search (b : Binary) : (steps : Nat) → (k : Int) → Decimal
  | 0, k => ⟨b.quarters * b.scale k / b.unit k, k⟩
  | steps + 1, k =>
    match b.nearest? k with
    | some d => ⟨d, k⟩
    | none => search b steps (k - 1)

/-- A power of ten above the number: its binary logarithm times a little more than `log10 2`. -/
def startPower (b : Binary) : Int :=
  ((b.high.log2 + 1 : Nat) + b.power - 2) * 30103 / 100000 + 1

/-- The shortest decimal that rounds to the double. Seventeen digits always do, and the search
starts at most two places above the first of them. -/
def shortest (b : Binary) : Decimal := b.search 20 b.startPower

end Binary

end Lox
