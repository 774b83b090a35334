import Lox.Number.Shortest
import Lox.Text.Basic

/-!
# Number text

How doubles are written: the shortest decimal that reads back, laid out in positional notation or
with an exponent. Programs print numbers in positional notation throughout; the description of a
token turns to an exponent for large and small ones.
-/

namespace Lox

/-- A way to write numbers: `positional e` says whether a number with its first digit at `10 ^ e`
is written without an exponent. -/
structure Layout where
  positional : Int → Bool

namespace Decimal

/-- `digits` with a decimal point after the first `point` of them; zeros fill the gap on either
side. -/
def positional (digits : Text) (point : Int) : Text :=
  let zero := Text.byte '0'
  if point ≤ 0 then
    zero :: Text.byte '.' :: List.replicate (-point).toNat zero ++ digits
  else if digits.length ≤ point then
    digits ++ List.replicate (point.toNat - digits.length) zero
  else
    digits.take point.toNat ++ Text.byte '.' :: digits.drop point.toNat

/-- One digit, the others after a point, and the exponent with its sign and two digits or more. -/
def scientific (digits : Text) (exponent : Int) : Text :=
  let fraction := if digits.length ≤ 1 then [] else Text.byte '.' :: digits.drop 1
  let sign := if exponent < 0 then '-' else '+'
  let magnitude := Text.ofNat exponent.natAbs
  let padding := List.replicate (2 - magnitude.length) (Text.byte '0')
  digits.take 1 ++ fraction ++ Text.byte 'e' :: Text.byte sign :: padding ++ magnitude

/-- A decimal in a layout. -/
def text (layout : Layout) (d : Decimal) : Text :=
  let digits := Text.ofNat d.digits
  let point := digits.length + d.exponent
  if layout.positional (point - 1) then positional digits point else scientific digits (point - 1)

end Decimal

namespace Number

/-- A double in a layout. Zero keeps its sign; infinities are signed. -/
def text (layout : Layout) (x : Float) : Text :=
  let bits := x.toBits.toNat
  let exponent := bits / Nat.pow 2 52 % Nat.pow 2 11
  let fraction := bits % Nat.pow 2 52
  let negative := Nat.pow 2 63 ≤ bits
  if exponent = 2047 then
    if fraction ≠ 0 then "NaN" else if negative then "-Inf" else "+Inf"
  else
    let magnitude : Text :=
      if exponent = 0 ∧ fraction = 0 then "0"
      else (Binary.ofFields exponent fraction).shortest.text layout
    if negative then Text.byte '-' :: magnitude else magnitude

/-- Positional notation for every exponent. -/
def printedLayout : Layout := ⟨fun _ => true⟩

/-- Exponents from -4 to 5 are positional. -/
def describedLayout : Layout := ⟨fun e => decide (-4 ≤ e ∧ e < 6)⟩

/-- A number as a program prints it. -/
def printed (x : Float) : Text := text printedLayout x

/-- A number as a token description shows it. -/
def described (x : Float) : Text := text describedLayout x

end Number

end Lox
