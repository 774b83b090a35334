import Lox.Text.Basic

/-!
# Reading numbers

Two notations are read as doubles, both rounded to the nearest one. Numerals in source code are
digits with an optional fraction. Numbers on an input line are wider: a sign, an exponent, the
words for infinity and not-a-number, hexadecimal floating point with a binary exponent, and single
underscores between digits.

## Design notes

A hexadecimal number is `m · 2 ^ e`. Since `2 ^ (-e) = 5 ^ e · 10 ^ (-e)` it is an exact decimal,
so one correctly rounded decimal reader serves both notations.
-/

namespace Lox.Number

open Text (byte)

/-- Whether a byte is an ASCII decimal digit. -/
def isDigit (b : UInt8) : Bool := decide (0x30 ≤ b ∧ b ≤ 0x39)

/-- The double nearest to `m · 10 ^ e`. -/
def ofDecimal (m : Nat) (e : Int) : Float := Float.ofScientific m (e < 0) e.natAbs

/-- The double nearest to `m · 2 ^ e`. -/
def ofBinary (m : Nat) (e : Int) : Float :=
  if e < 0 then ofDecimal (m * Nat.pow 5 e.natAbs) e else ofDecimal (m * Nat.pow 2 e.natAbs) 0

/-- The double of a numeral with the given digits before and after the point, unless it is beyond
the largest one. -/
def ofNumeral? (whole fraction : Text) : Option Float :=
  let x := ofDecimal (whole ++ fraction).toNat (-fraction.length)
  if x.isInf then none else some x

/-- Why a text is not a number. -/
inductive Refusal where
  | malformed
  | outOfRange
  deriving DecidableEq, Repr

/-- A digit of the given base. -/
def digit? (base : Nat) (b : UInt8) : Option Nat :=
  let n := b.toNat
  if isDigit b then some (n - 48)
  else if base = 16 ∧ 0x61 ≤ n ∧ n ≤ 0x66 then some (n - 87)
  else if base = 16 ∧ 0x41 ≤ n ∧ n ≤ 0x46 then some (n - 55)
  else none

/-- The mantissa of a number: the value of its digits without the point, how many of them stand
after the point, whether a point and a digit were seen, and what follows. -/
structure Mantissa where
  value : Nat := 0
  places : Nat := 0
  point : Bool := false
  digits : Bool := false
  rest : Text

/-- Reads digits, underscores and at most one point. -/
def readMantissa (base : Nat) : Text → Mantissa → Mantissa
  | [], m => { m with rest := [] }
  | b :: t, m =>
    if b = byte '_' then readMantissa base t m
    else if b = byte '.' then
      if m.point then { m with rest := b :: t } else readMantissa base t { m with point := true }
    else match digit? base b with
      | some d =>
        readMantissa base t
          { m with
            value := base * m.value + d
            places := if m.point then m.places + 1 else m.places
            digits := true }
      | none => { m with rest := b :: t }

/-- The value of an exponent's digits, underscores skipped, which stops growing at five digits,
and what follows them. -/
def readExponentDigits : Text → Nat → Nat × Text
  | [], e => (e, [])
  | b :: t, e =>
    if b = byte '_' then readExponentDigits t e
    else if isDigit b then
      readExponentDigits t (if e < 10000 then 10 * e + (b.toNat - 48) else e)
    else (e, b :: t)

/-- A signed exponent, which needs at least one digit. -/
def readExponent? (t : Text) : Option (Int × Text) :=
  let (negative, t) := match t with
    | b :: t' => if b = byte '-' then (true, t') else if b = byte '+' then (false, t') else (false, t)
    | [] => (false, t)
  match t with
  | [] => none
  | b :: _ =>
    if isDigit b then
      let (e, rest) := readExponentDigits t 0
      some (if negative then -(e : Int) else e, rest)
    else none

/-- What an underscore may follow or precede: the last byte was a digit, an underscore or
neither. -/
inductive Neighbour where
  | digit
  | underscore
  | other

/-- Whether every underscore stands between two digits, after `before`. -/
def underscoresSeparate (hex : Bool) : Neighbour → Text → Bool
  | .underscore, [] => false
  | _, [] => true
  | before, b :: t =>
    if (digit? (if hex then 16 else 10) b).isSome then underscoresSeparate hex .digit t
    else if b = byte '_' then
      match before with
      | .digit => underscoresSeparate hex .underscore t
      | _ => false
    else match before with
      | .underscore => false
      | _ => underscoresSeparate hex .other t

/-- Whether the underscores of an unsigned number are well placed. A base mark counts as a digit
before them. -/
def underscoresOk (t : Text) : Bool :=
  match t with
  | a :: b :: rest =>
    let mark := Text.lower [b]
    if a = byte '0' ∧ (mark = "x" ∨ mark = "o" ∨ mark = "b") then
      underscoresSeparate (mark = "x") .digit rest
    else underscoresSeparate false .other t
  | _ => underscoresSeparate false .other t

/-- The magnitude written by an unsigned number. -/
def magnitude? (t : Text) : Option Float :=
  let (base, body) : Nat × Text := match t with
    | a :: b :: c :: rest =>
      if a = byte '0' ∧ Text.lower [b] = "x" then (16, c :: rest) else (10, t)
    | _ => (10, t)
  let m := readMantissa base body { rest := body }
  let exponent? : Option (Int × Text) := match m.rest with
    | b :: rest =>
      if Text.lower [b] = (if base = 16 then "p" else "e") then readExponent? rest
      else if base = 16 then none else some (0, m.rest)
    | [] => if base = 16 then none else some (0, [])
  match exponent? with
  | some (e, []) =>
    if m.digits ∧ (t.all (· ≠ byte '_') ∨ underscoresOk t) then
      if base = 16 then some (ofBinary m.value (e - 4 * m.places))
      else some (ofDecimal m.value (e - m.places))
    else none
  | _ => none

/-- The double written on an input line that has been trimmed. -/
def ofInput (t : Text) : Except Refusal Float :=
  let (signed, negative, body) : Bool × Bool × Text := match t with
    | b :: t' =>
      if b = byte '-' then (true, true, t') else if b = byte '+' then (true, false, t')
      else (false, false, t)
    | [] => (false, false, t)
  let sign (x : Float) : Float := if negative then -x else x
  let word := Text.lower body
  if word = "inf" ∨ word = "infinity" then .ok (sign (1.0 / 0.0))
  else if ¬signed ∧ word = "nan" then .ok (0.0 / 0.0)
  else match magnitude? body with
    | some x => if x.isInf then .error .outOfRange else .ok (sign x)
    | none => .error .malformed

end Lox.Number
