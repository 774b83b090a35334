import Lox.Number.Read
import Lox.Yaml.Fault

/-!
# What a scalar stands for

The spelling of a plain scalar makes it a null, a truth value, a number or a time; any other is a
text. A tag can ask for one of them, and it is a fault if the spelling is that of another.
-/

namespace Lox.Yaml

/-- What a scalar stands for. -/
inductive Meaning where
  | null
  | bool (b : Bool)
  | int (i : Int)
  | float (x : Float)
  | time
  | text (t : Text)

namespace Tag

/-! ### Tags of the kinds that are known -/

def null : Text := "!!null"
def bool : Text := "!!bool"
def int : Text := "!!int"
def float : Text := "!!float"
def time : Text := "!!timestamp"
def text : Text := "!!str"
def binary : Text := "!!binary"
def merge : Text := "!!merge"
def sequence : Text := "!!seq"
def mapping : Text := "!!map"

/-- What the tags of the known kinds start with when they are written out. -/
def stem : Text := "tag:yaml.org,2002:"

/-- A tag, shortened if it is that of a known kind. -/
def short (tag : Text) : Text :=
  match Text.afterPrefix? stem tag with
  | some rest => "!!" ++ rest
  | none => tag

end Tag

namespace Meaning

/-- The tag of a meaning. -/
def tag : Meaning → Text
  | null => Tag.null
  | bool _ => Tag.bool
  | int _ => Tag.int
  | float _ => Tag.float
  | time => Tag.time
  | text _ => Tag.text

/-! ### Words -/

/-- The words with a meaning of their own. -/
def words : List (Text × Meaning) :=
  [("true", .bool true), ("True", .bool true), ("TRUE", .bool true),
    ("false", .bool false), ("False", .bool false), ("FALSE", .bool false),
    ("", .null), ("~", .null), ("null", .null), ("Null", .null), ("NULL", .null),
    (".nan", .float (0.0 / 0.0)), (".NaN", .float (0.0 / 0.0)), (".NAN", .float (0.0 / 0.0)),
    (".inf", .float (1.0 / 0.0)), (".Inf", .float (1.0 / 0.0)), (".INF", .float (1.0 / 0.0)),
    ("+.inf", .float (1.0 / 0.0)), ("+.Inf", .float (1.0 / 0.0)), ("+.INF", .float (1.0 / 0.0)),
    ("-.inf", .float (-(1.0 / 0.0))), ("-.Inf", .float (-(1.0 / 0.0))),
    ("-.INF", .float (-(1.0 / 0.0)))]

/-- The meaning of a word. -/
def ofWord? (t : Text) : Option Meaning := (words.find? (·.1 = t)).map Prod.snd

/-! ### Integers -/

/-- The value of digits in a base; nothing if there are none or one is too large. -/
def digits? (base : Nat) (t : Text) : Option Nat :=
  if t = [] then none
  else t.foldlM (fun n b =>
    match Number.digit? 16 b with
    | some d => if d < base then some (base * n + d) else none
    | none => none) 0

/-- A natural number in the base that its start announces: `0x`, `0o` or a bare `0`, `0b`. -/
def natural? (t : Text) : Option Nat :=
  match t with
  | a :: b :: rest =>
    if a = Text.byte '0' then
      let mark := Text.lower [b]
      if mark = "x" then digits? 16 rest
      else if mark = "b" then digits? 2 rest
      else if mark = "o" then digits? 8 rest
      else digits? 8 (b :: rest)
    else digits? 10 t
  | _ => digits? 10 t

/-- A text without its sign, and whether the sign is a minus. -/
def unsigned (t : Text) : Bool × Text :=
  match t with
  | b :: rest =>
    if b = Text.byte '-' then (true, rest)
    else if b = Text.byte '+' then (false, rest)
    else (false, t)
  | [] => (false, [])

/-- The least integer of the machine. -/
def leastInt : Int := -(Nat.pow 2 63 : Nat)

/-- Whether an integer fits a machine word. -/
def fits (n : Int) : Bool := leastInt ≤ n && n < (Nat.pow 2 63 : Nat)

/-- An integer with an optional sign whose digits are read by `read`, if it fits. -/
def signed? (read : Text → Option Nat) (t : Text) : Option Int :=
  let (negative, body) := unsigned t
  (read body).bind fun n =>
    let i : Int := if negative then -n else n
    if fits i then some i else none

/-- An integer with an optional sign, or one without a sign that needs a whole word. -/
def word? (t : Text) : Option Int :=
  match signed? natural? t with
  | some i => some i
  | none => (natural? t).bind fun n => if n < Nat.pow 2 64 then some n else none

/-- An integer whose sign stands after the start that announces its base. -/
def innerSign? (t : Text) : Option Int :=
  match Text.afterPrefix? "0b" t, Text.afterPrefix? "0o" t with
  | some rest, _ => signed? (digits? 2) rest
  | _, some rest => signed? (digits? 8) rest
  | _, _ => none

/-! ### Numbers with a fraction -/

/-- Whether a text is digits with an optional fraction and an optional exponent. -/
def isDecimal (t : Text) : Bool :=
  let (whole, rest) := Text.cut Number.isDigit (unsigned t).2
  let (hasDigits, rest) := match Text.afterPrefix? "." rest with
    | some after =>
      let (fraction, rest) := Text.cut Number.isDigit after
      (!(whole.isEmpty && fraction.isEmpty), rest)
    | none => (!whole.isEmpty, rest)
  let exponentOk := match rest with
    | [] => true
    | b :: after =>
      let exponent := (unsigned after).2
      Text.lower [b] = "e" && !exponent.isEmpty && exponent.all Number.isDigit
  hasDigits && exponentOk

/-- The number of such a text, unless it is too large. -/
def decimal? (t : Text) : Option Float :=
  if isDecimal t then (Number.ofInput t).toOption else none

/-! ### Times -/

/-- A number of one or two digits within bounds, and what follows it. -/
def field? (least greatest : Nat) (t : Text) : Option Text :=
  let digits := (t.take 2).takeWhile Number.isDigit
  if digits ≠ [] && least ≤ Text.toNat digits && Text.toNat digits ≤ greatest then
    some (t.drop digits.length)
  else none

/-- How many days a month has. -/
def daysIn (year month : Nat) : Nat :=
  if month = 2 then
    if year % 4 = 0 && (year % 100 ≠ 0 || year % 400 = 0) then 29 else 28
  else if month ∈ [4, 6, 9, 11] then 30
  else 31

/-- What follows a date: a year of four digits, a month and a day, with hyphens between them. -/
def afterDate? (t : Text) : Option Text := do
  let (year, rest) := Text.cut Number.isDigit t
  if year.length ≠ 4 then none
  let rest ← Text.afterPrefix? "-" rest
  let afterMonth ← field? 1 12 rest
  let month := Text.toNat (rest.take (rest.length - afterMonth.length))
  let rest ← Text.afterPrefix? "-" afterMonth
  field? 1 (daysIn (Text.toNat year) month) rest

/-- What follows a time of day, with an optional fraction of a second. -/
def afterClock? (t : Text) : Option Text := do
  let rest ← field? 0 23 t
  let rest ← Text.afterPrefix? ":" rest
  let rest ← field? 0 59 rest
  let rest ← Text.afterPrefix? ":" rest
  let rest ← field? 0 59 rest
  match rest with
  | point :: digit :: more =>
    if (point = Text.byte '.' || point = Text.byte ',') && Number.isDigit digit then
      some (more.dropWhile Number.isDigit)
    else some rest
  | _ => some rest

/-- Whether a text is the name of a time zone: `Z`, or a sign, hours and minutes. -/
def isZone (t : Text) : Bool :=
  match t with
  | [sign, a, b, colon, c, d] =>
    (sign = Text.byte '+' || sign = Text.byte '-') && colon = Text.byte ':'
      && [a, b, c, d].all Number.isDigit && Text.toNat [a, b] ≤ 24 && Text.toNat [c, d] ≤ 60
  | _ => t = "Z"

/-- Whether a text is a date, alone, with a time of day in a time zone, or after blanks with a time
of day without one. -/
def isTime (t : Text) : Bool :=
  match afterDate? t with
  | none => false
  | some [] => true
  | some (b :: rest) =>
    if b = Text.byte 'T' || b = Text.byte 't' then (afterClock? rest).any isZone
    else if b = Text.byte ' ' then afterClock? (rest.dropWhile (· = Text.byte ' ')) = some []
    else false

/-! ### Spellings and tags -/

/-- The characters with which a word that has a meaning can start. -/
def wordStarts : Text := "yYnNtTfFoO~"

/-- The meaning of the spelling of a number; any other is a text. Underscores do not count. -/
def ofNumber (t : Text) : Meaning :=
  let t' := t.filter (· ≠ Text.byte '_')
  match word? t', decimal? t', innerSign? t' with
  | some i, _, _ => .int i
  | _, some x, _ => .float x
  | _, _, some i => .int i
  | _, _, _ => .text t

/-- The meaning of a spelling; times can be left out. -/
def ofPlain (times : Bool) (t : Text) : Meaning :=
  match t with
  | [] => .null
  | first :: _ =>
    if first = Text.byte '.' then
      match ofWord? t, Number.ofInput t with
      | some m, _ => m
      | none, .ok x => .float x
      | none, .error _ => .text t
    else if Number.isDigit first || first = Text.byte '+' || first = Text.byte '-' then
      match ofWord? t with
      | some m => m
      | none => if times && isTime t then .time else ofNumber t
    else if first ∈ wordStarts then (ofWord? t).getD (.text t)
    else .text t

/-- The value of a digit of base 64. -/
def digit64? (b : UInt8) : Option Nat :=
  let n := b.toNat
  if 65 ≤ n && n ≤ 90 then some (n - 65)
  else if 97 ≤ n && n ≤ 122 then some (n - 71)
  else if Number.isDigit b then some (n + 4)
  else if b = Text.byte '+' then some 62
  else if b = Text.byte '/' then some 63
  else none

/-- The bytes written in base 64, four digits for three bytes, the last ones padded. -/
def bytes64? : Text → Option Text
  | [] => some []
  | a :: b :: c :: d :: rest => do
    let high := 64 * (← digit64? a) + (← digit64? b)
    if c = Text.byte '=' then
      if d = Text.byte '=' && rest = [] then some [(high / 16).toUInt8] else none
    else
      let middle := 64 * high + (← digit64? c)
      if d = Text.byte '=' then
        if rest = [] then some [(middle / 1024).toUInt8, (middle / 4).toUInt8] else none
      else
        let low := 64 * middle + (← digit64? d)
        let more ← bytes64? rest
        some ((low / 65536).toUInt8 :: (low / 256).toUInt8 :: low.toUInt8 :: more)
  | _ => none

/-- The double nearest to an integer. -/
def toFloat (i : Int) : Float :=
  let x := Number.ofDecimal i.natAbs 0
  if i < 0 then -x else x

/-- The meaning of a spelling with a short tag. Tags that are not known leave the spelling as it
is. -/
def ofTagged (tag t : Text) : Except Problem Meaning :=
  if tag = Tag.binary then
    match bytes64? (t.filter fun b => b ≠ Text.byte '\n' && b ≠ Text.byte '\r') with
    | some bytes => .ok (.text bytes)
    | none => .error .badBase64
  else if tag = Tag.text then .ok (.text t)
  else if tag ∈ [Tag.null, Tag.bool, Tag.int, Tag.float, Tag.time] then
    let found := ofPlain (tag = Tag.time) t
    match found with
    | .int i =>
      if tag = Tag.float && fits i then .ok (.float (toFloat i))
      else if tag = Tag.int then .ok found
      else .error (.badTag found.tag t tag)
    | _ => if found.tag = tag then .ok found else .error (.badTag found.tag t tag)
  else .ok (.text t)

/-! ### What is asked of a meaning -/

/-- The texts that are taken for a truth value where one is asked for. -/
def truthWords (b : Bool) : List Text :=
  if b then ["y", "Y", "yes", "Yes", "YES", "on", "On", "ON"]
  else ["n", "N", "no", "No", "NO", "off", "Off", "OFF"]

/-- The truth value that a meaning is taken for. -/
def bool? : Meaning → Option Bool
  | bool b => some b
  | text t =>
    if t ∈ truthWords true then some true
    else if t ∈ truthWords false then some false
    else none
  | _ => none

/-- The integer part of a number, if the number is at most the limit of the machine; what is out of
range there becomes the least integer. -/
def truncate? (x : Float) : Option Int :=
  let limit := Number.ofBinary 1 63
  if x ≤ limit then some (if x == limit then leastInt else x.toInt64.toInt) else none

/-- The integer that a meaning is taken for; a number with a fraction loses it. -/
def int? : Meaning → Option Int
  | int i => if fits i then some i else none
  | float x => truncate? x
  | _ => none

end Meaning

end Lox.Yaml
