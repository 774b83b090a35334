import Lox.Text.Quoted

/-!
# Logging

What the program says about its own work. An entry has a level, a message and named fields; it is
written on one line if its level is severe enough.
-/

namespace Lox

/-- How severe a message is, most severe first. -/
inductive LogLevel where
  | panic
  | fatal
  | error
  | warning
  | info
  | debug
  | trace
  deriving DecidableEq, Repr

namespace LogLevel

/-- The name of a level. -/
def name : LogLevel → Text
  | panic => "panic"
  | fatal => "fatal"
  | error => "error"
  | warning => "warning"
  | info => "info"
  | debug => "debug"
  | trace => "trace"

/-- Every level, most severe first. -/
def all : List LogLevel := [panic, fatal, error, warning, info, debug, trace]

/-- A level as written, in small letters. Of the capitals beyond ASCII only the dotted `İ` stands
for a letter of a level's name. -/
def smallLetters : Text → Text
  | 0xC4 :: 0xB0 :: t => Text.byte 'i' :: smallLetters t
  | b :: t => Text.lower [b] ++ smallLetters t
  | [] => []

/-- The level with a name, in any case; `warn` is short for `warning`. -/
def ofText? (t : Text) : Option LogLevel :=
  let word := smallLetters t
  if word = "warn" then some warning else all.find? (·.name = word)

/-- The rank of a level: the most severe is zero. -/
def rank (level : LogLevel) : Nat := all.idxOf level

/-- Whether messages of a level are shown under a threshold. -/
def shownAt (level threshold : LogLevel) : Bool := level.rank ≤ threshold.rank

end LogLevel

/-- A message about the program's own work. -/
structure LogEntry where
  level : LogLevel
  message : Text
  fields : List (Text × Text)
  deriving DecidableEq, Repr

namespace LogEntry

/-- A message for those who trace the program's work. -/
def debug (message : Text) (fields : List (Text × Text)) : LogEntry := ⟨.debug, message, fields⟩

/-- Whether a byte may stand in a value without quotes. -/
def isBare (b : UInt8) : Bool :=
  let c := Char.ofUInt8 b
  (b < 0x80 && c.isAlphanum) || c ∈ ['.', '_', '/', '@', '^', '+', '-']

/-- A value, quoted unless all its bytes are bare. -/
def value (t : Text) : Text := if t.all isBare then t else t.quoted

/-- The line of an entry. -/
def line (entry : LogEntry) : Text :=
  let fields := entry.fields.mergeSort fun a b => Text.precedes a.1 b.1
  let pairs : List (Text × Text) :=
    ("level", entry.level.name) :: ("msg", entry.message) :: fields
  Text.joinWith " " (pairs.map fun (key, t) => key ++ "=" ++ value t)

end LogEntry

end Lox
