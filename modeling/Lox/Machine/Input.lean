import Lox.Fault
import Lox.Number.Read
import Lox.Text.Blank
import Lox.Text.Quoted
import Lox.Value

/-!
# Standard input

The input of a run, read line by line by the native functions.
-/

namespace Lox

/-- What is left of the input. Reading past it meets the end of the input, or fails with a message
if there is one. -/
structure Input where
  rest : Text
  failure : Option Text := none
  deriving DecidableEq, Repr

namespace Input

/-- How a line ended. -/
inductive LineEnd where
  | newline
  | endOfInput
  | failed (reason : Text)
  deriving DecidableEq, Repr

/-- The newline byte. -/
def newline : UInt8 := Text.byte '\n'

/-- Whether a byte belongs to the terminator of a line. -/
def isTerminator (b : UInt8) : Bool := b = newline || b = Text.byte '\r'

/-- The next line without the bytes of its terminator, how it ended, and the rest. -/
def readLine (i : Input) : Text × LineEnd × Input :=
  let (line, rest) := i.rest.cut (· ≠ newline)
  let line := Text.dropRightWhile isTerminator line
  match rest with
  | _ :: rest => (line, .newline, { i with rest })
  | [] =>
    match i.failure with
    | none => (line, .endOfInput, { i with rest := [] })
    | some reason => (line, .failed reason, { i with rest := [] })

/-- The next line as a string, or `nil` at the end of the input. -/
def readText (i : Input) : Except Fault Value × Input :=
  match i.readLine with
  | (_, .failed reason, i) => (.error (.inputFailed reason), i)
  | ([], .endOfInput, i) => (.ok .nil, i)
  | (line, _, i) => (.ok (.string line), i)

/-- Why a numeral could not be read. -/
def numeralReason (numeral : Text) (why : Number.Refusal) : Text :=
  let reason : Text := match why with
    | .malformed => "invalid syntax"
    | .outOfRange => "value out of range"
  "strconv.ParseFloat: parsing " ++ numeral.quoted ++ ": " ++ reason

/-- The next line as a number; blanks around it do not count. -/
def readNumber (i : Input) : Except Fault Value × Input :=
  match i.readLine with
  | (_, .failed reason, i) => (.error (.inputFailed reason), i)
  | (line, _, i) =>
    let numeral := line.trim
    match Number.ofInput numeral with
    | .ok x => (.ok (.number x), i)
    | .error why => (.error (.inputNotNumber (numeralReason numeral why)), i)

end Input

end Lox
