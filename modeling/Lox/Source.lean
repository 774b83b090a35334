import Lox.Grammar.Program
import Lox.Scan
import Lox.Scope
import Lox.Tree.Map

/-!
# From source to program

Everything that happens to a source before it runs: scanning, parsing and resolution. Lexical and
grammatical problems are reported together; scopes are looked at only if there are none.
-/

namespace Lox

/-- Why a source is no program. -/
inductive Rejection where
  /-- Lexical problems, then grammatical ones. -/
  | malformed (faults : List Diagnostic)
  /-- Misplaced names and jumps in a well-formed source. -/
  | misplaced (faults : List Diagnostic)
  deriving DecidableEq, Repr

namespace Rejection

/-- The problems, in the order in which they were found. -/
def faults : Rejection → List Diagnostic
  | malformed faults => faults
  | misplaced faults => faults

/-- A heading with the number of problems, and one indented item for each. -/
def itemized (texts : List Text) : Text :=
  let heading : Text :=
    if texts.length = 1 then "1 error occurred:"
    else Text.ofNat texts.length ++ " errors occurred:"
  let items : Text := texts.flatMap fun t => ("\n\t* " : Text) ++ t
  heading ++ items ++ "\n\n"

/-- All problems in one text. -/
def text : Rejection → Text
  | malformed faults => itemized (faults.map Diagnostic.text)
  | misplaced faults => Text.joinWith "\n" (faults.map Diagnostic.text)

end Rejection

/-- How much is asked of the scopes of a source before it may run. -/
inductive Checking where
  /-- Every name and jump is in place. -/
  | full
  /-- Names get their addresses, whatever else is wrong. -/
  | addressesOnly
  /-- Nothing is looked at, and every name is taken for a global. -/
  | none
  deriving DecidableEq, Repr

/-- Addresses the references of a well-formed program. -/
def Program.address (checking : Checking) (program : Program Unit) :
    Except Rejection (Program Address) :=
  match checking with
  | .none => .ok program.unaddressed
  | .addressesOnly => .ok (Resolved.ofProgram program).program
  | .full =>
    let resolved := Resolved.ofProgram program
    match resolved.faults with
    | [] => .ok resolved.program
    | faults => .error (.misplaced faults)

/-- The program of a source, checked as far as asked. -/
def Program.ofSourceWith (checking : Checking) (source : Text) :
    Except Rejection (Program Address) :=
  let scan := Scan.ofSource source
  let parsed := Parsed.ofTokens scan.tokens
  match scan.faults ++ parsed.faults with
  | [] => Program.address checking parsed.program
  | faults => .error (.malformed faults)

/-- The program of a source, checked in full. -/
def Program.ofSource (source : Text) : Except Rejection (Program Address) :=
  Program.ofSourceWith .full source

end Lox
