import Lox.Machine.Run

/-!
# Interpreters

An interpreter runs one source after another in the same world: what one source defines, the next
one finds among the globals, also if an earlier one failed.
-/

namespace Lox

/-- A world for one program after another, in the same globals. -/
structure Interpreter where
  host : Host
  world : World
  globals : FrameId

namespace Interpreter

/-- The limit of nested calls and imports if no positive one is asked for. -/
def defaultLimit : Nat := 4096

/-- The limit of nested calls and imports that is asked for. -/
def limitOf (asked : Int) : Nat := if asked ≤ 0 then defaultLimit else asked.toNat

/-- An interpreter that has run nothing yet. -/
def new (host : Host) (input : Input) (echo : Bool) : Interpreter :=
  let (globals, store) := ({} : Store).newGlobals
  { host, world := { store, input, clock := host.clock, echo }, globals }

/-- Runs a program for at most `n` steps: how it ends, and its events in order. -/
def execute (i : Interpreter) (n : Nat) (program : Program Address) :
    Ending × List Event × Interpreter :=
  match i with
  | ⟨host, world, globals⟩ =>
    let (ending, w) := world.run host n program globals
    (ending, w.events.reverse, ⟨host, { w with events := [] }, globals⟩)

/-- The globals that are not native functions, by name: kind and text. -/
def globalBindings (i : Interpreter) : List (Text × Kind × Text) := i.world.store.dump i.globals

end Interpreter

namespace Event

/-- What was printed, in order. -/
def output (events : List Event) : Text :=
  events.flatMap fun
    | printed t => t
    | _ => []

/-- Whether a module was rejected. -/
def isRejection : Event → Bool
  | rejected _ => true
  | _ => false

/-- The problems of rejected modules, in order. -/
def rejections (events : List Event) : List Diagnostic :=
  events.flatMap fun
    | rejected faults => faults
    | _ => []

/-- The messages about the program's own work, in order. -/
def logs (events : List Event) : List LogEntry :=
  events.filterMap fun
    | logged entry => some entry
    | _ => none

end Event

end Lox
