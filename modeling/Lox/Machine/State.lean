import Lox.Log
import Lox.Machine.Input
import Lox.Store

/-!
# Machine states

A program runs on an abstract machine. Its state says what is being done and, as data, everything
that waits for it: the operators that wait for an operand, the statement that waits for a value,
and the statements, calls and imports that wait for a statement. The machine never recurses into
the program, so every point of a run is a state that can be looked at.
-/

namespace Lox

/-- What looking for a module yields. -/
inductive Located where
  | found (file source : Text)
  | unreadable (reason : Text)
  | missing (reason : Text)
  deriving DecidableEq, Repr

/-- A clock: what it shows each time it is read, and how often it has been read. -/
structure Clock where
  shows : Nat → Float
  position : Nat := 0

namespace Clock

/-- A clock that stands still. -/
def still (time : Float) : Clock := { shows := fun _ => time }

instance : Coe Float Clock := ⟨still⟩

instance {n : Nat} : OfNat Clock n := ⟨still (OfNat.ofNat n)⟩

/-- Reads a clock. -/
def read (c : Clock) : Float × Clock := (c.shows c.position, { c with position := c.position + 1 })

end Clock

/-- What surrounds a run: the limit of nested calls and imports, the clock that is there at first,
and where modules are found if they are available at all. -/
structure Host where
  limit : Nat
  clock : Clock
  modules : Option (Text → Located)

/-- What a run does that can be seen from outside. -/
inductive Event where
  | printed (t : Text)
  | rejected (faults : List Diagnostic)
  | logged (entry : LogEntry)
  deriving DecidableEq, Repr

/-- What a run can change: the store, the input, the clock, the number of active calls and imports,
whether values of expression statements are shown, and the events so far, latest first. -/
structure World where
  store : Store
  input : Input
  clock : Clock
  depth : Nat := 0
  echo : Bool := false
  events : List Event := []

namespace World

variable (w : World)

/-- Records an event. -/
def emit (event : Event) : World := { w with events := event :: w.events }

/-- Prints a value on a line of its own. -/
def print (v : Value) : World := w.emit (.printed (w.store.render v ++ "\n"))

/-- Records a message for those who trace the program's work. -/
def log (message : Text) (fields : List (Text × Text)) : World :=
  w.emit (.logged (.debug message fields))

/-- Acts on the store. -/
@[inline]
def onStore {α : Type} (f : Store → α × Store) : α × World :=
  match w with
  | ⟨store, input, clock, depth, echo, events⟩ =>
    let (a, store) := f store
    (a, ⟨store, input, clock, depth, echo, events⟩)

/-- Binds a name in a frame. -/
def define (e : FrameId) (x : Text) (v : Value) : World :=
  { w with store := w.store.define e x v }

/-- Counts one more active call or import. -/
def enter : World := { w with depth := w.depth + 1 }

/-- Counts one active call or import less. -/
def leave : World := { w with depth := w.depth - 1 }

/-- Whether one more call or import would exceed the limit. -/
def isFull (host : Host) : Bool := host.limit < w.depth + 1

end World

/-- How a statement finishes. -/
inductive Flow where
  | normal
  | returned (v : Value)
  | broke

/-- A part of an expression that waits for a value. -/
inductive Pending where
  | unary (op : UnaryOp) (mark : Mark)
  | left (op : BinaryOp) (mark : Mark) (right : Expr Address) (env : FrameId)
  | right (op : BinaryOp) (mark : Mark) (left : Value)
  | logical (op : LogicalOp) (right : Expr Address) (env : FrameId)
  | conditional (yes no : Expr Address) (env : FrameId)
  | assign (mark : Mark) (ref : Address) (env : FrameId)
  | get (property : Mark)
  | setObject (property : Mark) (value : Expr Address) (env : FrameId)
  | setValue (object : Value) (property : Mark)
  | callee (paren : Mark) (arguments : List (Expr Address)) (env : FrameId)
  | argument (callee : Value) (paren : Mark) (done : List Value) (rest : List (Expr Address))
      (env : FrameId)

/-- What a statement does with the value of its expression. -/
inductive Use where
  | echo
  | print
  | define (x : Text) (env : FrameId)
  | branch (yes : Stmt Address) (no : Option (Stmt Address)) (env : FrameId)
  | test (condition : Expr Address) (body : Stmt Address) (env : FrameId)
  | ret

/-- Everything that waits for a value: the parts of an expression, innermost first, and the
statement around them. -/
structure Demand where
  pending : List Pending
  use : Use

/-- One more part of an expression that waits. -/
def Demand.push (d : Demand) (p : Pending) : Demand := { d with pending := p :: d.pending }

/-- The import of a module: the module to be bound, its import path, and where to bind it. -/
structure Importing where
  path : Text
  loaded : Module
  env : FrameId
  echo : Bool

/-- What goes on when a statement has finished. -/
inductive Resume where
  /-- The rest of a block. -/
  | block (rest : List (Stmt Address)) (env : FrameId)
  /-- The loop around a body. -/
  | loop (condition : Expr Address) (body : Stmt Address) (env : FrameId)
  /-- The rest of a program, at top level. -/
  | program (rest : Program Address) (env : FrameId)
  /-- The call of a function, whose result is demanded. -/
  | call (closure : Closure) (demand : Demand)
  /-- The import of the module whose statements have run. -/
  | importing (i : Importing)

/-- A point of a run. -/
inductive State where
  /-- An expression is to be evaluated. -/
  | eval (e : Expr Address) (env : FrameId) (demand : Demand) (rest : List Resume) (w : World)
  /-- A value is handed to what demands it. -/
  | value (v : Value) (demand : Demand) (rest : List Resume) (w : World)
  /-- A statement is to be executed. -/
  | exec (s : Stmt Address) (env : FrameId) (rest : List Resume) (w : World)
  /-- A statement has finished. -/
  | flow (f : Flow) (rest : List Resume) (w : World)
  /-- The run fails. -/
  | fail (f : Failure) (rest : List Resume) (w : World)

namespace State

/-- The point at which a program starts. -/
def start (program : Program Address) (globals : FrameId) (w : World) : State :=
  flow .normal [.program program globals] w

/-- What the run has changed so far. -/
def world : State → World
  | eval _ _ _ _ w => w
  | value _ _ _ w => w
  | exec _ _ _ w => w
  | flow _ _ w => w
  | fail _ _ w => w

/-- Whether the run has ended. -/
def isFinal : State → Bool
  | flow _ [] _ => true
  | fail _ [] _ => true
  | _ => false

end State

end Lox
