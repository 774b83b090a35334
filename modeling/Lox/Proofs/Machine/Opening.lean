import Lox.Interpreter
import Lox.Proofs.Scope.Walk

/-!
# What frames are opened for

A run creates a frame for each block it enters, for the body of each function it calls, for the
receiver of each method it binds, for the superclass of each class it declares and for the globals
of each module it imports. This module keeps the account: for each frame, in the order of their
creation, what it was opened for.
-/

namespace Lox

namespace State

/-- The body of a function, if there is room for one more call. -/
def opensBody (host : Host) (closure : Closure) (w : World) : List Origin :=
  if w.isFull host then [] else [.call closure.fn]

/-- The receiver of an initializer and its body. -/
def opensInstance (host : Host) (c : ClassId) (w : World) : List Origin :=
  match w.store.findMethod c "init" with
  | none => []
  | some method => .receiver method.fn :: opensBody host method w

/-- What the call of a value opens. -/
def opensCall (host : Host) (callee : Value) (arguments : List Value) (w : World) : List Origin :=
  if w.store.arity? callee = some arguments.length then
    match callee with
    | .function closure => opensBody host closure w
    | .classRef c => opensInstance host c w
    | _ => []
  else []

/-- The receiver of a method found as a property. -/
def opensProperty (object : Value) (x : Text) (w : World) : List Origin :=
  match w.store.property object x with
  | .method method => [.receiver method.fn]
  | _ => []

/-- The receiver of a method found in a superclass. -/
def opensInherited (method : Mark) (ref : Address) (env : FrameId) (w : World) : List Origin :=
  match ref with
  | none => []
  | some d =>
    match w.store.getAt env d "super" with
    | some (.classRef superclass) =>
      match w.store.getAt env (d - 1) "this" with
      | none => []
      | some receiver =>
        match w.store.inherited superclass receiver method.lexeme with
        | some closure => [.receiver closure.fn]
        | none => []
    | _ => []

/-- The superclass around the methods of a class. -/
def opensClass (superclass : Option (Mark × Address)) (methods : List (Method Address))
    (env : FrameId) (w : World) : List Origin :=
  match findSuperclass w.store env superclass with
  | .ok (some _) => [.superclass methods]
  | _ => []

/-- The globals of a module that is found and accepted. -/
def opensImport (host : Host) (path : Token) (w : World) : List Origin :=
  match host.modules with
  | none => []
  | some locate =>
    match locate (Import.path path) with
    | .found _ source =>
      if w.isFull host then []
      else
        match Program.ofSource source with
        | .ok _ => [.imported source]
        | .error _ => []
    | _ => []

/-- What the frames are opened for that the next step creates, in the order of their creation. -/
def opens (host : Host) : State → List Origin
  | eval (.inherited _ method ref) env _ _ w => opensInherited method ref env w
  | value v ⟨.get property :: _, _⟩ _ w => opensProperty v property.lexeme w
  | value v ⟨.callee _ [] _ :: _, _⟩ _ w => opensCall host v [] w
  | value v ⟨.argument callee _ done [] _ :: _, _⟩ _ w =>
    opensCall host callee (v :: done).reverse w
  | exec (.block body) _ _ _ => [.block body]
  | exec (.classDecl _ superclass methods) env _ w => opensClass superclass methods env w
  | exec (.importDecl path _) _ _ w => opensImport host path w
  | _ => []

/-- What the frames are opened for that a run of at most `n` steps creates. -/
def opened (host : Host) : (n : Nat) → State → List Origin
  | 0, _ => []
  | n + 1, s => if s.isFinal then [] else s.opens host ++ opened host n (s.step host)

end State

namespace Interpreter

/-- The state after at most `n` steps of a program. -/
def stateAt (i : Interpreter) (program : Program Address) (n : Nat) : State :=
  State.run i.host n (.start program i.globals i.world)

/-- What the frames are opened for that at most `n` steps of a program create. -/
def opened (i : Interpreter) (program : Program Address) (n : Nat) : List Origin :=
  State.opened i.host n (.start program i.globals i.world)

/-- The interpreters that a session can come to, with the sources it has run, latest first, and what
its frames were opened for. Each source runs for any number of steps, to its end or not, and may end
in a failure; between two sources the input may change. -/
inductive Reachable : Interpreter → List Text → List Origin → Prop
  | new (host : Host) (input : Input) (echo : Bool) :
      Reachable (Interpreter.new host input echo) [] [.session]
  | execute {i : Interpreter} {sources : List Text} {origins : List Origin} {source : Text}
      {program : Program Address} (n : Nat) : Reachable i sources origins →
      Program.ofSource source = .ok program →
      Reachable (i.execute n program).2.2 (source :: sources) (origins ++ i.opened program n)
  | read {i : Interpreter} {sources : List Text} {origins : List Origin} (input : Input) :
      Reachable i sources origins →
      Reachable { i with world := { i.world with input } } sources origins

end Interpreter

end Lox
