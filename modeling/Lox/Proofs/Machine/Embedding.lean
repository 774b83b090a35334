import Lox.Proofs.Machine.Completion
import Lox.Proofs.Machine.Range
import Lox.Proofs.Store.Placement
import Mathlib

/-!
# Runs inside larger runs

A run can be a part of a larger one: in a store that holds more, at a greater depth, after other
events, and with more to do when it has ended. Nothing it does depends on that. Every state of the
run by itself corresponds to one of the larger run, and a step from the one to a step from the
other.
-/

namespace Lox

open State

/-! ### What waits -/

namespace Placement

variable (x : Placement)

/-- A part of an expression that waits, after the placement. -/
def pending : Pending → Pending
  | .unary op mark => .unary op (mark.mapLine x.line)
  | .left op mark right env =>
    .left op (mark.mapLine x.line) (right.mapLines x.line) (x.frame env)
  | .right op mark left => .right op (mark.mapLine x.line) (x.value left)
  | .logical op right env => .logical op (right.mapLines x.line) (x.frame env)
  | .conditional yes no env =>
    .conditional (yes.mapLines x.line) (no.mapLines x.line) (x.frame env)
  | .assign mark ref env => .assign (mark.mapLine x.line) ref (x.frame env)
  | .get property => .get (property.mapLine x.line)
  | .setObject property e env =>
    .setObject (property.mapLine x.line) (e.mapLines x.line) (x.frame env)
  | .setValue object property => .setValue (x.value object) (property.mapLine x.line)
  | .callee paren arguments env =>
    .callee (paren.mapLine x.line) (Expr.mapLinesAll x.line arguments) (x.frame env)
  | .argument f paren done more env =>
    .argument (x.value f) (paren.mapLine x.line) (done.map x.value)
      (Expr.mapLinesAll x.line more) (x.frame env)

/-- What a statement does with a value, after the placement. -/
def use : Use → Use
  | .echo => .echo
  | .print => .print
  | .define y env => .define y (x.frame env)
  | .branch yes no env =>
    .branch (yes.mapLines x.line) (no.map (Stmt.mapLines x.line)) (x.frame env)
  | .test condition body env =>
    .test (condition.mapLines x.line) (body.mapLines x.line) (x.frame env)
  | .ret => .ret

/-- What waits for a value, after the placement. -/
def demand (d : Demand) : Demand := ⟨d.pending.map x.pending, x.use d.use⟩

/-- An import after the placement. -/
def importing (i : Importing) : Importing :=
  { i with loaded := x.moduleInfo i.loaded, env := x.frame i.env }

/-- What waits for a statement, after the placement. -/
def resume : Resume → Resume
  | .block rest env => .block (Stmt.mapLinesAll x.line rest) (x.frame env)
  | .loop condition body env =>
    .loop (condition.mapLines x.line) (body.mapLines x.line) (x.frame env)
  | .program rest env => .program (Stmt.mapLinesAll x.line rest) (x.frame env)
  | .call closure demand => .call (x.closure closure) (x.demand demand)
  | .importing i => .importing (x.importing i)

/-- How a statement finishes, after the placement. -/
def flow : Flow → Flow
  | .normal => .normal
  | .returned v => .returned (x.value v)
  | .broke => .broke

end Placement

/-- A failure on another line. -/
def Failure.mapLine (line : Int → Int) : Failure → Failure
  | .runtime mark fault => .runtime (mark.mapLine line) fault
  | .overflow mark => .overflow (mark.mapLine line)

/-! ### States -/

/-- What surrounds a run: the store it is placed in, how many calls and imports are active there,
what has been seen before, and what goes on after it. -/
structure Embedding extends Placement where
  depth : Nat
  events : List Event
  tail : List Resume

namespace Embedding

variable (x : Embedding)

/-- The host of the larger run. -/
def host (host : Host) : Host := { host with limit := x.depth + host.limit }

/-- The world of the larger run. -/
def world (w : World) : World where
  store := x.store w.store
  input := w.input
  clock := w.clock
  depth := x.depth + w.depth
  echo := w.echo
  events := w.events ++ x.events

/-- What waits in the larger run. -/
def rest (rest : List Resume) : List Resume := rest.map x.resume ++ x.tail

/-- The state of the larger run. -/
def state : State → State
  | eval e env demand rest w =>
    eval (e.mapLines x.line) (x.frame env) (x.demand demand) (x.rest rest) (x.world w)
  | value v demand rest w => value (x.value v) (x.demand demand) (x.rest rest) (x.world w)
  | exec s env rest w => exec (s.mapLines x.line) (x.frame env) (x.rest rest) (x.world w)
  | flow f rest w => flow (x.flow f) (x.rest rest) (x.world w)
  | fail f rest w => fail (f.mapLine x.line) (x.rest rest) (x.world w)

/-- A state of the larger run that follows one of a run by itself: the corresponding one, except
that the code of a module that is about to run is as it was written. -/
inductive Follows : State → State → Prop
  | same (s : State) : Follows s (x.state s)
  | load {source : Text} {program : Program Address} (hp : Program.ofSource source = .ok program)
      (globals : FrameId) (rest : List Resume) (w : World) :
      Follows (.flow .normal (.program program globals :: rest) w)
        (.flow .normal (.program program (x.frame globals) :: x.rest rest) (x.world w))

variable {x}

theorem Follows.of_eq {s t : State} (h : t = x.state s) : x.Follows s t := h ▸ .same s

variable {host : Host} {d : Nat} {w : World} {env : FrameId} {demand : Demand}
variable {rest : List Resume} {v : Value} {mark : Mark} {ref : Address}

/-! ### Worlds -/

@[simp] theorem store_world : (x.world w).store = x.store w.store := rfl

@[simp] theorem isFull_world : (x.world w).isFull (x.host host) = w.isFull host := by
  unfold World.isFull world Embedding.host
  simp only [decide_eq_decide]
  omega

theorem define_world (e : FrameId) (y : Text) :
    (x.world w).define (x.frame e) y (x.value v) = x.world (w.define e y v) := by
  unfold World.define world
  simp only [Placement.define_store]

theorem print_world : (x.world w).print (x.value v) = x.world (w.print v) := by
  unfold World.print World.emit world
  simp only [Placement.render_store]
  rfl

theorem log_world (message : Text) (fields : List (Text × Text)) :
    (x.world w).log message fields = x.world (w.log message fields) := rfl

theorem enter_world : (x.world w).enter = x.world w.enter := rfl

theorem leave_world (h : 0 < w.depth) : (x.world w).leave = x.world w.leave := by
  unfold World.leave world
  simp only [Nat.add_sub_assoc h]

/-- An action on the store that the placement carries over. -/
theorem onStore_world {α β : Type} {f : Store → β × Store} {g : Store → α × Store} {b : β}
    (h : f (x.store w.store) = (b, x.store (g w.store).2)) :
    (x.world w).onStore f = (b, x.world (w.onStore g).2) := by
  unfold World.onStore world
  simp only [h]

theorem newFrame_world (parent : Option FrameId) :
    (x.world w).onStore (·.newFrame (parent.map x.frame)) =
      (x.frame w.store.frames.size, x.world (w.onStore (·.newFrame parent)).2) :=
  onStore_world (g := (·.newFrame parent)) (Placement.newFrame_store parent)

theorem newFrameWith_world (parent : Option FrameId) (bindings : List (Text × Value)) :
    (x.world w).onStore
        (·.newFrameWith (parent.map x.frame) (bindings.map (Prod.map id x.value))) =
      (x.frame w.store.frames.size, x.world (w.onStore (·.newFrameWith parent bindings)).2) :=
  onStore_world (g := (·.newFrameWith parent bindings))
    (Placement.newFrameWith_store parent bindings)

theorem bind_world (method : Closure) :
    (x.world w).onStore (·.bind (x.closure method) (x.value v)) =
      (x.closure (w.onStore (·.bind method v)).1, x.world (w.onStore (·.bind method v)).2) :=
  onStore_world (g := (·.bind method v)) (Placement.bind_store method)

theorem newClass_world (y : Text) (c? : Option ClassId) (methods : Table Closure) :
    (x.world w).onStore (·.newClass y (c?.map x.classId) (methods.map x.closure)) =
      (x.classId (w.onStore (·.newClass y c? methods)).1,
        x.world (w.onStore (·.newClass y c? methods)).2) :=
  onStore_world (g := (·.newClass y c? methods)) (Placement.newClass_store y c? methods)

/-! ### Expressions -/

theorem outcome_state (result : Except Fault Value) :
    outcome (mark.mapLine x.line) (result.map x.value) (x.demand demand) (x.rest rest) (x.world w) =
      x.state (outcome mark result demand rest w) := by
  cases result <;> rfl

theorem outcome_plain {result : Except Fault Value} (h : result.map x.value = result) :
    outcome (mark.mapLine x.line) result (x.demand demand) (x.rest rest) (x.world w) =
      x.state (outcome mark result demand rest w) := by
  rw [← outcome_state, h]

theorem bindMethod_state (method : Closure) (receiver : Value) :
    bindMethod (x.closure method) (x.value receiver) (x.demand demand) (x.rest rest) (x.world w) =
      x.state (bindMethod method receiver demand rest w) := by
  unfold bindMethod
  rw [bind_world]
  rfl

theorem setField_state (object : Value) (property : Mark) :
    setField (x.value object) (property.mapLine x.line) (x.value v) (x.demand demand) (x.rest rest)
        (x.world w) =
      x.state (setField object property v demand rest w) := by
  cases object with
  | classRef c =>
    exact congrArg (fun s => State.value _ _ _ { x.world w with store := s })
      Placement.setClassField_store
  | instanceRef i =>
    exact congrArg (fun s => State.value _ _ _ { x.world w with store := s })
      Placement.setInstanceField_store
  | _ => rfl

section

variable (h : w.store.Ordered)

include h

theorem readName_state :
    readName (mark.mapLine x.line) ref (x.frame env) (x.demand demand) (x.rest rest) (x.world w) =
      x.state (readName mark ref env demand rest w) := by
  unfold readName
  rw [store_world, Mark.lexeme_mapLine, Placement.read_store h]
  cases w.store.read env ref mark.lexeme <;> rfl

theorem assignName_state :
    assignName (mark.mapLine x.line) ref (x.frame env) (x.value v) (x.demand demand) (x.rest rest)
        (x.world w) =
      x.state (assignName mark ref env v demand rest w) := by
  unfold assignName
  rw [store_world, Mark.lexeme_mapLine, Placement.writable_store h]
  cases w.store.writable env ref mark.lexeme with
  | none => rfl
  | some e =>
    simp only [Option.map_some, define_world]
    rfl

theorem getProperty_state (object : Value) (property : Mark) :
    getProperty (x.value object) (property.mapLine x.line) (x.demand demand) (x.rest rest)
        (x.world w) =
      x.state (getProperty object property demand rest w) := by
  unfold getProperty
  rw [store_world, Mark.lexeme_mapLine, Placement.property_store h]
  cases w.store.property object property.lexeme with
  | method closure => exact bindMethod_state closure object
  | _ => rfl

theorem getInherited_state (keyword method : Mark) :
    getInherited (keyword.mapLine x.line) (method.mapLine x.line) ref (x.frame env)
        (x.demand demand) (x.rest rest) (x.world w) =
      x.state (getInherited keyword method ref env demand rest w) := by
  cases ref with
  | none => rfl
  | some d =>
    simp only [getInherited, store_world, Mark.lexeme_mapLine, Placement.getAt_store]
    cases w.store.getAt env d "super" with
    | none => rfl
    | some superclass =>
      cases superclass with
      | classRef c =>
        simp only [Option.map_some, Placement.value]
        cases w.store.getAt env (d - 1) "this" with
        | none => rfl
        | some receiver =>
          simp only [Option.map_some, Placement.inherited_store h]
          cases w.store.inherited c receiver method.lexeme with
          | none => rfl
          | some closure => exact bindMethod_state closure receiver
      | _ => rfl

/-! ### Calls -/

omit h in
theorem enterFunction_state (closure : Closure) (arguments : List Value) (paren : Mark) :
    enterFunction (x.host host) (x.closure closure) (arguments.map x.value) (paren.mapLine x.line)
        (x.demand demand) (x.rest rest) (x.world w) =
      x.state (enterFunction host closure arguments paren demand rest w) := by
  have hf := newFrameWith_world (x := x) (w := w.enter) (some closure.frame)
    ((closure.fn.params.map Mark.lexeme).zip arguments)
  unfold enterFunction
  rw [isFull_world, Placement.params_closure, List.zip_map_right, Placement.body_closure]
  split
  · rfl
  · exact congrArg (fun p : FrameId × World => State.flow .normal (.block _ p.1 :: _) p.2) hf

omit h in
theorem callNative_state (fn : NativeFunction) (paren : Mark) :
    callNative fn (paren.mapLine x.line) (x.demand demand) (x.rest rest) (x.world w) =
      x.state (callNative fn paren demand rest w) := by
  have readText : w.input.readText.1.map x.value = w.input.readText.1 := by
    unfold Input.readText
    split <;> rfl
  have readNumber : w.input.readNumber.1.map x.value = w.input.readNumber.1 := by
    unfold Input.readNumber
    dsimp only
    split
    · rfl
    · split <;> rfl
  cases fn with
  | clock => rfl
  | read => exact outcome_plain (w := { w with input := w.input.readText.2 }) readText
  | readNumber => exact outcome_plain (w := { w with input := w.input.readNumber.2 }) readNumber

theorem construct_state (c : ClassId) (arguments : List Value) (paren : Mark) :
    construct (x.host host) (x.classId c) (arguments.map x.value) (paren.mapLine x.line)
        (x.demand demand) (x.rest rest) (x.world w) =
      x.state (construct host c arguments paren demand rest w) := by
  -- an instance adds no class, so the search is the one in the store before
  have hm : (x.store (w.store.newInstance c).2).findMethod (x.classId c) "init" =
      ((w.store.newInstance c).2.findMethod c "init").map x.closure := by
    have hc : (x.store (w.store.newInstance c).2).classes = (x.store w.store).classes := rfl
    have hc' : (w.store.newInstance c).2.classes = w.store.classes := rfl
    rw [Store.findMethod_congr hc, Store.findMethod_congr hc', Placement.findMethod_store h]
  unfold construct
  rw [onStore_world (g := (·.newInstance c)) Placement.newInstance_store]
  dsimp only
  rw [store_world, show (w.onStore (·.newInstance c)).2.store = (w.store.newInstance c).2 from rfl,
    hm]
  cases (w.store.newInstance c).2.findMethod c "init" with
  | none => rfl
  | some method =>
    have hb := bind_world (x := x) (w := (w.onStore (·.newInstance c)).2)
      (v := .instanceRef w.store.instances.size) method
    simp only [Option.map_some]
    exact .trans
      (congrArg (fun p : Closure × World => enterFunction (x.host host) p.1 _ _ _ _ p.2) hb)
      (enterFunction_state _ arguments paren)

theorem call_state (callee : Value) (arguments : List Value) (paren : Mark) :
    call (x.host host) (x.value callee) (arguments.map x.value) (paren.mapLine x.line)
        (x.demand demand) (x.rest rest) (x.world w) =
      x.state (call host callee arguments paren demand rest w) := by
  unfold call
  rw [store_world, Placement.arity?_store h, List.length_map]
  split
  · rfl
  · split
    · rfl
    · cases callee with
      | function closure => exact enterFunction_state closure arguments paren
      | native fn => exact callNative_state fn paren
      | classRef c => exact construct_state h c arguments paren
      | _ => rfl

theorem nextArgument_state (callee : Value) (paren : Mark) (done : List Value)
    (arguments : List (Expr Address)) :
    nextArgument (x.host host) (x.value callee) (paren.mapLine x.line) (done.map x.value)
        (Expr.mapLinesAll x.line arguments) (x.frame env) (x.demand demand) (x.rest rest)
        (x.world w) =
      x.state (nextArgument host callee paren done arguments env demand rest w) := by
  cases arguments with
  | nil =>
    simp only [nextArgument, Expr.mapLinesAll, ← List.map_reverse]
    exact call_state h callee done.reverse paren
  | cons e more => rfl

theorem evalStep_state (e : Expr Address) :
    evalStep (e.mapLines x.line) (x.frame env) (x.demand demand) (x.rest rest) (x.world w) =
      x.state (evalStep e env demand rest w) := by
  cases e with
  | literal l => cases l <;> rfl
  | name mark ref => exact readName_state h
  | receiver keyword ref => exact readName_state h
  | inherited keyword method ref => exact getInherited_state h keyword method
  | _ => rfl

theorem pendingStep_state (p : Pending) :
    pendingStep (x.host host) (x.value v) (x.pending p) (x.demand demand) (x.rest rest)
        (x.world w) =
      x.state (pendingStep host v p demand rest w) := by
  cases p with
  | unary op mark =>
    simp only [pendingStep, Placement.pending, Placement.apply_unary_value]
    exact outcome_state _
  | left op mark right env => rfl
  | right op mark left =>
    simp only [pendingStep, Placement.pending, store_world, Placement.apply_binary_store]
    exact outcome_state _
  | logical op right env =>
    simp only [pendingStep, Placement.pending, Placement.decides_value]
    split <;> rfl
  | conditional yes no env =>
    simp only [pendingStep, Placement.pending, Placement.isTruthy_value]
    cases v.isTruthy <;> rfl
  | assign mark ref env => exact assignName_state h
  | get property => exact getProperty_state h v property
  | setObject property e env =>
    have hf : hasFields (x.value v) = hasFields v := by cases v <;> rfl
    simp only [pendingStep, Placement.pending, hf]
    split <;> rfl
  | setValue object property => exact setField_state object property
  | callee paren arguments env => exact nextArgument_state h v paren [] arguments
  | argument callee paren done more env =>
    exact nextArgument_state h callee paren (v :: done) more

end

/-! ### Statements -/

theorem useStep_state (u : Use) :
    useStep (x.value v) (x.use u) (x.rest rest) (x.world w) = x.state (useStep v u rest w) := by
  cases u with
  | echo =>
    change
      flow .normal (x.rest rest) (if w.echo then (x.world w).print (x.value v) else x.world w) =
        flow .normal (x.rest rest) (x.world (if w.echo then w.print v else w))
    rw [print_world, apply_ite x.world]
  | print => exact congrArg (flow .normal (x.rest rest)) print_world
  | define y env => exact congrArg (flow .normal (x.rest rest)) (define_world env y)
  | branch yes no env =>
    simp only [useStep, Placement.use, Placement.isTruthy_value]
    cases v.isTruthy <;> cases no <;> rfl
  | test condition body env =>
    simp only [useStep, Placement.use, Placement.isTruthy_value]
    cases v.isTruthy <;> rfl
  | ret => rfl

theorem declareMethods_map (env : FrameId) (methods : List (Method Address))
    (declared : Table Closure) :
    declareMethods (x.frame env) (Method.mapLinesAll x.line methods) (declared.map x.closure) =
      ((declareMethods env methods declared).map (Table.map x.closure)).mapError
        (Mark.mapLine x.line) := by
  induction methods generalizing declared with
  | nil => rfl
  | cons method methods ih =>
    obtain ⟨static, name, fn⟩ := method
    let closure : Closure :=
      { name := name.lexeme, kind := if static then .staticMethod else .method, fn, frame := env,
        initializer := !static && name.lexeme = "init" }
    change (if (declared.map x.closure).contains name.lexeme then .error (name.mapLine x.line)
        else declareMethods (x.frame env) (Method.mapLinesAll x.line methods)
          ((declared.map x.closure).insert name.lexeme (x.closure closure))) =
      ((if declared.contains name.lexeme then .error name
        else declareMethods env methods (declared.insert name.lexeme closure)).map
          (Table.map x.closure)).mapError (Mark.mapLine x.line)
    rw [Table.contains_map, ← Table.map_insert, ih]
    cases declared.contains name.lexeme <;> rfl

theorem findSuperclass_store (h : w.store.Ordered) (superclass : Option (Mark × Address)) :
    findSuperclass (x.store w.store) (x.frame env)
        (superclass.map (Prod.map (Mark.mapLine x.line) id)) =
      ((findSuperclass w.store env superclass).map (Option.map x.classId)).mapError
        (Prod.map (Mark.mapLine x.line) id) := by
  cases superclass with
  | none => rfl
  | some named =>
    obtain ⟨mark, ref⟩ := named
    simp only [findSuperclass, Option.map_some, Prod.map, id, Mark.lexeme_mapLine,
      Placement.read_store h]
    cases w.store.read env ref mark.lexeme with
    | none => rfl
    | some v => cases v <;> rfl

theorem methodFrame_world (env : FrameId) (c? : Option ClassId) :
    (x.world w).onStore (methodFrame · (x.frame env) (c?.map x.classId)) =
      (x.frame (w.onStore (methodFrame · env c?)).1,
        x.world (w.onStore (methodFrame · env c?)).2) := by
  cases c? with
  | none => rfl
  | some c => exact newFrameWith_world (some env) [("super", .classRef c)]

/-- The last part of a class declaration, in the frame of the methods. -/
theorem newClass_state (inner : FrameId) (y : Text) (c? : Option ClassId)
    (methods : List (Method Address)) :
    (match declareMethods (x.frame inner) (Method.mapLinesAll x.line methods) ∅ with
      | .error mark => failAt mark .duplicateMethod (x.rest rest) (x.world w)
      | .ok declared =>
        let (c, w') := (x.world w).onStore (·.newClass y (c?.map x.classId) declared)
        .flow .normal (x.rest rest) (w'.define (x.frame env) y (.classRef c))) =
      x.state
        (match declareMethods inner methods ∅ with
          | .error mark => failAt mark .duplicateMethod rest w
          | .ok declared =>
            let (c, w') := w.onStore (·.newClass y c? declared)
            .flow .normal rest (w'.define env y (.classRef c))) := by
  have hm := declareMethods_map (x := x) inner methods ∅
  rw [Table.map_empty] at hm
  rw [hm]
  cases declareMethods inner methods ∅ with
  | error mark => rfl
  | ok declared =>
    have hc := newClass_world (x := x) (w := w) y c? declared
    have hd := define_world (x := x) (w := (w.onStore (·.newClass y c? declared)).2)
      (v := .classRef (w.onStore (·.newClass y c? declared)).1) env y
    simp only [Except.map, Except.mapError]
    rw [hc]
    exact congrArg (flow .normal (x.rest rest)) hd

theorem declareClass_state (h : w.store.Ordered) (name : Mark)
    (superclass : Option (Mark × Address)) (methods : List (Method Address)) :
    declareClass (name.mapLine x.line) (superclass.map (Prod.map (Mark.mapLine x.line) id))
        (Method.mapLinesAll x.line methods) (x.frame env) (x.rest rest) (x.world w) =
      x.state (declareClass name superclass methods env rest w) := by
  unfold declareClass
  rw [store_world, findSuperclass_store h]
  cases findSuperclass w.store env superclass with
  | error e => rfl
  | ok c? =>
    have hf := methodFrame_world (x := x) (w := w.define env name.lexeme .nil) env c?
    rw [← define_world, show x.value .nil = .nil from rfl] at hf
    simp only [Except.map, Except.mapError, Mark.lexeme_mapLine]
    rw [hf]
    exact newClass_state _ name.lexeme c? methods

/-! ### Modules -/

theorem follows_enterModule (path : Token) (name file source : Text) :
    x.Follows (enterModule host path name file source env rest w)
      (enterModule (x.host host) (path.mapLine x.line) name file source (x.frame env) (x.rest rest)
        (x.world w)) := by
  unfold enterModule
  dsimp only
  rw [Import.path_mapLine, Token.mark_mapLine, log_world, isFull_world]
  split
  · exact .same (fail _ rest _)
  · split
    · exact .same (fail _ rest _)
    · next hp =>
      rw [enter_world, onStore_world (x := x) (g := Store.newGlobals) Placement.newGlobals_store]
      exact .load hp _ (.importing _ :: rest) _

theorem follows_importModule (path : Token) (asName : Option Mark) :
    x.Follows (importModule host path asName env rest w)
      (importModule (x.host host) (path.mapLine x.line) (asName.map (Mark.mapLine x.line))
        (x.frame env) (x.rest rest) (x.world w)) := by
  unfold importModule
  rw [Import.path_mapLine, Import.name_mapLine, show (x.host host).modules = host.modules from rfl]
  dsimp only
  split
  · exact .same (fail _ rest w)
  · split
    · exact .same (fail _ rest _)
    · exact .same (fail _ rest _)
    · exact follows_enterModule path _ _ _

theorem bindModule_state (i : Importing) (hd : 0 < w.depth) :
    bindModule (x.importing i) (x.rest rest) (x.world w) = x.state (bindModule i rest w) := by
  have hn : (x.world w).store.names (x.frame i.loaded.globals) = w.store.names i.loaded.globals :=
    Placement.names_store
  have hv : Value.moduleRef (x.importing i).loaded = x.value (.moduleRef i.loaded) := rfl
  have he : (x.importing i).env = x.frame i.env := rfl
  unfold bindModule
  dsimp only
  rw [show (x.importing i).loaded.globals = x.frame i.loaded.globals from rfl, hn, leave_world hd,
    log_world, hv, he, define_world]
  rfl

/-! ### The steps -/

theorem follows_execStep (h : w.store.Ordered) (s : Stmt Address) :
    x.Follows (execStep host s env rest w)
      (execStep (x.host host) (s.mapLines x.line) (x.frame env) (x.rest rest) (x.world w)) := by
  cases s with
  | expression e => exact .same (eval e env _ rest w)
  | print e => exact .same (eval e env _ rest w)
  | varDecl name initial =>
    refine .of_eq ?_
    have hb : (x.world w).store.binds (x.frame env) (name.mapLine x.line).lexeme =
      w.store.binds env name.lexeme := Placement.binds_store
    cases initial with
    | none =>
      simp only [execStep, Stmt.mapLines, hb]
      split
      · rfl
      · exact congrArg (flow .normal (x.rest rest)) (define_world (v := .nil) env name.lexeme)
    | some e =>
      simp only [execStep, Stmt.mapLines, hb]
      split <;> rfl
  | block body =>
    have hf := newFrame_world (x := x) (w := w) (some env)
    exact .of_eq (congrArg (fun p : FrameId × World =>
      State.flow .normal (.block (Stmt.mapLinesAll x.line body) p.1 :: x.rest rest) p.2) hf)
  | branch c yes no => cases no <;> exact .same (eval c env _ rest w)
  | loop c body => exact .same (eval c env _ rest w)
  | ret keyword e =>
    cases e with
    | none => exact .same (flow (.returned .nil) rest w)
    | some e => exact .same (eval e env _ rest w)
  | brk keyword => exact .same (flow .broke rest w)
  | funDecl name fn =>
    refine .of_eq (congrArg (flow .normal (x.rest rest)) ?_)
    exact define_world (v := .function { name := name.lexeme, kind := .function, fn, frame := env })
      env name.lexeme
  | classDecl name superclass methods =>
    cases superclass with
    | none => exact .of_eq (declareClass_state h name none methods)
    | some named => exact .of_eq (declareClass_state h name (some named) methods)
  | importDecl path asName => exact follows_importModule path asName

theorem callResult_value (closure : Closure) (f : Flow) (s : Store) :
    callResult (x.closure closure) (x.flow f) (x.store s) = x.value (callResult closure f s) := by
  unfold callResult
  rw [show (x.closure closure).initializer = closure.initializer from rfl,
    show (x.closure closure).frame = x.frame closure.frame from rfl, Placement.lookup_store]
  split
  · cases s.lookup closure.frame "this" <;> rfl
  · cases f <;> rfl

theorem flowStep_state {r : Resume} (h : w.Holds d (r :: rest)) (f : Flow) :
    flowStep (x.flow f) (x.resume r) (x.rest rest) (x.world w) = x.state (flowStep f r rest w) := by
  cases r with
  | block body env => cases body <;> cases f <;> rfl
  | loop condition body env => cases f <;> rfl
  | program more env => cases more <;> cases f <;> rfl
  | call closure demand =>
    have hv := callResult_value (x := x) closure f w.store
    have hl := leave_world (x := x) (h.depth_pos rfl)
    change value (callResult _ _ (x.store w.store)) (x.demand demand) (x.rest rest)
      (x.world w).leave = _
    rw [hv, hl]
    rfl
  | importing i => exact bindModule_state i (h.depth_pos rfl)

theorem failStep_state {r : Resume} (h : w.Holds d (r :: rest)) (f : Failure) :
    failStep (f.mapLine x.line) (x.resume r) (x.rest rest) (x.world w) =
      x.state (failStep f r rest w) := by
  cases r with
  | call closure demand =>
    exact congrArg (fail (f.mapLine x.line) (x.rest rest)) (leave_world (h.depth_pos rfl))
  | importing i =>
    exact congrArg
      (fun w : World => fail (f.mapLine x.line) (x.rest rest) { w with echo := i.echo })
      (leave_world (h.depth_pos rfl))
  | _ => rfl

/-- A step of a run inside a larger one follows the step of the run by itself. -/
theorem follows_step {s : State} (h : s.Within d) (hf : s.isFinal = false) :
    x.Follows (s.step host) ((x.state s).step (x.host host)) := by
  cases s with
  | eval e env demand rest w => exact .of_eq (evalStep_state h.1.store e)
  | value v demand rest w =>
    obtain ⟨pending, use⟩ := demand
    cases pending with
    | nil => exact .of_eq (useStep_state use)
    | cons p pending =>
      refine .of_eq ?_
      change pendingStep (x.host host) (x.value v) (x.pending p) (x.demand ⟨pending, use⟩)
        (x.rest rest) (x.world w) = x.state (pendingStep host v p ⟨pending, use⟩ rest w)
      exact pendingStep_state h.1.store p
  | exec s env rest w => exact follows_execStep h.1.store s
  | flow f rest w =>
    cases rest with
    | nil => cases hf
    | cons r rest => exact .of_eq (flowStep_state h.1 f)
  | fail f rest w =>
    cases rest with
    | nil => cases hf
    | cons r rest => exact .of_eq (failStep_state h f)

/-! ### Runs with the same lines -/

variable {s t u : State}

theorem world_state : (x.state s).world = x.world s.world := by
  cases s <;> rfl

theorem Follows.eq (h : x.Follows s t) (hx : x.line = id) : t = x.state s := by
  cases h with
  | same s => rfl
  | load _ globals rest w =>
    simp [state, Placement.flow, Embedding.rest, Placement.resume, hx]

theorem step_state (hx : x.line = id) (h : s.Within d) (hf : s.isFinal = false) :
    (x.state s).step (x.host host) = x.state (s.step host) :=
  (follows_step h hf).eq hx

/-- A run that has not ended goes in step with the larger run. -/
theorem run_state (hx : x.line = id) (h : s.Within d) {n : Nat}
    (hf : (s.run host n).isFinal = false) :
    (x.state s).run (x.host host) n = x.state (s.run host n) := by
  induction n generalizing s with
  | zero => rfl
  | succ n ih =>
    have hs : s.isFinal = false := by
      by_cases hs : s.isFinal = true
      · rw [run_of_isFinal hs, hs] at hf
        cases hf
      · simpa using hs
    rw [run_succ] at hf ⊢
    rw [step_state hx h hs, ih h.step hf, run_succ]

theorem exists_returned (h : (x.state s).Returned rest) :
    ∃ more, x.rest more = rest ∧ s.Returned more := by
  cases s with
  | flow f more w => exact ⟨more, returned_flow_iff.mp h, .flow f w⟩
  | fail f more w => exact ⟨more, returned_fail_iff.mp h, .fail f w⟩
  | _ => cases h

theorem length_rest (more : List Resume) :
    (x.rest more).length = more.length + x.tail.length := by
  simp [Embedding.rest]

/-- While a run has not ended, more waits in the larger run than what goes on after it. -/
theorem not_returned (hf : s.isFinal = false) (hr : rest.length ≤ x.tail.length) :
    ¬ (x.state s).Returned rest := by
  intro h
  obtain ⟨more, rfl, hs⟩ := exists_returned h
  rw [length_rest] at hr
  obtain rfl : more = [] := List.length_eq_zero_iff.mp (by omega)
  rw [returned_nil_iff.mp hs] at hf
  cases hf

/-- If a run ends and the larger run goes on from there until it has finished, it does so from the
start. -/
theorem finishes_of_state (hx : x.line = id) (h : s.Within d) (hr : rest.length ≤ x.tail.length)
    (hu : s.Finishes host [] u) (ht : (x.state u).Finishes (x.host host) rest t) :
    (x.state s).Finishes (x.host host) rest t := by
  induction hu with
  | here _ => exact ht
  | @step s u hs _ ih =>
    have hf : s.isFinal = false := by simpa [returned_nil_iff] using hs
    refine .step (not_returned hf hr) ?_
    rw [step_state hx h hf]
    exact ih h.step ht

/-- If the larger run finishes, a run inside it has ended before. -/
theorem exists_finishes (hx : x.line = id) (h : s.Within d) (hr : rest.length < x.tail.length)
    (ht : (x.state s).Finishes (x.host host) rest t) :
    ∃ u, s.Finishes host [] u ∧ (x.state u).Finishes (x.host host) rest t := by
  generalize hs : x.state s = s' at ht
  induction ht generalizing s with
  | here hreturned =>
    subst hs
    obtain ⟨more, rfl, -⟩ := exists_returned hreturned
    rw [length_rest] at hr
    omega
  | @step s' t hn htail ih =>
    by_cases hf : s.isFinal = true
    · exact ⟨s, .here (returned_nil_iff.mpr hf), hs ▸ .step hn htail⟩
    · have hf' : s.isFinal = false := by simpa using hf
      subst hs
      rw [step_state hx h hf'] at ih
      obtain ⟨u, hu, hu'⟩ := ih h.step rfl
      exact ⟨u, .step (fun hr => hf (returned_nil_iff.mp hr)) hu, hu'⟩

end Embedding

end Lox
