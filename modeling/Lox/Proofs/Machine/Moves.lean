import Lox.Proofs.Machine.Opening
import Lox.Proofs.Store.Growth

/-!
# What steps do

Every step of a run is one of a few dozen moves. A move says what is done, what is found in the
store for it, and which frames are opened; whatever a step preserves is proved move by move.
-/

namespace Lox

/-! ### Plain values -/

/-- A value that refers to nothing. -/
def Value.IsPlain : Value → Prop
  | .nil => True
  | .bool _ => True
  | .number _ => True
  | .string _ => True
  | _ => False

theorem Value.IsPlain.ne_function {v : Value} (h : v.IsPlain) (c : Closure) :
    v ≠ .function c := by
  rintro rfl
  exact h

theorem Value.isPlain_ofLiteral (l : Literal) : (Value.ofLiteral l).IsPlain := by
  cases l <;> trivial

/-- The result of an operator is its right operand or plain data. -/
theorem BinaryOp.apply_eq_ok {store : Store} {op : BinaryOp} {left right v : Value}
    (h : op.apply store left right = .ok v) : v = right ∨ v.IsPlain := by
  unfold BinaryOp.apply at h
  split at h
  · exact Or.inl (Except.ok.inj h).symm
  · refine Or.inr ?_
    unfold BinaryOp.onNumbers at h
    split at h
    case h_11 | h_12 =>
      split at h
      · cases h
      · obtain rfl := Except.ok.inj h
        trivial
    all_goals
      obtain rfl := Except.ok.inj h
      trivial
  · split at h
    · obtain rfl := Except.ok.inj h
      exact Or.inr trivial
    · cases h
  · cases h

/-- The result of an operator with one operand is plain data. -/
theorem UnaryOp.isPlain_of_apply_eq_ok {op : UnaryOp} {operand v : Value}
    (h : op.apply operand = .ok v) : v.IsPlain := by
  cases op with
  | not =>
    cases h
    trivial
  | negate =>
    cases operand with
    | number x =>
      cases h
      trivial
    | _ => cases h

/-- What a native function reads from the input, and what is left of it. -/
def NativeFunction.read? (i : Input) : NativeFunction → Option (Except Fault Value × Input)
  | .clock => none
  | .read => some i.readText
  | .readNumber => some i.readNumber

theorem NativeFunction.isPlain_of_read? {fn : NativeFunction} {i i' : Input} {v : Value}
    (h : fn.read? i = some (.ok v, i')) : v.IsPlain := by
  cases fn with
  | clock => cases h
  | read =>
    have h : i.readText = (.ok v, i') := Option.some.inj h
    unfold Input.readText at h
    split at h <;> cases h <;> trivial
  | readNumber =>
    have h : i.readNumber = (.ok v, i') := Option.some.inj h
    unfold Input.readNumber at h
    dsimp only at h
    split at h
    · cases h
    · split at h <;> cases h
      trivial

/-! ### Faults about repeated names -/

/-- Whether a fault is that a name is there already. -/
def Fault.isRepetition : Fault → Bool
  | .alreadyDefined _ => true
  | .duplicateMethod => true
  | _ => false

theorem UnaryOp.isRepetition_of_apply {op : UnaryOp} {v : Value} {fault : Fault}
    (h : op.apply v = .error fault) : fault.isRepetition = false := by
  unfold UnaryOp.apply at h
  split at h <;> cases h
  rfl

theorem BinaryOp.isRepetition_of_apply {s : Store} {op : BinaryOp} {left right : Value}
    {fault : Fault} (h : op.apply s left right = .error fault) : fault.isRepetition = false := by
  unfold BinaryOp.apply at h
  split at h
  · cases h
  · unfold BinaryOp.onNumbers at h
    split at h <;> try cases h
    all_goals
      split at h <;> cases h
      rfl
  · split at h <;> cases h
    rfl
  · cases h
    rfl

theorem NativeFunction.isRepetition_of_read? {fn : NativeFunction} {i i' : Input} {fault : Fault}
    (h : fn.read? i = some (.error fault, i')) : fault.isRepetition = false := by
  cases fn with
  | clock => cases h
  | read =>
    have h : i.readText = (.error fault, i') := Option.some.inj h
    unfold Input.readText at h
    split at h <;> cases h
    rfl
  | readNumber =>
    have h : i.readNumber = (.error fault, i') := Option.some.inj h
    unfold Input.readNumber at h
    dsimp only at h
    split at h
    · cases h
      rfl
    · split at h <;> cases h
      rfl

/-! ### What is done next -/

/-- The expression that is evaluated first for another one, and what then waits for its value. -/
def Expr.part? (env : FrameId) : Expr Address → Option (Expr Address × Pending)
  | .unary op mark operand => some (operand, .unary op mark)
  | .binary op mark left right => some (left, .left op mark right env)
  | .logical op _ left right => some (left, .logical op right env)
  | .conditional c yes no => some (c, .conditional yes no env)
  | .assign mark ref v => some (v, .assign mark ref env)
  | .get object property => some (object, .get property)
  | .set object property v => some (object, .setObject property v env)
  | .call callee paren arguments => some (callee, .callee paren arguments env)
  | _ => none

/-- The expression that is evaluated for a statement, and what the statement does with its value. -/
def Stmt.part? (env : FrameId) : Stmt Address → Option (Expr Address × Use)
  | .expression e => some (e, .echo)
  | .print e => some (e, .print)
  | .varDecl name (some e) => some (e, .define name.lexeme env)
  | .branch c yes no => some (c, .branch yes no env)
  | .loop c body => some (c, .test c body env)
  | .ret _ (some e) => some (e, .ret)
  | _ => none

/-- What a declaration binds at once. -/
def Stmt.binding? (env : FrameId) : Stmt Address → Option (Text × Value)
  | .varDecl name none => some (name.lexeme, .nil)
  | .funDecl name fn =>
    some (name.lexeme, .function { name := name.lexeme, kind := .function, fn, frame := env })
  | _ => none

/-- The call that a value is handed to: what is called and where, the arguments that are done,
latest first, and those that are left, with their frame. -/
def Pending.call? (v : Value) :
    Pending → Option (Value × Mark × List Value × List (Expr Address) × FrameId)
  | .callee paren arguments env => some (v, paren, [], arguments, env)
  | .argument f paren done more env => some (f, paren, v :: done, more, env)
  | _ => none

/-- A value handed to a call is what is called, or its latest argument. -/
theorem Pending.eq_of_call? {p : Pending} {v callee : Value} {paren : Mark} {done : List Value}
    {more : List (Expr Address)} {env : FrameId}
    (h : p.call? v = some (callee, paren, done, more, env)) :
    (p = .callee paren more env ∧ callee = v ∧ done = []) ∨
      ∃ before, p = .argument callee paren before more env ∧ done = v :: before := by
  cases p with
  | callee paren arguments env =>
    cases h
    exact .inl ⟨rfl, rfl, rfl⟩
  | argument f paren before more env =>
    cases h
    exact .inr ⟨before, rfl, rfl⟩
  | _ => cases h

namespace State

/-- What waits to go on. -/
def waiting : State → List Resume
  | eval _ _ _ rest _ => rest
  | value _ _ rest _ => rest
  | exec _ _ rest _ => rest
  | flow _ rest _ => rest
  | fail _ rest _ => rest

/-- Whether something is being done that can fail. -/
def isActing : State → Bool
  | flow _ _ _ => false
  | fail _ _ _ => false
  | _ => true

/-- The body of a function has been entered. -/
def entered (closure : Closure) (arguments : List Value) (demand : Demand) (rest : List Resume)
    (w : World) : State :=
  flow .normal (.block closure.fn.body w.store.frames.size :: .call closure demand :: rest)
    { w.enter with
      store := (w.store.newFrameWith (some closure.frame)
        ((closure.fn.params.map Mark.lexeme).zip arguments)).2 }

/-- The store with a new instance and its initializer, bound to the instance. -/
def initialized (s : Store) (c : ClassId) (method : Closure) : Store :=
  ((s.newInstance c).2.bind method (.instanceRef s.instances.size)).2

/-- The frame in which the methods of a class are created, and the world with the class name bound
and with that frame. -/
def classFrame (w : World) (name : Mark) (env : FrameId) (c? : Option ClassId) : FrameId × World :=
  (w.define env name.lexeme .nil).onStore (methodFrame · env c?)

/-- The import of a module whose globals are to be created. -/
def loading (w : World) (path : Token) (asName : Option Mark) (file : Text) (env : FrameId) :
    Importing :=
  ⟨Import.path path, ⟨Import.name path asName, file, w.store.frames.size⟩, env, w.echo⟩

/-- The moves of a run. -/
inductive Moves (host : Host) : State → List Origin → State → Prop
  -- expressions
  | literal {l env demand rest w} :
      Moves host (eval (.literal l) env demand rest w) [] (value (.ofLiteral l) demand rest w)
  | function {keyword fn env demand rest w} :
      Moves host (eval (.function keyword fn) env demand rest w) []
        (value (.function { name := [], kind := .function, fn, frame := env }) demand rest w)
  | group {e env demand rest w} :
      Moves host (eval (.group e) env demand rest w) [] (eval e env demand rest w)
  | part {e e' p env demand rest w} : e.part? env = some (e', p) →
      Moves host (eval e env demand rest w) [] (eval e' env (demand.push p) rest w)
  | read {e mark ref env demand rest w v} : e = .name mark ref ∨ e = .receiver mark ref →
      w.store.read env ref mark.lexeme = some v →
      Moves host (eval e env demand rest w) [] (value v demand rest w)
  | inherited {keyword method d env demand rest w superclass receiver closure} :
      w.store.getAt env d "super" = some (.classRef superclass) →
      w.store.getAt env (d - 1) "this" = some receiver →
      w.store.inherited superclass receiver method.lexeme = some closure →
      Moves host (eval (.inherited keyword method (some d)) env demand rest w)
        [.receiver closure.fn] (bindMethod closure receiver demand rest w)
  -- operators and properties
  | unary {v op mark ps u rest w v'} : v'.IsPlain →
      Moves host (value v ⟨.unary op mark :: ps, u⟩ rest w) [] (value v' ⟨ps, u⟩ rest w)
  | left {v op mark e env ps u rest w} :
      Moves host (value v ⟨.left op mark e env :: ps, u⟩ rest w) []
        (eval e env ⟨.right op mark v :: ps, u⟩ rest w)
  | right {v op mark left ps u rest w v'} : v' = v ∨ v'.IsPlain →
      Moves host (value v ⟨.right op mark left :: ps, u⟩ rest w) [] (value v' ⟨ps, u⟩ rest w)
  | decided {v op e env ps u rest w} :
      Moves host (value v ⟨.logical op e env :: ps, u⟩ rest w) [] (value v ⟨ps, u⟩ rest w)
  | undecided {v op e env ps u rest w} :
      Moves host (value v ⟨.logical op e env :: ps, u⟩ rest w) [] (eval e env ⟨ps, u⟩ rest w)
  | chosen {v e yes no env ps u rest w} : e = yes ∨ e = no →
      Moves host (value v ⟨.conditional yes no env :: ps, u⟩ rest w) [] (eval e env ⟨ps, u⟩ rest w)
  | assign {v mark ref env e ps u rest w} : w.store.writable env ref mark.lexeme = some e →
      Moves host (value v ⟨.assign mark ref env :: ps, u⟩ rest w) []
        (value v ⟨ps, u⟩ rest (w.define e mark.lexeme v))
  | field {v property ps u rest w v'} : w.store.property v property.lexeme = .value v' →
      Moves host (value v ⟨.get property :: ps, u⟩ rest w) [] (value v' ⟨ps, u⟩ rest w)
  | method {v property ps u rest w closure} : w.store.property v property.lexeme = .method closure →
      Moves host (value v ⟨.get property :: ps, u⟩ rest w) [.receiver closure.fn]
        (bindMethod closure v ⟨ps, u⟩ rest w)
  | object {v property e env ps u rest w} :
      Moves host (value v ⟨.setObject property e env :: ps, u⟩ rest w) []
        (eval e env ⟨.setValue v property :: ps, u⟩ rest w)
  | setClass {v c property ps u rest w} :
      Moves host (value v ⟨.setValue (.classRef c) property :: ps, u⟩ rest w) []
        (value v ⟨ps, u⟩ rest { w with store := w.store.setClassField c property.lexeme v })
  | setInstance {v i property ps u rest w} :
      Moves host (value v ⟨.setValue (.instanceRef i) property :: ps, u⟩ rest w) []
        (value v ⟨ps, u⟩ rest { w with store := w.store.setInstanceField i property.lexeme v })
  -- calls
  | argument {v p callee paren done e more env ps u rest w} :
      p.call? v = some (callee, paren, done, e :: more, env) →
      Moves host (value v ⟨p :: ps, u⟩ rest w) []
        (eval e env ⟨.argument callee paren done more env :: ps, u⟩ rest w)
  | call {v p closure paren done env ps u rest w} :
      p.call? v = some (.function closure, paren, done, [], env) →
      done.length = closure.fn.arity → w.isFull host = false →
      Moves host (value v ⟨p :: ps, u⟩ rest w) [.call closure.fn]
        (entered closure done.reverse ⟨ps, u⟩ rest w)
  | callOverflow {v p closure paren done env ps u rest w} :
      p.call? v = some (.function closure, paren, done, [], env) → done.length = closure.fn.arity →
      w.isFull host = true → Moves host (value v ⟨p :: ps, u⟩ rest w) [] (fail (.overflow paren) rest w)
  | clock {v p paren env ps u rest w} : p.call? v = some (.native .clock, paren, [], [], env) →
      Moves host (value v ⟨p :: ps, u⟩ rest w) []
        (value (.number w.clock.read.1) ⟨ps, u⟩ rest { w with clock := w.clock.read.2 })
  | readInput {v p fn paren env ps u rest w v' input} :
      p.call? v = some (.native fn, paren, [], [], env) →
      fn.read? w.input = some (.ok v', input) →
      Moves host (value v ⟨p :: ps, u⟩ rest w) [] (value v' ⟨ps, u⟩ rest { w with input })
  | noInput {v p fn paren env ps u rest w fault input} :
      p.call? v = some (.native fn, paren, [], [], env) →
      fn.read? w.input = some (.error fault, input) →
      Moves host (value v ⟨p :: ps, u⟩ rest w) [] (failAt paren fault rest { w with input })
  | newInstance {v p c paren env ps u rest w} : p.call? v = some (.classRef c, paren, [], [], env) →
      w.store.findMethod c "init" = none →
      Moves host (value v ⟨p :: ps, u⟩ rest w) []
        (value (.instanceRef w.store.instances.size) ⟨ps, u⟩ rest
          { w with store := (w.store.newInstance c).2 })
  | construct {v p c paren done env ps u rest w method} :
      p.call? v = some (.classRef c, paren, done, [], env) →
      w.store.findMethod c "init" = some method → done.length = method.fn.arity →
      w.isFull host = false →
      Moves host (value v ⟨p :: ps, u⟩ rest w) [.receiver method.fn, .call method.fn]
        (entered { method with frame := w.store.frames.size } done.reverse ⟨ps, u⟩ rest
          { w with store := initialized w.store c method })
  | constructOverflow {v p c paren done env ps u rest w method} :
      p.call? v = some (.classRef c, paren, done, [], env) →
      w.store.findMethod c "init" = some method → done.length = method.fn.arity →
      w.isFull host = true →
      Moves host (value v ⟨p :: ps, u⟩ rest w) [.receiver method.fn]
        (fail (.overflow paren) rest { w with store := initialized w.store c method })
  -- statements that have their value
  | shown {v u rest w w'} : u = .echo ∨ u = .print → w' = w ∨ w' = w.print v →
      Moves host (value v ⟨[], u⟩ rest w) [] (flow .normal rest w')
  | defined {v x env rest w} :
      Moves host (value v ⟨[], .define x env⟩ rest w) [] (flow .normal rest (w.define env x v))
  | branch {v s yes no env rest w} : s = yes ∨ no = some s →
      Moves host (value v ⟨[], .branch yes no env⟩ rest w) [] (exec s env rest w)
  | noBranch {v yes env rest w} :
      Moves host (value v ⟨[], .branch yes none env⟩ rest w) [] (flow .normal rest w)
  | round {v condition body env rest w} :
      Moves host (value v ⟨[], .test condition body env⟩ rest w) []
        (exec body env (.loop condition body env :: rest) w)
  | noRound {v condition body env rest w} :
      Moves host (value v ⟨[], .test condition body env⟩ rest w) [] (flow .normal rest w)
  | result {v rest w} : Moves host (value v ⟨[], .ret⟩ rest w) [] (flow (.returned v) rest w)
  -- statements
  | demand {s e u env rest w} : s.part? env = some (e, u) →
      (∀ name initial, s = .varDecl name initial → w.store.binds env name.lexeme = false) →
      Moves host (exec s env rest w) [] (eval e env ⟨[], u⟩ rest w)
  | bind {s x v env rest w} : s.binding? env = some (x, v) →
      (∀ name initial, s = .varDecl name initial → w.store.binds env name.lexeme = false) →
      Moves host (exec s env rest w) [] (flow .normal rest (w.define env x v))
  | redeclare {name initial env rest w} : w.store.binds env name.lexeme = true →
      Moves host (exec (.varDecl name initial) env rest w) []
        (failAt name (.alreadyDefined name.lexeme) rest w)
  | block {body env rest w} :
      Moves host (exec (.block body) env rest w) [.block body]
        (flow .normal (.block body w.store.frames.size :: rest)
          { w with store := (w.store.newFrame (some env)).2 })
  | ret {keyword env rest w} :
      Moves host (exec (.ret keyword none) env rest w) [] (flow (.returned .nil) rest w)
  | brk {keyword env rest w} : Moves host (exec (.brk keyword) env rest w) [] (flow .broke rest w)
  | declareClass {name superclass methods env rest w c? table} :
      findSuperclass w.store env superclass = .ok c? →
      declareMethods (classFrame w name env c?).1 methods ∅ = .ok table →
      Moves host (exec (.classDecl name superclass methods) env rest w)
        (if c?.isSome then [.superclass methods] else [])
        (flow .normal rest
          (World.define { (classFrame w name env c?).2 with
            store := ((classFrame w name env c?).2.store.newClass name.lexeme c? table).2 }
            env name.lexeme
            (.classRef ((classFrame w name env c?).2.store.newClass name.lexeme c? table).1)))
  | repeatMethod {name superclass methods env rest w c? mark} :
      findSuperclass w.store env superclass = .ok c? →
      declareMethods (classFrame w name env c?).1 methods ∅ = .error mark →
      Moves host (exec (.classDecl name superclass methods) env rest w)
        (if c?.isSome then [.superclass methods] else [])
        (failAt mark .duplicateMethod rest (classFrame w name env c?).2)
  | load {path asName env rest w file source program events} :
      Program.ofSource source = .ok program → w.isFull host = false →
      Moves host (exec (.importDecl path asName) env rest w) [.imported source]
        (flow .normal
          (.program program w.store.frames.size :: .importing (loading w path asName file env) :: rest)
          { w with store := w.store.newGlobals.2, depth := w.depth + 1, echo := false, events })
  | noLoad {path asName env rest w f events} :
      f = .overflow path.mark ∨
        (∃ why, f = .runtime path.mark (.importFailed (Import.path path) why)) →
      Moves host (exec (.importDecl path asName) env rest w) [] (fail f rest { w with events })
  -- statements that have finished
  | next {s more env rest w} :
      Moves host (flow .normal (.block (s :: more) env :: rest) w) []
        (exec s env (.block more env :: rest) w)
  | leave {f body env rest w} : Moves host (flow f (.block body env :: rest) w) [] (flow f rest w)
  | again {condition body env rest w} :
      Moves host (flow .normal (.loop condition body env :: rest) w) []
        (eval condition env ⟨[], .test condition body env⟩ rest w)
  | broke {condition body env rest w} :
      Moves host (flow .broke (.loop condition body env :: rest) w) [] (flow .normal rest w)
  | returned {v condition body env rest w} :
      Moves host (flow (.returned v) (.loop condition body env :: rest) w) []
        (flow (.returned v) rest w)
  | nextTop {f s more env rest w} :
      Moves host (flow f (.program (s :: more) env :: rest) w) []
        (exec s env (.program more env :: rest) w)
  | leaveTop {f env rest w} :
      Moves host (flow f (.program [] env :: rest) w) [] (flow .normal rest w)
  | answer {f closure demand rest w} :
      Moves host (flow f (.call closure demand :: rest) w) []
        (value (callResult closure f w.store) demand rest w.leave)
  | imported {f i rest w} : Moves host (flow f (.importing i :: rest) w) [] (bindModule i rest w)
  -- failures and ends
  | fails {s mark fault} : s.isActing = true → fault.isRepetition = false →
      Moves host s [] (failAt mark fault s.waiting s.world)
  | unwind {f r rest w} : Moves host (fail f (r :: rest) w) [] (failStep f r rest w)
  | ended {s} : s.isFinal = true → Moves host s [] s

variable {host : Host} {w : World} {env : FrameId} {demand : Demand} {rest : List Resume}
variable {v : Value}

/-! ### Every step is a move -/

theorem moves_evalStep (e : Expr Address) :
    Moves host (eval e env demand rest w) ((eval e env demand rest w).opens host)
      (evalStep e env demand rest w) := by
  cases e with
  | literal l => exact .literal
  | function keyword fn => exact .function
  | group inner => exact .group
  | name mark ref | receiver mark ref =>
    unfold evalStep readName
    dsimp only
    split
    · next hv => exact .read (by simp) hv
    · exact .fails rfl rfl
  | inherited keyword method ref =>
    unfold evalStep getInherited opens opensInherited
    cases ref with
    | none => exact .fails rfl rfl
    | some d =>
      dsimp only
      cases hsuper : w.store.getAt env d "super" with
      | none => exact .fails rfl rfl
      | some found =>
        cases found with
        | classRef superclass =>
          dsimp only
          cases hthis : w.store.getAt env (d - 1) "this" with
          | none => exact .fails rfl rfl
          | some receiver =>
            dsimp only
            cases hm : w.store.inherited superclass receiver method.lexeme with
            | none => exact .fails rfl rfl
            | some closure => exact .inherited hsuper hthis hm
        | _ => exact .fails rfl rfl
  | _ => exact .part rfl

section Calls

variable {p : Pending} {ps : List Pending} {u : Use} {callee : Value} {paren : Mark}
variable {done : List Value}

theorem enterFunction_eq (closure : Closure) (arguments : List Value) :
    enterFunction host closure arguments paren demand rest w =
      if w.isFull host then fail (.overflow paren) rest w
      else entered closure arguments demand rest w := rfl

theorem moves_call (h : p.call? v = some (callee, paren, done, [], env)) :
    Moves host (value v ⟨p :: ps, u⟩ rest w) (opensCall host callee done.reverse w)
      (call host callee done.reverse paren ⟨ps, u⟩ rest w) := by
  unfold call opensCall
  cases harity : w.store.arity? callee with
  | none => exact .fails rfl rfl
  | some arity =>
    dsimp only
    by_cases hlen : done.reverse.length = arity
    · subst hlen
      rw [if_pos rfl, if_neg (not_not_intro rfl)]
      rw [List.length_reverse] at harity
      cases callee with
      | function closure =>
        have hlen : done.length = closure.fn.arity := (Option.some.inj harity).symm
        dsimp only [opensBody]
        rw [enterFunction_eq]
        by_cases hfull : w.isFull host = true
        · rw [if_pos hfull, if_pos hfull]
          exact .callOverflow h hlen hfull
        · rw [if_neg hfull, if_neg hfull]
          exact .call h hlen (Bool.eq_false_iff.mpr hfull)
      | native fn =>
        obtain rfl : done = [] := List.length_eq_zero_iff.mp (Option.some.inj harity).symm
        have read : ∀ result input, fn.read? w.input = some (result, input) →
            Moves host (value v ⟨p :: ps, u⟩ rest w) []
              (outcome paren result ⟨ps, u⟩ rest { w with input }) := by
          intro result input hread
          cases result with
          | ok v' => exact .readInput h hread
          | error fault => exact .noInput h hread
        cases fn with
        | clock => exact .clock h
        | read => exact read _ _ rfl
        | readNumber => exact read _ _ rfl
      | classRef c =>
        have hfind : (w.store.newInstance c).2.findMethod c "init" =
            w.store.findMethod c "init" := Store.findMethod_congr (by rfl) c _
        dsimp only [construct, opensInstance, World.onStore]
        rw [hfind]
        cases hm : w.store.findMethod c "init" with
        | none =>
          have hlen : done.length = 0 := by simpa [Store.arity?, hm] using harity.symm
          obtain rfl := List.length_eq_zero_iff.mp hlen
          exact .newInstance h hm
        | some method =>
          have hlen : done.length = method.fn.arity := by
            simpa [Store.arity?, hm] using harity.symm
          have hsame : World.isFull { w with store := initialized w.store c method } host =
            w.isFull host := rfl
          show Moves host _ (.receiver method.fn :: opensBody host method w)
            (enterFunction host { method with frame := w.store.frames.size } done.reverse paren
              ⟨ps, u⟩ rest { w with store := initialized w.store c method })
          rw [enterFunction_eq, opensBody, hsame]
          by_cases hfull : w.isFull host = true
          · rw [if_pos hfull, if_pos hfull]
            exact .constructOverflow h hm hlen hfull
          · rw [if_neg hfull, if_neg hfull]
            exact .construct h hm hlen (Bool.eq_false_iff.mpr hfull)
      | _ => exact .fails rfl rfl
    · have hne : ¬ some arity = some done.reverse.length := fun h => hlen (Option.some.inj h).symm
      rw [if_pos hlen, if_neg hne]
      exact .fails rfl rfl

theorem moves_pendingStep (p : Pending) :
    Moves host (value v ⟨p :: ps, u⟩ rest w) ((value v ⟨p :: ps, u⟩ rest w).opens host)
      (pendingStep host v p ⟨ps, u⟩ rest w) := by
  cases p with
  | unary op mark =>
    show Moves host _ [] (outcome mark (op.apply v) ⟨ps, u⟩ rest w)
    cases happly : op.apply v with
    | ok v' => exact .unary (UnaryOp.isPlain_of_apply_eq_ok happly)
    | error fault => exact .fails rfl (UnaryOp.isRepetition_of_apply happly)
  | left op mark right env => exact .left
  | right op mark left =>
    show Moves host _ [] (outcome mark (op.apply w.store left v) ⟨ps, u⟩ rest w)
    cases happly : op.apply w.store left v with
    | ok v' => exact .right (BinaryOp.apply_eq_ok happly)
    | error fault => exact .fails rfl (BinaryOp.isRepetition_of_apply happly)
  | logical op right env =>
    unfold pendingStep
    dsimp only
    split
    · exact .decided
    · exact .undecided
  | conditional yes no env =>
    refine .chosen ?_
    split
    · exact .inl rfl
    · exact .inr rfl
  | assign mark ref env =>
    unfold pendingStep assignName
    dsimp only
    split
    · next he => exact .assign he
    · exact .fails rfl rfl
  | get property =>
    unfold pendingStep getProperty opens opensProperty
    dsimp only
    cases hp : w.store.property v property.lexeme with
    | value v' => exact .field hp
    | method closure => exact .method hp
    | undefined | noProperties => exact .fails rfl rfl
  | setObject property e env =>
    unfold pendingStep
    dsimp only
    split
    · exact .object
    · exact .fails rfl rfl
  | setValue object property =>
    cases object with
    | classRef c => exact .setClass
    | instanceRef i => exact .setInstance
    | _ => exact .fails rfl rfl
  | callee paren arguments env =>
    cases arguments with
    | nil => exact moves_call (p := .callee paren [] env) rfl
    | cons e more => exact .argument rfl
  | argument callee paren done more env =>
    cases more with
    | nil => exact moves_call (p := .argument callee paren done [] env) rfl
    | cons e more => exact .argument rfl

end Calls

theorem moves_useStep (u : Use) :
    Moves host (value v ⟨[], u⟩ rest w) [] (useStep v u rest w) := by
  cases u with
  | echo =>
    refine .shown (.inl rfl) ?_
    split
    · exact .inr rfl
    · exact .inl rfl
  | print => exact .shown (.inr rfl) (.inr rfl)
  | define x env => exact .defined
  | branch yes no env =>
    unfold useStep
    dsimp only
    split
    · exact .branch (.inl rfl)
    · cases no with
      | none => exact .noBranch
      | some s => exact .branch (.inr rfl)
  | test condition body env =>
    unfold useStep
    dsimp only
    split
    · exact .round
    · exact .noRound
  | ret => exact .result

theorem isRepetition_of_findSuperclass {s : Store} {superclass : Option (Mark × Address)}
    {mark : Mark} {fault : Fault} (h : findSuperclass s env superclass = .error (mark, fault)) :
    fault.isRepetition = false := by
  unfold findSuperclass at h
  split at h
  · cases h
  · split at h <;> cases h <;> rfl

theorem moves_declareClass (name : Mark) (superclass : Option (Mark × Address))
    (methods : List (Method Address)) :
    Moves host (exec (.classDecl name superclass methods) env rest w)
      (opensClass superclass methods env w)
      (State.declareClass name superclass methods env rest w) := by
  unfold State.declareClass opensClass
  cases hfind : findSuperclass w.store env superclass with
  | error found => exact .fails rfl (isRepetition_of_findSuperclass hfind)
  | ok c? =>
    have hrepeat := @Moves.repeatMethod host name superclass methods env rest w c?
    have hdeclare := @Moves.declareClass host name superclass methods env rest w c?
    unfold classFrame at hrepeat hdeclare
    dsimp only
    generalize (w.define env name.lexeme .nil).onStore (methodFrame · env c?) = frame at *
    cases hm : declareMethods frame.1 methods ∅ with
    | error mark => cases c? <;> exact hrepeat hfind hm
    | ok table => cases c? <;> exact hdeclare hfind hm

theorem moves_importModule (path : Token) (asName : Option Mark) :
    Moves host (exec (.importDecl path asName) env rest w) (opensImport host path w)
      (importModule host path asName env rest w) := by
  unfold importModule opensImport
  cases host.modules with
  | none => exact .noLoad (.inr ⟨_, rfl⟩)
  | some locate =>
    dsimp only
    cases locate (Import.path path) with
    | missing reason | unreadable reason => exact .noLoad (.inr ⟨_, rfl⟩)
    | found file source =>
      have hlog : ∀ message fields, (w.log message fields).isFull host = w.isFull host :=
        fun _ _ => rfl
      unfold enterModule
      dsimp only
      rw [hlog]
      by_cases hfull : w.isFull host = true
      · rw [if_pos hfull, if_pos hfull]
        exact .noLoad (.inl rfl)
      · rw [if_neg hfull, if_neg hfull]
        cases hp : Program.ofSource source with
        | error why => exact .noLoad (.inr ⟨_, rfl⟩)
        | ok program => exact .load hp (Bool.eq_false_iff.mpr hfull)

theorem moves_execStep (s : Stmt Address) :
    Moves host (exec s env rest w) ((exec s env rest w).opens host) (execStep host s env rest w) := by
  cases s with
  | varDecl name initial =>
    unfold execStep
    dsimp only
    split
    · next hbinds => cases initial <;> exact .redeclare hbinds
    · next hbinds =>
      have hfree : ∀ name' initial', Stmt.varDecl name initial = .varDecl name' initial' →
          w.store.binds env name'.lexeme = false := by
        rintro _ _ ⟨⟩
        exact Bool.eq_false_iff.mpr hbinds
      cases initial with
      | none => exact .bind rfl hfree
      | some e => exact .demand rfl hfree
  | block body => exact .block
  | ret keyword e =>
    cases e with
    | none => exact .ret
    | some e => exact .demand rfl nofun
  | brk keyword => exact .brk
  | funDecl name fn => exact .bind rfl nofun
  | classDecl name superclass methods => exact moves_declareClass name superclass methods
  | importDecl path asName => exact moves_importModule path asName
  | _ => exact .demand rfl nofun

theorem moves_flowStep (f : Flow) (r : Resume) :
    Moves host (flow f (r :: rest) w) [] (flowStep f r rest w) := by
  cases r with
  | block body env =>
    cases body with
    | nil => cases f <;> exact .leave
    | cons s more =>
      cases f with
      | normal => exact .next
      | _ => exact .leave
  | loop condition body env =>
    cases f with
    | normal => exact .again
    | broke => exact .broke
    | returned v => exact .returned
  | program more env =>
    cases more with
    | nil => exact .leaveTop
    | cons s more => exact .nextTop
  | call closure demand => exact .answer
  | importing i => exact .imported

/-- Every step is a move, and opens the frames of the move. -/
theorem moves_step (host : Host) (s : State) : Moves host s (s.opens host) (s.step host) := by
  cases s with
  | eval e env demand rest w => exact moves_evalStep e
  | value v demand rest w =>
    obtain ⟨ps, u⟩ := demand
    cases ps with
    | nil => exact moves_useStep u
    | cons p ps => exact moves_pendingStep p
  | exec s env rest w => exact moves_execStep s
  | flow f rest w =>
    cases rest with
    | nil => exact .ended rfl
    | cons r rest => exact moves_flowStep f r
  | fail f rest w =>
    cases rest with
    | nil => exact .ended rfl
    | cons r rest => exact .unwind

end State

end Lox
