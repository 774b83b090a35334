import Lox.Proofs.Grammar.Tame
import Lox.Proofs.Machine.Heap

/-!
# Names stay in their scopes

Evaluating an expression binds no name in a frame that was there before, and executing a statement
binds at most the name that the statement declares, in the frame in which it is executed. This is so
however the evaluation ends, and at every step until then.

What is going on while an expression is evaluated, or a statement executed, is either part of it or
takes place in frames that are new. So a task keeps apart the frames from before, by their number,
and the one name that it may declare there itself.
-/

namespace Lox

/-- A value that, if it is a function, has a tame body. -/
def Value.Tame : Value → Prop
  | .function c => c.fn.Tame
  | _ => True

/-- What waits in an expression is tame. -/
def Pending.Tame : Pending → Prop
  | .left _ _ e _ => e.Tame
  | .right _ _ v => v.Tame
  | .logical _ e _ => e.Tame
  | .conditional yes no _ => yes.Tame ∧ no.Tame
  | .setObject _ e _ => e.Tame
  | .setValue object _ => object.Tame
  | .callee _ arguments _ => Expr.TameAll arguments
  | .argument f _ done more _ => f.Tame ∧ (∀ v ∈ done, v.Tame) ∧ Expr.TameAll more
  | _ => True

/-- A value that is returned is tame. -/
def Flow.Tame : Flow → Prop
  | .returned v => v.Tame
  | _ => True

/-- A store with tame contents that has at least `n` frames. -/
structure Store.Tame (n : Nat) (s : Store) : Prop where
  older : n ≤ s.frames.size
  contents : s.All Value.Tame (·.fn.Tame)

/-! ### Tasks -/

/-- An expression has been evaluated for what demands its value. -/
inductive State.Answered (demand : Demand) (rest : List Resume) : State → Prop
  | value (v : Value) (w : World) : Answered demand rest (value v demand rest w)
  | fail (f : Failure) (w : World) : Answered demand rest (fail f rest w)

/-- What is being done. A statement may have a name to declare, in a frame. -/
inductive Task where
  | statement (own : Option (FrameId × Text)) (rest : List Resume)
  | expression (demand : Demand) (rest : List Resume)

namespace Task

/-- A task is done when its statement has returned or its expression has been evaluated. -/
def Done : Task → State → Prop
  | statement _ rest => State.Returned rest
  | expression demand rest => State.Answered demand rest

/-- What may be declared before `rest` goes on: anything in a new frame, and the task's own name as
the last thing of the task. -/
def Allows (t : Task) (n : Nat) (env : FrameId) (x : Text) (rest : List Resume) : Prop :=
  n ≤ env ∨ t = .statement (some (env, x)) rest

theorem Allows.returned {t : Task} {n : Nat} {e : FrameId} {x : Text} {rest : List Resume}
    {s : State} (h : t.Allows n e x rest) (hs : s.Returned rest) :
    n ≤ e ∨ ∃ rest, t = .statement (some (e, x)) rest ∧ s.Returned rest :=
  h.imp id fun ht => ⟨rest, ht, hs⟩

end Task

/-- A statement that may be executed by a task. -/
def Stmt.Scoped (n : Nat) (t : Task) (env : FrameId) (rest : List Resume) (s : Stmt Address) :
    Prop :=
  s.Tame ∧ ∀ x, s.declares? = some x → t.Allows n env x rest

/-- What a task may do with the value of an expression. -/
def Use.Scoped (n : Nat) (t : Task) (rest : List Resume) : Use → Prop
  | .define x env => t.Allows n env x rest
  | .branch yes no _ =>
    (yes.Tame ∧ yes.declares? = none) ∧ ∀ s ∈ no, s.Tame ∧ s.declares? = none
  | .test condition body _ => condition.Tame ∧ body.Tame ∧ body.declares? = none
  | _ => True

/-- What may go on in a task after a statement, calls apart. -/
def Resume.Scoped (n : Nat) (t : Task) (rest : List Resume) : Resume → Prop
  | .block body env => Stmt.TameAll body ∧ n ≤ env
  | .program more env => Stmt.TameAll more ∧ n ≤ env
  | .loop condition body _ => condition.Tame ∧ body.Tame ∧ body.declares? = none
  | .importing i => t.Allows n i.env i.loaded.name rest
  | .call _ _ => False

/-- What waits during a task: below everything is what the task itself is done for. -/
inductive Task.Waits (n : Nat) (t : Task) : Option Demand → List Resume → Prop
  | statement {own : Option (FrameId × Text)} {rest : List Resume} :
      t = .statement own rest → Waits n t none rest
  | expression {demand : Demand} {rest : List Resume} :
      t = .expression demand rest → Waits n t (some demand) rest
  | use {u : Use} {rest : List Resume} :
      Waits n t none rest → u.Scoped n t rest → Waits n t (some ⟨[], u⟩) rest
  | pending {p : Pending} {ps : List Pending} {u : Use} {rest : List Resume} :
      Waits n t (some ⟨ps, u⟩) rest → p.Tame → Waits n t (some ⟨p :: ps, u⟩) rest
  | resume {r : Resume} {rest : List Resume} :
      Waits n t none rest → r.Scoped n t rest → Waits n t none (r :: rest)
  | call {closure : Closure} {demand : Demand} {rest : List Resume} :
      Waits n t (some demand) rest → Waits n t none (.call closure demand :: rest)

/-- Whatever is declared from a state on, until the task is done, is declared in frames with numbers
from `n` on, or is the task's own name. -/
def State.Scoped (n : Nat) (t : Task) : State → Prop
  | eval e _ demand rest w => w.store.Tame n ∧ t.Waits n (some demand) rest ∧ e.Tame
  | value v demand rest w => w.store.Tame n ∧ t.Waits n (some demand) rest ∧ v.Tame
  | exec s env rest w => w.store.Tame n ∧ t.Waits n none rest ∧ s.Scoped n t env rest
  | flow f rest w => w.store.Tame n ∧ t.Waits n none rest ∧ f.Tame
  | fail _ _ w => w.store.Tame n

section

variable {n : Nat} {t : Task} {s : Store} {rest : List Resume} {v : Value} {env : FrameId}

theorem Value.tame_of_isPlain (h : v.IsPlain) : v.Tame := by
  cases v with
  | function c => cases h
  | _ => trivial

theorem Stmt.Scoped.of_declares?_eq_none {stmt : Stmt Address}
    (h : stmt.Tame ∧ stmt.declares? = none) : stmt.Scoped n t env rest := by
  refine ⟨h.1, fun x hx => ?_⟩
  rw [h.2] at hx
  cases hx

theorem Stmt.Scoped.of_le {stmt : Stmt Address} (h : stmt.Tame) (hn : n ≤ env) :
    stmt.Scoped n t env rest :=
  ⟨h, fun _ _ => .inl hn⟩

namespace Task.Waits

variable {p : Pending} {ps : List Pending} {u : Use} {f : Flow} {r : Resume} {w : World}

theorem push {demand : Demand} (h : t.Waits n (some demand) rest) (hp : p.Tame) :
    t.Waits n (some (demand.push p)) rest :=
  .pending h hp

/-! While a task is not done, what waits is part of it. -/

theorem pop (h : t.Waits n (some ⟨p :: ps, u⟩) rest)
    (hdone : ¬ t.Done (.value v ⟨p :: ps, u⟩ rest w)) : p.Tame ∧ t.Waits n (some ⟨ps, u⟩) rest := by
  cases h with
  | expression ht =>
    subst ht
    exact absurd (.value v w) hdone
  | pending hd hp => exact ⟨hp, hd⟩

theorem used (h : t.Waits n (some ⟨[], u⟩) rest) (hdone : ¬ t.Done (.value v ⟨[], u⟩ rest w)) :
    u.Scoped n t rest ∧ t.Waits n none rest := by
  cases h with
  | expression ht =>
    subst ht
    exact absurd (.value v w) hdone
  | use hr hu => exact ⟨hu, hr⟩

theorem resumed (h : t.Waits n none (r :: rest)) (hdone : ¬ t.Done (.flow f (r :: rest) w))
    (hr : ∀ closure demand, r ≠ .call closure demand) :
    r.Scoped n t rest ∧ t.Waits n none rest := by
  cases h with
  | statement ht =>
    subst ht
    exact absurd (.flow f w) hdone
  | resume hrest hc => exact ⟨hc, hrest⟩
  | call hd => exact absurd rfl (hr _ _)

theorem answered {closure : Closure} {demand : Demand}
    (h : t.Waits n none (.call closure demand :: rest))
    (hdone : ¬ t.Done (.flow f (.call closure demand :: rest) w)) :
    t.Waits n (some demand) rest := by
  cases h with
  | statement ht =>
    subst ht
    exact absurd (.flow f w) hdone
  | resume _ hc => cases hc
  | call hd => exact hd

end Task.Waits

namespace Store.Tame

theorem define (h : s.Tame n) (e : FrameId) (x : Text) (hv : v.Tame) : (s.define e x v).Tame n :=
  ⟨Nat.le_trans h.older (Extends.define s e x v).size, h.contents.define e x hv⟩

theorem newFrame (h : s.Tame n) (parent : Option FrameId) : (s.newFrame parent).2.Tame n :=
  ⟨Nat.le_trans h.older (Extends.newFrame s parent).size, h.contents.newFrame parent⟩

theorem newFrameWith (h : s.Tame n) (parent : Option FrameId) {bindings : List (Text × Value)}
    (hb : ∀ b ∈ bindings, b.2.Tame) : (s.newFrameWith parent bindings).2.Tame n :=
  ⟨Nat.le_trans h.older (Extends.newFrameWith s parent bindings).size,
    h.contents.newFrameWith parent hb⟩

theorem newGlobals (h : s.Tame n) : s.newGlobals.2.Tame n := by
  refine h.newFrameWith none fun b hb => ?_
  obtain ⟨fn, -, rfl⟩ := List.mem_map.mp hb
  trivial

theorem bind (h : s.Tame n) {receiver : Value} (hv : receiver.Tame) (method : Closure) :
    (s.bind method receiver).2.Tame n :=
  h.newFrameWith (some method.frame) (List.forall_mem_singleton.mpr hv)

theorem newInstance (h : s.Tame n) (c : ClassId) : (s.newInstance c).2.Tame n :=
  ⟨h.older, h.contents.newInstance c⟩

theorem newClass (h : s.Tame n) (name : Text) (superclass : Option ClassId)
    {methods : Table Closure} (hm : methods.All (·.fn.Tame)) :
    (s.newClass name superclass methods).2.Tame n := by
  refine ⟨?_, h.contents.newClass name superclass hm⟩
  rw [frames_newClass]
  exact h.older

end Store.Tame

end

namespace State

variable {host : Host} {n : Nat} {t : Task} {w : World} {env : FrameId} {demand : Demand}
variable {rest : List Resume} {v : Value}

/-! ### Parts and calls -/

theorem tame_part {e e' : Expr Address} {p : Pending} (he : e.Tame)
    (h : e.part? env = some (e', p)) : p.Tame ∧ e'.Tame := by
  cases e <;> cases h <;> first | exact ⟨trivial, he⟩ | exact ⟨he.2, he.1⟩

theorem tame_call {p : Pending} {callee : Value} {paren : Mark} {done : List Value}
    {more : List (Expr Address)} (hp : p.Tame) (hv : v.Tame)
    (h : p.call? v = some (callee, paren, done, more, env)) :
    callee.Tame ∧ (∀ v ∈ done, v.Tame) ∧ Expr.TameAll more := by
  rcases Pending.eq_of_call? h with ⟨rfl, rfl, rfl⟩ | ⟨before, rfl, rfl⟩
  · exact ⟨hv, List.forall_mem_nil _, hp⟩
  · exact ⟨hp.1, List.forall_mem_cons.mpr ⟨hv, hp.2.1⟩, hp.2.2⟩

section

variable (h : w.store.Tame n) (hd : t.Waits n (some demand) rest)

include h hd

theorem scoped_bindMethod {method : Closure} {receiver : Value} (hm : method.fn.Tame)
    (hv : receiver.Tame) : (bindMethod method receiver demand rest w).Scoped n t :=
  ⟨h.bind hv method, hd, hm⟩

/-- A body is executed in a frame of its own. -/
theorem scoped_entered {closure : Closure} {arguments : List Value} (hc : closure.fn.Tame)
    (ha : ∀ v ∈ arguments, v.Tame) : (entered closure arguments demand rest w).Scoped n t := by
  have hbody : Stmt.TameAll closure.fn.body := Function.tame_iff.mp hc
  exact ⟨h.newFrameWith _ fun b hb => ha _ (List.of_mem_zip hb).2,
    .resume (.call hd) ⟨hbody, h.older⟩, trivial⟩

end

theorem tame_initialized {s : Store} (h : s.Tame n) (c : ClassId) (method : Closure) :
    (initialized s c method).Tame n :=
  (h.newInstance c).newFrameWith _ (List.forall_mem_singleton.mpr trivial)

/-! ### Statements -/

theorem scoped_part {s : Stmt Address} {e : Expr Address} {u : Use} (hs : s.Scoped n t env rest)
    (h : s.part? env = some (e, u)) : u.Scoped n t rest ∧ e.Tame := by
  obtain ⟨hs, hallowed⟩ := hs
  unfold Stmt.part? at h
  split at h <;> cases h
  case h_3 => exact ⟨hallowed _ rfl, hs⟩
  case h_4 c yes no =>
    cases no with
    | none => exact ⟨⟨hs.2, by rintro s ⟨⟩⟩, hs.1⟩
    | some no =>
      obtain ⟨⟨hcondition, hyes⟩, hno⟩ := hs
      refine ⟨⟨hyes, ?_⟩, hcondition⟩
      rintro s ⟨⟩
      exact hno
  case h_5 => exact ⟨hs, hs.1⟩
  all_goals exact ⟨trivial, hs⟩

theorem tame_binding {s : Stmt Address} {x : Text} (hs : s.Tame)
    (h : s.binding? env = some (x, v)) : v.Tame := by
  unfold Stmt.binding? at h
  split at h <;> cases h
  · trivial
  · exact hs

theorem tame_classFrame (h : w.store.Tame n) (name : Mark) (env : FrameId) (c? : Option ClassId) :
    (classFrame w name env c?).2.store.Tame n := by
  have hnil : (w.define env name.lexeme .nil).store.Tame n := h.define env name.lexeme trivial
  cases c? with
  | none => exact hnil
  | some c => exact hnil.newFrameWith _ (List.forall_mem_singleton.mpr trivial)

theorem tame_callResult (h : w.store.Tame n) {f : Flow} (hf : f.Tame) (closure : Closure) :
    (callResult closure f w.store).Tame := by
  refine callResult_of_all h.contents closure trivial ?_
  rintro v rfl
  exact hf

/-! ### Steps and runs -/

theorem returned_varDecl (host : Host) {name : Mark} :
    (execStep host (.varDecl name none) env rest w).Returned rest := by
  unfold execStep
  dsimp only
  split
  · exact .fail _ _
  · exact .flow _ _

theorem returned_declareClass {name : Mark} {superclass : Option (Mark × Address)}
    {methods : List (Method Address)} :
    (declareClass name superclass methods env rest w).Returned rest := by
  unfold declareClass
  split
  · exact .fail _ _
  · dsimp only
    split
    · exact .fail _ _
    · exact .flow _ _

namespace Scoped

variable {s : State}

theorem store (h : s.Scoped n t) : s.world.store.Tame n := by
  cases s with
  | fail f rest w => exact h
  | _ => exact h.1

/-- What a step preserves until the task is done. -/
theorem step (h : s.Scoped n t) (hdone : ¬ t.Done s) : (s.step host).Scoped n t := by
  have hmove := moves_step host s
  generalize s.opens host = opened, s.step host = s' at hmove
  cases hmove with
  -- expressions
  | literal => exact ⟨h.1, h.2.1, Value.tame_of_isPlain (Value.isPlain_ofLiteral _)⟩
  | part hp =>
    obtain ⟨hpending, he⟩ := tame_part h.2.2 hp
    exact ⟨h.1, h.2.1.push hpending, he⟩
  | read _ hv => exact ⟨h.1, h.2.1, h.1.contents.read hv⟩
  | inherited _ hthis hm =>
    exact scoped_bindMethod h.1 h.2.1 (h.1.contents.inherited hm) (h.1.contents.getAt hthis)
  -- operators and properties
  | unary hv => exact ⟨h.1, (h.2.1.pop hdone).2, Value.tame_of_isPlain hv⟩
  | left | object =>
    obtain ⟨hp, hd⟩ := h.2.1.pop hdone
    exact ⟨h.1, hd.push h.2.2, hp⟩
  | right hv =>
    refine ⟨h.1, (h.2.1.pop hdone).2, ?_⟩
    rcases hv with rfl | hv
    · exact h.2.2
    · exact Value.tame_of_isPlain hv
  | decided => exact ⟨h.1, (h.2.1.pop hdone).2, h.2.2⟩
  | undecided => exact ⟨h.1, (h.2.1.pop hdone).2, (h.2.1.pop hdone).1⟩
  | chosen he =>
    obtain ⟨hp, hd⟩ := h.2.1.pop hdone
    rcases he with rfl | rfl
    · exact ⟨h.1, hd, hp.1⟩
    · exact ⟨h.1, hd, hp.2⟩
  | assign => exact ⟨h.1.define _ _ h.2.2, (h.2.1.pop hdone).2, h.2.2⟩
  | field hp => exact ⟨h.1, (h.2.1.pop hdone).2, h.1.contents.of_property_eq_value hp⟩
  | method hp =>
    exact scoped_bindMethod h.1 (h.2.1.pop hdone).2 (h.1.contents.of_property_eq_method hp) h.2.2
  | setClass =>
    exact ⟨⟨h.1.older, h.1.contents.setClassField _ _ h.2.2⟩, (h.2.1.pop hdone).2, h.2.2⟩
  | setInstance =>
    exact ⟨⟨h.1.older, h.1.contents.setInstanceField _ _ h.2.2⟩, (h.2.1.pop hdone).2, h.2.2⟩
  -- calls
  | argument hp =>
    obtain ⟨hpending, hd⟩ := h.2.1.pop hdone
    obtain ⟨hc, ha, he, hmore⟩ := tame_call hpending h.2.2 hp
    exact ⟨h.1, hd.push ⟨hc, ha, hmore⟩, he⟩
  | call hp =>
    obtain ⟨hpending, hd⟩ := h.2.1.pop hdone
    obtain ⟨hc, ha, -⟩ := tame_call hpending h.2.2 hp
    exact scoped_entered h.1 hd hc fun v hv => ha v (List.mem_reverse.mp hv)
  | clock => exact ⟨h.1, (h.2.1.pop hdone).2, trivial⟩
  | readInput _ hread =>
    exact ⟨h.1, (h.2.1.pop hdone).2, Value.tame_of_isPlain (NativeFunction.isPlain_of_read? hread)⟩
  | newInstance => exact ⟨h.1.newInstance _, (h.2.1.pop hdone).2, trivial⟩
  | construct hp hm =>
    obtain ⟨hpending, hd⟩ := h.2.1.pop hdone
    obtain ⟨-, ha, -⟩ := tame_call hpending h.2.2 hp
    have hmethod := h.1.contents.findMethod hm
    exact scoped_entered (tame_initialized h.1 _ _) hd hmethod fun v hv =>
      ha v (List.mem_reverse.mp hv)
  | constructOverflow => exact tame_initialized h.1 _ _
  -- statements that have their value
  | shown _ hw => rcases hw with rfl | rfl <;> exact ⟨h.1, (h.2.1.used hdone).2, trivial⟩
  | defined => exact ⟨h.1.define _ _ h.2.2, (h.2.1.used hdone).2, trivial⟩
  | branch hs =>
    obtain ⟨hu, hr⟩ := h.2.1.used hdone
    rcases hs with rfl | hno
    · exact ⟨h.1, hr, .of_declares?_eq_none hu.1⟩
    · exact ⟨h.1, hr, .of_declares?_eq_none (hu.2 _ hno)⟩
  | round =>
    obtain ⟨hu, hr⟩ := h.2.1.used hdone
    exact ⟨h.1, .resume hr hu, .of_declares?_eq_none hu.2⟩
  | noBranch | noRound => exact ⟨h.1, (h.2.1.used hdone).2, trivial⟩
  | result => exact ⟨h.1, (h.2.1.used hdone).2, h.2.2⟩
  -- statements
  | demand hp =>
    obtain ⟨hu, he⟩ := scoped_part h.2.2 hp
    exact ⟨h.1, .use h.2.1 hu, he⟩
  | bind hp => exact ⟨h.1.define _ _ (tame_binding h.2.2.1 hp), h.2.1, trivial⟩
  | block => exact ⟨h.1.newFrame _, .resume h.2.1 ⟨h.2.2.1, h.1.older⟩, trivial⟩
  | ret | brk => exact ⟨h.1, h.2.1, trivial⟩
  | @declareClass name _ _ env rest w c? table _ htable =>
    have hall : table.All (·.fn.Tame) := by
      refine all_of_declareMethods ?_ .empty htable
      rintro c - ⟨m, hmem, hfn⟩
      rw [hfn]
      exact Method.tameAll_iff.mp h.2.2.1 m hmem
    have hclass := (tame_classFrame h.1 name env c?).newClass name.lexeme c? hall
    exact ⟨hclass.define env name.lexeme trivial, h.2.1, trivial⟩
  | repeatMethod => exact tame_classFrame h.1 _ _ _
  | load hprogram =>
    -- a module is executed in globals of its own
    have htame := (Program.IsParsed.of_ofSource hprogram).tame
    exact ⟨h.1.newGlobals, .resume (.resume h.2.1 (h.2.2.2 _ rfl)) ⟨htame, h.1.older⟩, trivial⟩
  -- statements that have finished
  | next | nextTop =>
    obtain ⟨⟨⟨hs, hmore⟩, hn⟩, hr⟩ := h.2.1.resumed hdone nofun
    exact ⟨h.1, .resume hr ⟨hmore, hn⟩, .of_le hs hn⟩
  | leave | returned => exact ⟨h.1, (h.2.1.resumed hdone nofun).2, h.2.2⟩
  | again =>
    obtain ⟨hc, hr⟩ := h.2.1.resumed hdone nofun
    exact ⟨h.1, .use hr hc, hc.1⟩
  | broke | leaveTop => exact ⟨h.1, (h.2.1.resumed hdone nofun).2, trivial⟩
  | answer => exact ⟨h.1, h.2.1.answered hdone, tame_callResult h.1 h.2.2 _⟩
  | imported => exact ⟨h.1.define _ _ trivial, (h.2.1.resumed hdone nofun).2, trivial⟩
  -- failures and ends
  | callOverflow | noInput | redeclare | noLoad => exact h.1
  | fails => exact h.store
  | @unwind f r => cases r <;> exact h
  | function | group | ended => exact h

/-- Whatever a step declares, it declares in a new frame, or it is the task's own name and the task
is done with it. -/
theorem declares (host : Host) (h : s.Scoped n t) (hdone : ¬ t.Done s) {e : FrameId} {x : Text}
    (hx : s.Declares e x) :
    n ≤ e ∨ ∃ rest, t = .statement (some (e, x)) rest ∧ (s.step host).Returned rest := by
  cases s with
  | eval e env demand rest w => cases hx
  | value v demand rest w =>
    obtain ⟨-, hd, -⟩ := h
    cases hd with
    | expression ht =>
      subst ht
      exact absurd (.value v w) hdone
    | @use u _ hr hu =>
      cases u with
      | define x env =>
        cases hx
        exact Task.Allows.returned hu (.flow _ _)
      | _ => cases hx
    | pending hd hp => cases hx
  | exec stmt env rest w =>
    obtain ⟨-, -, -, hown⟩ := h
    cases stmt with
    | varDecl name initial =>
      cases initial with
      | none =>
        cases hx
        exact (hown _ rfl).returned (returned_varDecl host)
      | some e => cases hx
    | funDecl name fn =>
      cases hx
      exact (hown _ rfl).returned (.flow _ _)
    | classDecl name superclass methods =>
      cases hx
      exact (hown _ rfl).returned returned_declareClass
    | _ => cases hx
  | flow f rest w =>
    obtain ⟨-, hr, -⟩ := h
    cases hr with
    | statement ht =>
      subst ht
      exact absurd (.flow f w) hdone
    | @resume r rest hr hc =>
      cases r with
      | importing i =>
        cases hx
        exact Task.Allows.returned hc (.flow _ _)
      | _ => cases hx
    | call hd => cases hx
  | fail f rest w => cases hx

end Scoped

/-- A run from a state is not done before its `k`-th step. -/
def Lasts (host : Host) (done : State → Prop) (s : State) (k : Nat) : Prop :=
  ∀ m < k, ¬ done (s.run host m)

namespace Scoped

variable {s : State} {k : Nat} {e : FrameId} {x : Text}

/-- What a run preserves until the task is done. -/
theorem run (h : s.Scoped n t) (hk : s.Lasts host t.Done k) : (s.run host k).Scoped n t := by
  induction k with
  | zero => exact h
  | succ k ih =>
    rw [run_succ_eq_step]
    exact (ih fun m hm => hk m (Nat.lt_succ_of_lt hm)).step (hk k (Nat.lt_succ_self k))

/-- A name in an old frame that is bound in the course of a task was bound before, or it is the
task's own and the task is done. -/
theorem binds_run (h : s.Scoped n t) (hk : s.Lasts host t.Done k) (he : e < n)
    (hx : (s.run host k).world.store.binds e x) :
    s.world.store.binds e x ∨
      ∃ rest, t = .statement (some (e, x)) rest ∧ (s.run host k).Returned rest := by
  -- the last step is the only one that can declare the task's own name, since it ends the task
  induction k with
  | zero => exact .inl hx
  | succ k ih =>
    have hbefore : s.Lasts host t.Done k := fun m hm => hk m (Nat.lt_succ_of_lt hm)
    have hdone : ¬ t.Done (s.run host k) := hk k (Nat.lt_succ_self k)
    have hscoped := h.run hbefore
    have hlt : e < (s.run host k).world.store.frames.size :=
      Nat.lt_of_lt_of_le he hscoped.store.older
    rw [run_succ_eq_step] at hx ⊢
    rcases (changes_step host (s.run host k)).binds hlt hx with hx | hnew
    · rcases ih hbefore hx with hx | ⟨rest, rfl, hreturned⟩
      · exact .inl hx
      · exact absurd hreturned hdone
    · rcases hscoped.declares host hdone hnew with hle | hown
      · exact absurd he (Nat.not_lt.mpr hle)
      · exact .inr hown

end Scoped

end State

/-! ### Scopes -/

/-- A frame that was there before has come to bind a name, or has ceased to bind it. -/
def Store.Differs (s s' : Store) (e : FrameId) (x : Text) : Prop :=
  e < s.frames.size ∧ s'.binds e x ≠ s.binds e x

namespace State

variable {host : Host} {w : World} {env : FrameId} {demand : Demand} {rest : List Resume}

/-- No scope leaks from what a state is about to do, at any step until it is done and however it
ends. Evaluating an expression changes the names of no frame. Executing a statement changes them
only as it returns, by the name that it declares, in the frame in which it is executed; so a name
that is free when a variable is to be declared stays free until the variable is. -/
structure KeepsScopes (host : Host) (s : State) : Prop where
  expression : ∀ e env demand rest w, s = eval e env demand rest w →
    ∀ k, s.Lasts host (Answered demand rest) k →
      ∀ f x, ¬ w.store.Differs (s.run host k).world.store f x
  statement : ∀ stmt env rest w, s = exec stmt env rest w →
    ∀ k, s.Lasts host (Returned rest) k →
      ∀ f x, w.store.Differs (s.run host k).world.store f x →
        f = env ∧ stmt.declares? = some x ∧ (s.run host k).world.store.binds f x = true ∧
          (s.run host k).Returned rest
  fresh : ∀ name initial env rest w, s = exec (.varDecl name initial) env rest w →
    env < w.store.frames.size → w.store.binds env name.lexeme = false →
    ∀ k, s.Lasts host (Returned rest) k → ¬ (s.run host k).Returned rest →
      (s.run host k).world.store.binds env name.lexeme = false

theorem Scoped.differs_run {s : State} {t : Task} {k : Nat} {f : FrameId} {x : Text}
    (h : s.Scoped s.world.store.frames.size t) (hk : s.Lasts host t.Done k)
    (hx : s.world.store.Differs (s.run host k).world.store f x) :
    (s.run host k).world.store.binds f x = true ∧
      ∃ rest, t = .statement (some (f, x)) rest ∧ (s.run host k).Returned rest := by
  obtain ⟨hf, hne⟩ := hx
  by_cases hold : s.world.store.binds f x = true
  · exact absurd (hold ▸ extends_run.binds f x hold) hne
  · have hbinds : (s.run host k).world.store.binds f x = true := by
      rw [Bool.not_eq_true] at hold
      rwa [hold, ne_eq, Bool.not_eq_false] at hne
    exact ⟨hbinds, (h.binds_run hk hf hbinds).resolve_left hold⟩

theorem keepsScopes_eval {e : Expr Address} (he : e.Tame)
    (hw : w.store.All Value.Tame (·.fn.Tame)) : (eval e env demand rest w).KeepsScopes host where
  expression := by
    rintro _ _ _ _ _ ⟨⟩ k hk f x hx
    have hscoped : (eval e env demand rest w).Scoped w.store.frames.size
        (.expression demand rest) := ⟨⟨Nat.le_refl _, hw⟩, .expression rfl, he⟩
    obtain ⟨-, more, htask, -⟩ :=
      Scoped.differs_run (s := eval e env demand rest w) hscoped hk hx
    cases htask
  statement := by rintro _ _ _ _ ⟨⟩
  fresh := by rintro _ _ _ _ _ ⟨⟩

theorem keepsScopes_exec {stmt : Stmt Address} (hs : stmt.Tame)
    (hw : w.store.All Value.Tame (·.fn.Tame)) : (exec stmt env rest w).KeepsScopes host := by
  have hscoped : (exec stmt env rest w).Scoped w.store.frames.size
      (.statement (stmt.declares?.map (env, ·)) rest) := by
    refine ⟨⟨Nat.le_refl _, hw⟩, .statement rfl, hs, fun x hx => .inr ?_⟩
    rw [hx]
    rfl
  have hstatement : ∀ k, (exec stmt env rest w).Lasts host (Returned rest) k →
      ∀ f x, w.store.Differs ((exec stmt env rest w).run host k).world.store f x →
        f = env ∧ stmt.declares? = some x ∧
          ((exec stmt env rest w).run host k).world.store.binds f x = true ∧
          ((exec stmt env rest w).run host k).Returned rest := by
    intro k hk f x hx
    obtain ⟨hbinds, more, htask, hreturned⟩ :=
      Scoped.differs_run (s := exec stmt env rest w) hscoped hk hx
    obtain ⟨hown, rfl⟩ := Task.statement.inj htask
    obtain ⟨y, hy, hpair⟩ := Option.map_eq_some_iff.mp hown
    cases hpair
    exact ⟨rfl, hy, hbinds, hreturned⟩
  refine ⟨by rintro _ _ _ _ _ ⟨⟩, ?_, ?_⟩
  · rintro _ _ _ _ ⟨⟩
    exact hstatement
  · rintro name initial _ _ _ ⟨⟩ henv hfree k hk hreturned
    by_contra hbound
    have hdiffers : w.store.Differs
        ((exec (.varDecl name initial) env rest w).run host k).world.store env name.lexeme :=
      ⟨henv, fun heq => hbound (heq.trans hfree)⟩
    exact hreturned (hstatement k hk _ _ hdiffers).2.2.2

/-- A state of a program is about to do what keeps scopes. -/
theorem Scoped.keepsScopes {s : State} {n : Nat} {t : Task} (h : s.Scoped n t) :
    s.KeepsScopes host := by
  cases s with
  | eval e env demand rest w => exact keepsScopes_eval h.2.2 h.1.contents
  | exec stmt env rest w => exact keepsScopes_exec h.2.2.1 h.1.contents
  | _ => exact ⟨by rintro _ _ _ _ _ ⟨⟩, by rintro _ _ _ _ ⟨⟩, by rintro _ _ _ _ _ ⟨⟩⟩

end State

/-! ### Sessions -/

namespace Interpreter

variable {i : Interpreter} {origins : List Origin} {program : Program Address}

/-- To a whole program every frame is new. -/
theorem scoped_stateAt (h : i.world.store.Tame 0) (hp : Stmt.TameAll program) (n : Nat) :
    (i.stateAt program n).Scoped 0 (.statement none []) := by
  induction n with
  | zero => exact ⟨h, .resume (.statement rfl) ⟨hp, Nat.zero_le _⟩, trivial⟩
  | succ n ih =>
    have hstep : i.stateAt program (n + 1) = (i.stateAt program n).step i.host :=
      State.run_succ_eq_step
    rw [hstep]
    by_cases hfinal : (i.stateAt program n).isFinal = true
    · rw [State.step_of_isFinal hfinal]
      exact ih
    · exact ih.step fun hdone => hfinal (State.returned_nil_iff.mp hdone)

theorem Arises.tame (h : i.Arises Program.IsParsed origins) : i.world.store.Tame 0 := by
  induction h with
  | new host input echo =>
    have hempty : Store.Tame 0 {} := ⟨Nat.le_refl _, .empty⟩
    exact hempty.newGlobals
  | execute n _ hparsed ih => exact (scoped_stateAt ih hparsed.tame n).store
  | read input _ ih => exact ih

/-- In every state of every session of parsed programs no scope leaks: neither from what is about to
be done, nor from any other expression or statement of any parsed program, in whatever frame it were
to be evaluated or executed. -/
theorem keeps_scopes (h : i.Arises Program.IsParsed origins) (hp : program.IsParsed) (n : Nat) :
    (i.stateAt program n).KeepsScopes i.host ∧
      (∀ e env demand rest, Expr.IsParsed e →
        (State.eval e env demand rest (i.stateAt program n).world).KeepsScopes i.host) ∧
      ∀ stmt env rest, Stmt.IsParsed stmt →
        (State.exec stmt env rest (i.stateAt program n).world).KeepsScopes i.host := by
  have hscoped := scoped_stateAt h.tame hp.tame n
  have hcontents := hscoped.store.contents
  refine ⟨hscoped.keepsScopes, ?_, ?_⟩
  · intro e env demand rest he
    exact State.keepsScopes_eval he.tame hcontents
  · intro stmt env rest hstmt
    exact State.keepsScopes_exec hstmt.tame hcontents

/-- The call of a function of an earlier program, which binds a name of its own and assigns to it
inside a block, for a variable that is declared when the call has returned. -/
theorem keeps_scopes_call :
    ∃ program program', Program.ofSource "fun f() { var x; { x = f; } return x; }" = .ok program ∧
      Program.ofSource "var r = f();" = .ok program' ∧
      let i := Interpreter.new ⟨4, 0, none⟩ { rest := [] } false
      let later := (i.execute 3 program).2.2
      let s := later.stateAt program' 1
      let bound (k : Nat) (e : FrameId) (x : Text) := (s.run later.host k).world.store.binds e x
      bound 21 1 "x" = true ∧ bound 21 0 "x" = false ∧ bound 21 0 "r" = false ∧
        bound 22 0 "x" = false ∧ bound 22 0 "r" = true ∧ s.KeepsScopes later.host := by
  have h : Program.ofSource "fun f() { var x; { x = f; } return x; }" = .ok
      [.funDecl ⟨"f", 1⟩ (.mk []
        [.varDecl ⟨"x", 1⟩ none,
         .block [.expression (.assign ⟨"x", 1⟩ (some 1) (.name ⟨"f", 1⟩ none))],
         .ret ⟨"return", 1⟩ (some (.name ⟨"x", 1⟩ (some 0)))])] := by
    set_option maxRecDepth 8000 in cbv
  have h' : Program.ofSource "var r = f();" =
      .ok [.varDecl ⟨"r", 1⟩ (some (.call (.name ⟨"f", 1⟩ none) ⟨")", 1⟩ []))] := by
    set_option maxRecDepth 4000 in cbv
  have hnew : Arises Program.IsParsed (Interpreter.new ⟨4, 0, none⟩ { rest := [] } false)
      [.session] := .new _ _ _
  obtain ⟨hkeeps, -, -⟩ :=
    keeps_scopes (hnew.execute 3 (.of_ofSource h)) (.of_ofSource h') 1
  exact ⟨_, _, h, h', rfl, rfl, rfl, rfl, rfl, hkeeps⟩

end Interpreter

end Lox
