import Lox.Proofs.Machine.Growth
import Lox.Proofs.Machine.Range

/-!
# Initializers and their receivers

An initializer yields its receiver, which it finds in its own frame. The methods of a class have no
receiver, but none of them is a value before it has been bound to one. So the receiver is there
whenever an initializer that was called has finished.

## Design notes

Nothing ceases to have a receiver, because frames keep the names they bind. So all that a step is
about is taken to stand in the store that the step leads to.
-/

namespace Lox

/-- A value that, if it is an initializer, has a receiver in a store. -/
def Value.Received (s : Store) : Value → Prop
  | .function c => c.initializer = true → s.binds c.frame "this"
  | _ => True

/-- The values in a part of an expression that waits. -/
def Pending.Received (s : Store) : Pending → Prop
  | .right _ _ v => v.Received s
  | .setValue object _ => object.Received s
  | .argument f _ done _ _ => f.Received s ∧ ∀ v ∈ done, v.Received s
  | _ => True

/-- The values in what waits for a value. -/
def Demand.Received (s : Store) (d : Demand) : Prop := ∀ p ∈ d.pending, p.Received s

/-- The values in what waits for a statement. -/
def Resume.Received (s : Store) : Resume → Prop
  | .call closure demand => (Value.function closure).Received s ∧ demand.Received s
  | _ => True

/-- A value that is returned. -/
def Flow.Received (s : Store) : Flow → Prop
  | .returned v => v.Received s
  | _ => True

/-- The values in a store and in what waits. -/
structure World.Received (s : Store) (w : World) (rest : List Resume) : Prop where
  contents : w.store.All (·.Received s) fun _ => True
  waiting : ∀ r ∈ rest, r.Received s

/-- The values in a state and its store. -/
def State.Received (s : Store) : State → Prop
  | eval _ _ demand rest w => w.Received s rest ∧ demand.Received s
  | value v demand rest w => w.Received s rest ∧ v.Received s ∧ demand.Received s
  | exec _ _ rest w => w.Received s rest
  | flow f rest w => w.Received s rest ∧ f.Received s
  | fail _ rest w => w.Received s rest

theorem State.Received.contents {s : Store} {st : State} (h : st.Received s) :
    st.world.store.All (·.Received s) fun _ => True := by
  cases st with
  | exec stmt env rest w | fail f rest w => exact World.Received.contents h
  | _ => exact h.1.contents

/-! ### Growth -/

section Mono

variable {s s' : Store} (h : s.Extends s')

include h

theorem Value.Received.mono {v : Value} (hv : v.Received s) : v.Received s' := by
  cases v with
  | function c => exact fun hc => h.binds _ _ (hv hc)
  | _ => trivial

theorem Demand.Received.mono {d : Demand} (hd : d.Received s) : d.Received s' := by
  intro p hp
  have hpending := hd p hp
  cases p with
  | right op mark left => exact Value.Received.mono h hpending
  | setValue object property => exact Value.Received.mono h hpending
  | argument callee paren done more env =>
    exact ⟨Value.Received.mono h hpending.1, fun v hv => Value.Received.mono h (hpending.2 v hv)⟩
  | _ => trivial

theorem World.Received.mono {w : World} {rest : List Resume} (hw : w.Received s rest) :
    w.Received s' rest where
  contents := hw.contents.mono (fun _ => Value.Received.mono h) fun _ => id
  waiting := by
    intro r hr
    have hresume := hw.waiting r hr
    cases r with
    | call closure demand =>
      exact ⟨Value.Received.mono h hresume.1, Demand.Received.mono h hresume.2⟩
    | _ => trivial

theorem State.Received.mono {st : State} (hs : st.Received s) : st.Received s' := by
  cases st with
  | eval e env demand rest w => exact ⟨hs.1.mono h, hs.2.mono h⟩
  | value v demand rest w => exact ⟨hs.1.mono h, hs.2.1.mono h, hs.2.2.mono h⟩
  | exec stmt env rest w => exact World.Received.mono h hs
  | flow f rest w =>
    refine ⟨hs.1.mono h, ?_⟩
    cases f with
    | returned v => exact Value.Received.mono h hs.2
    | _ => trivial
  | fail f rest w => exact World.Received.mono h hs

end Mono

/-! ### Values and worlds -/

section

variable {s : Store} {w : World} {rest : List Resume} {v : Value}

theorem Value.Received.of_isPlain (h : v.IsPlain) : v.Received s := by
  cases v with
  | function c => cases h
  | _ => trivial

theorem Demand.Received.ofUse (u : Use) : Demand.Received s ⟨[], u⟩ := List.forall_mem_nil _

theorem Demand.Received.push {d : Demand} {p : Pending} (hd : d.Received s) (hp : p.Received s) :
    (d.push p).Received s :=
  List.forall_mem_cons.mpr ⟨hp, hd⟩

theorem Demand.Received.pop {p : Pending} {ps : List Pending} {u : Use}
    (hd : Demand.Received s ⟨p :: ps, u⟩) : p.Received s ∧ Demand.Received s ⟨ps, u⟩ :=
  List.forall_mem_cons.mp hd

/-- A method that is bound to a receiver has one. -/
theorem Store.received_bind {store : Store} {method : Closure} {receiver : Value}
    (h : (store.bind method receiver).2.Extends s) :
    (Value.function (store.bind method receiver).1).Received s :=
  fun _ => h.binds _ _ (Store.binds_newFrameWith List.mem_cons_self)

namespace World.Received

theorem define (h : w.Received s rest) (e : FrameId) (x : Text) (hv : v.Received s) :
    (w.define e x v).Received s rest :=
  ⟨h.contents.define e x hv, h.waiting⟩

theorem of_all {w' : World} (h : w.Received s rest)
    (hall : w'.store.All (·.Received s) fun _ => True) : w'.Received s rest :=
  ⟨hall, h.waiting⟩

theorem bind (h : w.Received s rest) {receiver : Value} (hv : receiver.Received s)
    (method : Closure) : (w.store.bind method receiver).2.All (·.Received s) fun _ => True :=
  h.contents.newFrameWith _ (by simpa using hv)

theorem cons {r : Resume} (h : w.Received s rest) (hr : r.Received s) : w.Received s (r :: rest) :=
  ⟨h.contents, List.forall_mem_cons.mpr ⟨hr, h.waiting⟩⟩

theorem tail {r : Resume} (h : w.Received s (r :: rest)) : w.Received s rest :=
  ⟨h.contents, (List.forall_mem_cons.mp h.waiting).2⟩

end World.Received

end

/-! ### Steps and runs -/

namespace State

variable {host : Host} {s : Store} {w : World} {env : FrameId} {demand : Demand}
variable {rest : List Resume} {v : Value} {st : State}

theorem received_part {e e' : Expr Address} {p : Pending} (h : e.part? env = some (e', p)) :
    p.Received s := by
  cases e <;> cases h <;> trivial

theorem received_binding {stmt : Stmt Address} {x : Text} (h : stmt.binding? env = some (x, v)) :
    v.Received s := by
  unfold Stmt.binding? at h
  split at h <;> cases h
  · trivial
  · exact nofun

theorem received_call {p : Pending} {callee : Value} {paren : Mark} {done : List Value}
    {more : List (Expr Address)} (hp : p.Received s) (hv : v.Received s)
    (h : p.call? v = some (callee, paren, done, more, env)) :
    callee.Received s ∧ ∀ v ∈ done, v.Received s := by
  rcases Pending.eq_of_call? h with ⟨rfl, rfl, rfl⟩ | ⟨before, rfl, rfl⟩
  · exact ⟨hv, List.forall_mem_nil _⟩
  · exact ⟨hp.1, List.forall_mem_cons.mpr ⟨hv, hp.2⟩⟩

section

variable (h : w.Received s rest) (hd : demand.Received s)

include h hd

theorem received_bindMethod {method : Closure} {receiver : Value} (hv : receiver.Received s)
    (hs : (bindMethod method receiver demand rest w).world.store.Extends s) :
    (bindMethod method receiver demand rest w).Received s :=
  ⟨h.of_all (h.bind hv method), Store.received_bind hs, hd⟩

theorem received_entered {closure : Closure} {arguments : List Value}
    (hc : (Value.function closure).Received s) (ha : ∀ v ∈ arguments, v.Received s) :
    (entered closure arguments demand rest w).Received s := by
  have hcall : w.Received s (.call closure demand :: rest) := h.cons ⟨hc, hd⟩
  have hblock : w.Received s (.block closure.fn.body w.store.frames.size ::
    .call closure demand :: rest) := hcall.cons trivial
  refine ⟨hblock.of_all ?_, trivial⟩
  exact h.contents.newFrameWith _ fun b hb => ha _ (List.of_mem_zip hb).2

end

theorem received_initialized (h : w.Received s rest) (c : ClassId) (method : Closure) :
    World.Received s { w with store := initialized w.store c method } rest :=
  h.of_all ((h.contents.newInstance c).newFrameWith _ (by simp [Value.Received]))

theorem received_classFrame (h : w.Received s rest) (name : Mark) (c? : Option ClassId) :
    (classFrame w name env c?).2.Received s rest := by
  have hnil := h.define env name.lexeme (v := .nil) trivial
  cases c? with
  | none => exact hnil
  | some c => exact hnil.of_all (hnil.contents.newFrameWith _ (by simp [Value.Received]))

theorem Received.world (h : st.Received s) : st.world.Received s st.waiting := by
  cases st with
  | exec stmt env rest w | fail f rest w => exact h
  | _ => exact h.1

theorem received_step (h : st.Received s) (hs : (st.step host).world.store.Extends s) :
    (st.step host).Received s := by
  have hmove := moves_step host st
  generalize st.opens host = opened, st.step host = st' at hmove hs ⊢
  cases hmove with
  -- expressions
  | literal => exact ⟨h.1, .of_isPlain (Value.isPlain_ofLiteral _), h.2⟩
  | function => exact ⟨h.1, nofun, h.2⟩
  | part hp => exact ⟨h.1, h.2.push (received_part hp)⟩
  | read _ hv => exact ⟨h.1, h.1.contents.read hv, h.2⟩
  | inherited _ hthis => exact received_bindMethod h.1 h.2 (h.1.contents.getAt hthis) hs
  -- operators and properties
  | unary hv => exact ⟨h.1, .of_isPlain hv, h.2.2.pop.2⟩
  | left | object => exact ⟨h.1, h.2.2.pop.2.push h.2.1⟩
  | right hv =>
    refine ⟨h.1, ?_, h.2.2.pop.2⟩
    rcases hv with rfl | hv
    · exact h.2.1
    · exact .of_isPlain hv
  | decided => exact ⟨h.1, h.2.1, h.2.2.pop.2⟩
  | undecided | chosen => exact ⟨h.1, h.2.2.pop.2⟩
  | assign => exact ⟨h.1.define _ _ h.2.1, h.2.1, h.2.2.pop.2⟩
  | field hp => exact ⟨h.1, h.1.contents.of_property_eq_value hp, h.2.2.pop.2⟩
  | method hp => exact received_bindMethod h.1 h.2.2.pop.2 h.2.1 hs
  | setClass => exact ⟨h.1.of_all (h.1.contents.setClassField _ _ h.2.1), h.2.1, h.2.2.pop.2⟩
  | setInstance => exact ⟨h.1.of_all (h.1.contents.setInstanceField _ _ h.2.1), h.2.1, h.2.2.pop.2⟩
  -- calls
  | argument hp => exact ⟨h.1, h.2.2.pop.2.push (received_call h.2.2.pop.1 h.2.1 hp)⟩
  | call hp =>
    obtain ⟨hc, hdone⟩ := received_call h.2.2.pop.1 h.2.1 hp
    exact received_entered h.1 h.2.2.pop.2 hc fun v hv => hdone v (List.mem_reverse.mp hv)
  | clock => exact ⟨h.1.of_all h.1.contents, trivial, h.2.2.pop.2⟩
  | readInput _ hread =>
    exact ⟨h.1.of_all h.1.contents, .of_isPlain (NativeFunction.isPlain_of_read? hread),
      h.2.2.pop.2⟩
  | noInput | noLoad => exact h.world.of_all h.contents
  | newInstance => exact ⟨h.1.of_all (h.1.contents.newInstance _), trivial, h.2.2.pop.2⟩
  | @construct _ _ c _ _ _ _ _ _ w method hp =>
    have hdone := (received_call h.2.2.pop.1 h.2.1 hp).2
    -- the frame with the receiver is there before the body is entered
    have hbound : (initialized w.store c method).Extends s :=
      (Store.Extends.newFrameWith _ _ _).trans hs
    have hthis := hbound.binds _ _ (Store.binds_newFrameWith List.mem_cons_self)
    exact received_entered (received_initialized h.1 c method) h.2.2.pop.2 (fun _ => hthis)
      fun v hv => hdone v (List.mem_reverse.mp hv)
  | constructOverflow => exact received_initialized h.1 _ _
  -- statements that have their value
  | shown _ hw =>
    refine ⟨h.1.of_all ?_, trivial⟩
    rcases hw with rfl | rfl <;> exact h.1.contents
  | defined => exact ⟨h.1.define _ _ h.2.1, trivial⟩
  | branch => exact h.1
  | round => exact h.1.cons trivial
  | result => exact ⟨h.1, h.2.1⟩
  -- statements
  | demand => exact ⟨h, .ofUse _⟩
  | bind hp => exact ⟨h.world.define _ _ (received_binding hp), trivial⟩
  | block => exact ⟨(h.world.of_all (h.contents.newFrame _)).cons trivial, trivial⟩
  | ret | brk => exact ⟨h, trivial⟩
  | @declareClass name _ _ env rest w c? table =>
    have hframe : (classFrame w name env c?).2.Received s rest := received_classFrame h _ _
    have htable : table.All fun _ => True := fun _ _ => trivial
    have hclass := hframe.contents.newClass name.lexeme c? htable
    exact ⟨(hframe.of_all hclass).define _ _ trivial, trivial⟩
  | repeatMethod => exact received_classFrame h.world _ _
  | load =>
    refine ⟨⟨h.contents.newFrameWith none (by simp [Value.Received]), ?_⟩, trivial⟩
    exact List.forall_mem_cons.mpr ⟨trivial, List.forall_mem_cons.mpr ⟨trivial, h.world.waiting⟩⟩
  -- statements that have finished
  | next | nextTop => exact h.1.tail.cons trivial
  | leave | returned => exact ⟨h.1.tail, h.2⟩
  | again => exact ⟨h.1.tail, .ofUse _⟩
  | broke | leaveTop => exact ⟨h.1.tail, trivial⟩
  | answer =>
    refine ⟨h.1.tail.of_all h.contents, callResult_of_all h.contents _ trivial ?_,
      (h.1.waiting _ List.mem_cons_self).2⟩
    rintro v rfl
    exact h.2
  | imported => exact ⟨h.1.tail.of_all (h.contents.define _ _ trivial), trivial⟩
  -- failures and ends
  | callOverflow => exact h.1
  | noBranch | noRound => exact ⟨h.1, trivial⟩
  | fails => exact h.world
  | @unwind f r => cases r <;> exact h.world.tail.of_all h.contents
  | group | redeclare | ended => exact h

/-- A step keeps the receivers of all initializers and gives one to those it binds. -/
theorem Received.step (h : st.Received st.world.store) :
    (st.step host).Received (st.step host).world.store :=
  received_step (h.mono (leadsTo_step host st).store) (.refl _)

theorem Received.run (h : st.Received st.world.store) (n : Nat) :
    (st.run host n).Received (st.run host n).world.store := by
  induction n generalizing st with
  | zero => exact h
  | succ n ih =>
    rw [run_succ]
    exact ih h.step

/-- An initializer that was called has a receiver when it has finished. -/
theorem Received.exists_receiver {f : Flow} {closure : Closure}
    (h : (flow f (.call closure demand :: rest) w).Received w.store)
    (hc : closure.initializer = true) : ∃ v, w.store.lookup closure.frame "this" = some v := by
  have hbinds : w.store.binds closure.frame "this" := (h.1.waiting _ List.mem_cons_self).1 hc
  exact Option.isSome_iff_exists.mp hbinds

end State

end Lox
