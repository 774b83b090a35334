import Lox.Proofs.Machine.Activation
import Lox.Proofs.Machine.Seals

/-!
# Initializers

An initializer yields its receiver, whatever its body returns, because the frame that gives it the
receiver is never changed. So the call of a class yields a new instance of that class, on which the
nearest initializer has been run.
-/

namespace Lox

namespace State

variable {host : Host} {globals : FrameId} {s t : State} {d k : Nat} {origins : List Origin}
variable {demand : Demand} {rest : List Resume} {v u : Value} {closure method : Closure}
variable {c : ClassId} {arguments : List Value} {paren : Mark} {w : World}

/-! ### Receivers -/

/-- What becomes of a frame that the next step creates for a receiver or for a superclass. Every
other frame that the step creates is for something else. -/
structure KeepsSeals (host : Host) (globals : FrameId) (s : State) : Prop where
  size : (s.step host).world.store.frames.size =
    s.world.store.frames.size + (s.opens host).length
  opens : OpensFor s.seals? (s.opens host)
  /-- A method that is not called at once is handed on with its new frame. -/
  bound : ∀ method v, s.seals? = some (.receiver method v) → s.call? = none →
    ∃ demand rest w,
      s.step host = value (.function { method with frame := s.world.store.frames.size }) demand rest w
  /-- The frame is as it was created, whatever the session comes to. -/
  kept : ∀ held, s.seals? = some held → ∀ t, (s.step host).Follows host globals t →
    t.world.store.frames[s.world.store.frames.size]? = some held.frame
  /-- An initializer with this frame yields the receiver, whenever it is called. -/
  initializer : ∀ method v, s.seals? = some (.receiver method v) →
    ∀ t, (s.step host).Follows host globals t → ∀ paren closure arguments,
      t.call? = some (paren, .function closure, arguments) → closure.initializer = true →
      closure.frame = s.world.store.frames.size →
      ∀ demand rest k u, t.Yields host demand rest k u → u = v

/-- The frame of a receiver or superclass is the first that a step creates. -/
theorem Sealed.origin_of_seals? (h : s.Sealed d origins) {held : Seal}
    (hheld : s.seals? = some held) :
    (origins ++ s.opens host)[s.world.store.frames.size]? = some held.origin := by
  obtain ⟨more, hopens, -⟩ := opens_eq host s
  rw [hheld] at hopens
  rw [hopens, ← h.count, List.getElem?_append_right (Nat.le_refl _), Nat.sub_self]
  rfl

theorem Sealed.frames_follows (h : s.Sealed d origins)
    (hg : ∃ o, origins[globals]? = some o ∧ o.isSealed = false) {held : Seal}
    (hheld : s.seals? = some held) (ht : (s.step host).Follows host globals t) :
    t.world.store.frames[s.world.store.frames.size]? = some held.frame := by
  obtain ⟨o, ho, hfree⟩ := hg
  obtain ⟨-, -, -, hkept⟩ := ht.sealed h.step ⟨o, Origin.getElem?_append ho _, hfree⟩
  rw [hkept _ _ (h.origin_of_seals? hheld) held.isSealed_origin]
  exact (treatment_step h.within).holds held hheld

theorem bindMethod_eq (method : Closure) (receiver : Value) :
    bindMethod method receiver demand rest w =
      value (.function { method with frame := w.store.frames.size }) demand rest
        { w with store := (w.store.bind method receiver).2 } :=
  rfl

theorem getProperty_of_seals {object : Value} {property : Mark}
    (h : sealsProperty object property.lexeme w = some (.receiver method v)) :
    getProperty object property demand rest w = bindMethod method v demand rest w := by
  revert h
  unfold sealsProperty getProperty
  cases w.store.property object property.lexeme with
  | method closure =>
    rintro ⟨⟩
    rfl
  | _ => rintro ⟨⟩

theorem getInherited_of_seals {keyword name : Mark} {ref : Address} {env : FrameId}
    (h : sealsInherited name ref env w = some (.receiver method v)) :
    getInherited keyword name ref env demand rest w = bindMethod method v demand rest w := by
  rcases inherited_cases name ref env w with ⟨closure, receiver, hseals, -, hget⟩ | ⟨hseals, -, -⟩
  · cases hseals.symm.trans h
    exact hget keyword demand rest
  · cases hseals.symm.trans h

/-- A method that is bound to a receiver is handed on with the new frame. -/
theorem step_of_seals?_receiver (host : Host) (h : s.seals? = some (.receiver method v))
    (hc : s.call? = none) : ∃ demand rest w, s.step host =
      value (.function { method with frame := s.world.store.frames.size }) demand rest w := by
  unfold seals? at h
  split at h
  · exact ⟨_, _, _, (getInherited_of_seals h).trans (bindMethod_eq method v)⟩
  · exact ⟨_, _, _, (getProperty_of_seals h).trans (bindMethod_eq method v)⟩
  · cases hc
  · cases hc
  · unfold sealsClass at h
    split at h <;> cases h
  · cases h

/-! ### Calls that complete -/

section

variable {callee : Value}

/-- What is called by a call that completes takes as many arguments as it is given. -/
theorem Yields.arity? (h : s.Yields host demand rest k v)
    (hc : s.call? = some (paren, callee, arguments)) :
    s.world.store.arity? callee = some arguments.length := by
  obtain ⟨k', -, hanswers⟩ := h.step
  rw [step_of_caller? host h.caller hc] at hanswers
  unfold call at hanswers
  split at hanswers
  · exact absurd hanswers Answers.not_fail
  · next arity harity =>
    split at hanswers
    · exact absurd hanswers Answers.not_fail
    · next hlen => rw [harity, not_not.mp hlen]

theorem Proper.of_call? {store : Store} (h : s.Proper store)
    (hc : s.call? = some (paren, callee, arguments)) : callee.Proper store := by
  unfold call? at hc
  split at hc
  · cases hc
    exact h.2.2
  · cases hc
    exact (h.2.1.1 _ List.mem_cons_self).1
  · cases hc

end

theorem Yields.step_function (h : s.Yields host demand rest k v)
    (hc : s.call? = some (paren, .function closure, arguments)) :
    s.step host = enterFunction host closure arguments paren demand rest s.world := by
  rw [step_of_caller? host h.caller hc]
  unfold call
  rw [h.arity? hc]
  exact if_neg (not_not.mpr rfl)

theorem Yields.step_classRef (h : s.Yields host demand rest k v)
    (hc : s.call? = some (paren, .classRef c, arguments)) :
    s.step host = construct host c arguments paren demand rest s.world := by
  rw [step_of_caller? host h.caller hc]
  unfold call
  rw [h.arity? hc]
  exact if_neg (not_not.mpr rfl)

/-- The body of an initializer yields the receiver that its frame holds. -/
theorem Runs.eq_receiver (h : s.Runs host closure demand rest k v)
    (hc : closure.initializer = true)
    (hframe : ∀ m, ((s.step host).run host m).world.store.frames[closure.frame]? =
      some (Seal.receiver method u).frame) : v = u := by
  obtain ⟨j, f, w, rfl, hrun, rfl⟩ := h.result
  -- the call is active in the last state before its value, so this is not the first state
  have hactive : 0 < j := by
    have hstack := (h.active j (Nat.le_succ j)).mp
    rw [hrun] at hstack
    exact (hstack (List.suffix_refl _)).1
  obtain ⟨m, rfl⟩ := Nat.exists_eq_add_of_lt hactive
  have hheld : w.store.frames[closure.frame]? = some (Seal.receiver method u).frame := by
    have hlast := hframe (0 + m)
    rwa [← run_succ, hrun] at hlast
  unfold callResult Store.lookup
  rw [if_pos hc, hheld]
  rfl

/-! ### Calls of classes -/

/-- What the call of a class has come to when it completes, after `k` steps. -/
structure Constructed (host : Host) (globals : FrameId) (s : State) (c : ClassId) (demand : Demand)
    (rest : List Resume) (k : Nat) (v : Value) : Prop where
  result : v = .instanceRef s.world.store.instances.size
  /-- The instance is new. -/
  fresh : s.world.store.classOf? s.world.store.instances.size = none
  /-- It is an instance of the class, whatever the session comes to. -/
  classOf : ∀ t, (s.step host).Follows host globals t →
    t.world.store.classOf? s.world.store.instances.size = some c
  /-- The nearest initializer has been bound to the instance and run. -/
  initialized : ∀ method, s.world.store.Nearest "init" method c →
    s.seals? = some (.receiver method v) ∧
      s.Runs host { method with frame := s.world.store.frames.size } demand rest k v
  /-- Without an initializer nothing has been run. -/
  plain : (∀ method, ¬ s.world.store.Nearest "init" method c) → k = 1

/-- A new instance has its class, and keeps it while its initializer is called. -/
theorem classOf?_construct (w : World) :
    (construct host c arguments paren demand rest w).world.store.classOf?
      w.store.instances.size = some c := by
  have hnew : (w.store.newInstance c).2.classOf? w.store.instances.size = some c := by
    unfold Store.newInstance Store.classOf?
    rw [Array.getElem?_push, if_pos rfl]
    rfl
  unfold construct
  dsimp only [World.onStore]
  split
  · exact hnew
  · next method _ =>
    have hstart : (w.store.newInstance c).2.Changes (fun _ _ => False) [] _ := .refl
    have hbound := hstart.newFrameWith (some method.frame)
      [("this", .instanceRef w.store.instances.size)]
    unfold enterFunction
    split
    · exact hbound.retains.classOf _ _ hnew
    · exact (hbound.newFrameWith (some _) _).retains.classOf _ _ hnew

/-- A class without an initializer yields the new instance at once. -/
theorem Yields.step_plain (h : s.Yields host demand rest k v)
    (hc : s.call? = some (paren, .classRef c, arguments))
    (hm : s.world.store.findMethod c "init" = none) :
    ∃ w, s.step host = value (.instanceRef s.world.store.instances.size) demand rest w := by
  rw [h.step_classRef hc]
  unfold construct
  dsimp only [World.onStore]
  rw [findMethod_newInstance, hm]
  exact ⟨_, rfl⟩

/-- An initializer is bound to the new instance and entered. -/
theorem Yields.step_initializer (h : s.Yields host demand rest k v)
    (hc : s.call? = some (paren, .classRef c, arguments))
    (hm : s.world.store.findMethod c "init" = some method) :
    ∃ w, s.step host = enterFunction host { method with frame := s.world.store.frames.size }
      arguments paren demand rest w := by
  rw [h.step_classRef hc]
  unfold construct
  dsimp only [World.onStore]
  rw [findMethod_newInstance, hm]
  exact ⟨_, rfl⟩

theorem Yields.seals?_classRef (h : s.Yields host demand rest k v)
    (hc : s.call? = some (paren, .classRef c, arguments))
    (hm : s.world.store.findMethod c "init" = some method) :
    s.seals? = some (.receiver method (.instanceRef s.world.store.instances.size)) := by
  rw [seals?_of_call? hc]
  unfold sealsCall
  rw [if_pos (h.arity? hc)]
  dsimp only
  rw [hm]
  rfl

/-- Every call of a class that completes yields a new instance, on which the nearest initializer has
been run. -/
theorem Sealed.constructed (h : s.Sealed d origins)
    (hg : ∃ o, origins[globals]? = some o ∧ o.isSealed = false)
    (hc : s.call? = some (paren, .classRef c, arguments)) (hy : s.Yields host demand rest k v) :
    s.Constructed host globals c demand rest k v := by
  have hclass : (s.step host).world.store.classOf? s.world.store.instances.size = some c := by
    rw [hy.step_classRef hc]
    exact classOf?_construct s.world
  have hlasting : ∀ t, (s.step host).Follows host globals t →
      t.world.store.classOf? s.world.store.instances.size = some c := fun t ht =>
    ht.retains.classOf _ _ hclass
  have hfresh : s.world.store.classOf? s.world.store.instances.size = none := by
    unfold Store.classOf?
    rw [Array.getElem?_eq_none (Nat.le_refl _)]
    rfl
  have hnearest : ∀ method, s.world.store.Nearest "init" method c →
      s.world.store.findMethod c "init" = some method := fun method =>
    h.within.ordered.findMethod_eq_some_iff.mpr
  cases hm : s.world.store.findMethod c "init" with
  | none =>
    obtain ⟨w, hstep⟩ := hy.step_plain hc hm
    obtain ⟨k', rfl, hanswers⟩ := hy.step
    rw [hstep] at hanswers
    obtain ⟨rfl, rfl⟩ := hanswers.of_value
    refine ⟨rfl, hfresh, hlasting, fun method hnear => ?_, fun _ => rfl⟩
    cases hm.symm.trans (hnearest method hnear)
  | some method =>
    obtain ⟨w, hstep⟩ := hy.step_initializer hc hm
    have hruns := hy.runs hstep
    have hseals := hy.seals?_classRef hc hm
    have hnear := h.within.ordered.findMethod_eq_some_iff.mp hm
    have hinit : method.initializer = true :=
      Store.Regular.initializer (h.proper.of_call? hc) hnear
    have hnext : (s.step host).Follows host globals (s.step host) := .refl
    have hv := hruns.eq_receiver hinit fun m => h.frames_follows hg hseals (hnext.run m)
    refine ⟨hv, hfresh, hlasting, fun method' hnear' => ?_, fun hnone => absurd hnear (hnone _)⟩
    obtain rfl := Option.some.inj (hm.symm.trans (hnearest method' hnear'))
    exact ⟨hv ▸ hseals, hruns⟩

theorem Sealed.keepsSeals (h : s.Sealed d origins)
    (hg : ∃ o, origins[globals]? = some o ∧ o.isSealed = false) : s.KeepsSeals host globals where
  size := size_step host s
  opens := opens_eq host s
  bound _ _ := step_of_seals?_receiver host
  kept _ hheld _ ht := h.frames_follows hg hheld ht
  initializer := by
    intro method v hheld t ht paren closure arguments hc hinit hframe demand rest k u hy
    have hkept := fun m => h.frames_follows hg hheld (ht.step.run m)
    rw [← hframe] at hkept
    exact (hy.runs (hy.step_function hc)).eq_receiver hinit hkept

end State

/-! ### Sessions -/

namespace Interpreter

variable {i : Interpreter} {origins : List Origin} {program : Program Address}

/-- The states of the next program of a session follow those of the last one, up to where it was
given up. -/
theorem follows_execute {program' : Program Address} {m n : Nat} (h : n < m) (hp : program'.Scanned)
    (k : Nat) : ((i.stateAt program n).step i.host).Follows i.host i.globals
      ((i.execute m program).2.2.stateAt program' k) := by
  obtain ⟨l, rfl⟩ := Nat.exists_eq_add_of_lt h
  have hrun : i.stateAt program (n + l + 1) =
      ((i.stateAt program n).step i.host).run i.host l := by
    unfold stateAt
    rw [Nat.add_assoc, State.run_add, State.run_succ]
  have hlast : ((i.stateAt program n).step i.host).Follows i.host i.globals
      (i.stateAt program (n + l + 1)) := by
    rw [hrun]
    exact State.Follows.refl.run l
  exact (hlast.start (i.stateAt program (n + l + 1)).world.input hp).run k

/-- In every state of every session of scanned programs, whatever their resolution has found: a
frame that is created for a receiver or a superclass binds that and is never changed, so initializers
yield the receivers they were bound to; and a call of a class that completes yields a new instance of
the class, on which the nearest initializer has been run once. -/
theorem initializers_yield_receivers (h : i.Arises Program.Scanned origins) (hp : program.Scanned)
    (n : Nat) :
    (i.stateAt program n).KeepsSeals i.host i.globals ∧
      ∀ paren c arguments demand rest k v,
        (i.stateAt program n).call? = some (paren, .classRef c, arguments) →
        (i.stateAt program n).Yields i.host demand rest k v →
        (i.stateAt program n).Constructed i.host i.globals c demand rest k v := by
  have hi := h.sealed fun _ => Program.Scanned.spelled
  have hs := hi.stateAt hp.spelled n
  obtain ⟨o, ho, hfree⟩ := hi.globals
  have hg : ∃ o, (origins ++ i.opened program n)[i.globals]? = some o ∧ o.isSealed = false :=
    ⟨o, Origin.getElem?_append ho _, hfree⟩
  refine ⟨hs.keepsSeals hg, ?_⟩
  intro paren c arguments demand rest k v hc hy
  exact hs.constructed hg hc hy

/-- An inherited initializer that returns a value, although this is an error, when an instance is
created, and when the next program calls it again. -/
theorem initializers_yield_receivers_again :
    ∃ program program',
      Program.ofSourceWith .addressesOnly
        "class A { init() { return nil; } } class B < A {} var f = B().init;" = .ok program ∧
      Program.ofSourceWith .addressesOnly "f();" = .ok program' ∧
      let i := Interpreter.new ⟨4, 0, none⟩ { rest := [] } false
      let s := i.stateAt program 9
      let t := (i.execute 19 program).2.2.stateAt program' 4
      (∃ paren c demand rest, s.call? = some (paren, .classRef c, []) ∧
        s.Yields i.host demand rest 7 (.instanceRef 0) ∧
        s.Constructed i.host i.globals c demand rest 7 (.instanceRef 0)) ∧
      ∃ paren closure demand rest, t.call? = some (paren, .function closure, []) ∧
        t.Yields i.host demand rest 7 (.instanceRef 0) ∧
        ∀ k u, t.Yields i.host demand rest k u → u = .instanceRef 0 := by
  have h : Program.ofSourceWith .addressesOnly
      "class A { init() { return nil; } } class B < A {} var f = B().init;" = .ok
      [.classDecl ⟨"A", 1⟩ none
        [.mk false ⟨"init", 1⟩ (.mk [] [.ret ⟨"return", 1⟩ (some (.literal .nil))])],
      .classDecl ⟨"B", 1⟩ (some (⟨"A", 1⟩, none)) [],
      .varDecl ⟨"f", 1⟩
        (some (.get (.call (.name ⟨"B", 1⟩ none) ⟨")", 1⟩ []) ⟨"init", 1⟩))] := by
    set_option maxRecDepth 8000 in cbv
  have h' : Program.ofSourceWith .addressesOnly "f();" =
      .ok [.expression (.call (.name ⟨"f", 1⟩ none) ⟨")", 1⟩ [])] := by
    set_option maxRecDepth 4000 in cbv
  have hp : Program.Scanned _ := ⟨_, Program.reads_of_ofSourceWith h⟩
  have hp' : Program.Scanned _ := ⟨_, Program.reads_of_ofSourceWith h'⟩
  have hnew : Arises Program.Scanned (Interpreter.new ⟨4, 0, none⟩ { rest := [] } false)
      [.session] := .new _ _ _
  refine ⟨_, _, h, h', ?_, ?_⟩
  · obtain ⟨-, hconstructs⟩ := initializers_yield_receivers hnew hp 9
    refine ⟨_, _, ⟨[.get ⟨"init", 1⟩], .define "f" 0⟩, [.program [] 0], rfl, ?_⟩
    refine (and_iff_left_of_imp (hconstructs _ _ _ _ _ _ _ rfl)).mpr ?_
    refine ⟨rfl, fun m hm => ?_, _, rfl⟩
    interval_cases m <;> rintro ⟨⟩
  · obtain ⟨hkeeps, -⟩ := initializers_yield_receivers hnew hp 16
    refine ⟨_, _, ⟨[], .echo⟩, [.program [] 0], rfl, ?_, fun k u => ?_⟩
    · refine ⟨rfl, fun m hm => ?_, _, rfl⟩
      interval_cases m <;> rintro ⟨⟩
    · have hlater : 16 < 19 := by decide
      exact hkeeps.initializer _ _ rfl _ (follows_execute hlater hp' 4) _ _ _ rfl rfl rfl _ _ k u

end Interpreter

end Lox
