import Lox.Proofs.Machine.Growth
import Lox.Proofs.Machine.Import

/-!
# The depth of calls and imports

The number that a run keeps of its active calls and imports is the number of those that wait to be
finished, never exceeds the limit of the host, and is back at zero when a source has ended, however
it has ended. Exceeding the limit is a failure of its own, and in no other way does the limit show:
a run that does not fail so is the same under every larger limit.
-/

namespace Lox

namespace State

/-! ### What the next step enters -/

/-- The call that the next step makes: where, of what and with which arguments. -/
def call? : State → Option (Mark × Value × List Value)
  | value v ⟨.callee paren [] _ :: _, _⟩ _ _ => some (paren, v, [])
  | value v ⟨.argument callee paren done [] _ :: _, _⟩ _ _ =>
    some (paren, callee, (v :: done).reverse)
  | _ => none

/-- The import whose file the next step reads. -/
def load? (host : Host) : State → Option Mark
  | exec (.importDecl path _) _ _ _ =>
    match host.modules with
    | none => none
    | some locate =>
      match locate (Import.path path) with
      | .found _ _ => some path.mark
      | _ => none
  | _ => none

end State

/-- The function whose body runs when a value is called: for a class, its initializer. -/
def Store.entered? (s : Store) : Value → Option (Function Address)
  | .function closure => some closure.fn
  | .classRef c => (s.findMethod c "init").map Closure.fn
  | _ => none

/-- Whether the call of a value with a number of arguments enters the body of a function. -/
def Store.enters (s : Store) (callee : Value) (count : Nat) : Bool :=
  (s.entered? callee).any (·.arity = count)

namespace State

/-- Where the next step enters the body of a function or a module. -/
def enters? (host : Host) (s : State) : Option Mark :=
  match s.call? with
  | some (paren, callee, arguments) =>
    if s.world.store.enters callee arguments.length then some paren else none
  | none => s.load? host

/-- The failure of a state that ends a session. -/
def fatal? : State → Option Failure
  | fail f _ _ => if f.isFatal then some f else none
  | _ => none

/-- The next step fails, and nothing has failed before. -/
def Raises (host : Host) (s : State) (f : Failure) : Prop :=
  (∃ rest w, s.step host = fail f rest w) ∧ ∀ f' rest w, s ≠ fail f' rest w

variable {host : Host} {w : World} {env : FrameId} {demand : Demand} {rest : List Resume}
variable {v : Value} {mark : Mark} {s : State}

theorem call?_of_call {p : Pending} {ps : List Pending} {u : Use} {callee : Value} {paren : Mark}
    {done : List Value} (h : p.call? v = some (callee, paren, done, [], env)) :
    (value v ⟨p :: ps, u⟩ rest w).call? = some (paren, callee, done.reverse) := by
  rcases Pending.eq_of_call? h with ⟨rfl, rfl, rfl⟩ | ⟨before, rfl, rfl⟩ <;> rfl

/-! ### What the limit decides -/

/-- A new instance changes nothing about methods. -/
theorem findMethod_newInstance (store : Store) (c c' : ClassId) (x : Text) :
    (store.newInstance c).2.findMethod c' x = store.findMethod c' x :=
  Store.findMethod_congr (by rfl) c' x

/-- A call enters the body of a function, or is the same whatever the host. -/
theorem call_cases (callee : Value) (arguments : List Value) (paren : Mark) (demand : Demand)
    (rest : List Resume) (w : World) :
    (w.store.enters callee arguments.length = true ∧ ∃ closure w', w'.depth = w.depth ∧
      ∀ host, call host callee arguments paren demand rest w =
        enterFunction host closure arguments paren demand rest w') ∨
    w.store.enters callee arguments.length = false ∧ ∀ host host',
      call host callee arguments paren demand rest w =
        call host' callee arguments paren demand rest w := by
  unfold call Store.enters
  cases callee with
  | function closure =>
    by_cases hlen : arguments.length = closure.fn.arity
    · refine .inl ⟨by simp [Store.entered?, hlen], closure, w, rfl, fun host => ?_⟩
      simp [Store.arity?, hlen]
    · exact .inr ⟨by simp [Store.entered?, Ne.symm hlen], by simp [Store.arity?, hlen]⟩
  | classRef c =>
    -- a class without an initializer takes no arguments and enters nothing
    cases hm : w.store.findMethod c "init" with
    | none =>
      refine .inr ⟨by simp [Store.entered?, hm], ?_⟩
      simp [construct, World.onStore, findMethod_newInstance, hm]
    | some method =>
      by_cases hlen : arguments.length = method.fn.arity
      · refine .inl ⟨by simp [Store.entered?, hm, hlen],
          { method with frame := w.store.frames.size },
          { w with store := initialized w.store c method }, rfl, fun host => ?_⟩
        simp only [Store.arity?, hm, Option.map_some, Option.getD_some, hlen, ne_eq, not_true,
          if_false, construct, World.onStore, findMethod_newInstance]
        rfl
      · exact .inr ⟨by simp [Store.entered?, hm, Ne.symm hlen], by simp [Store.arity?, hm, hlen]⟩
  | _ => exact .inr ⟨rfl, fun _ _ => rfl⟩

/-- The next step enters something if there is room for it, and the limit decides about nothing
else. -/
structure Gate (host : Host) (s : State) (mark : Mark) (full room : State) : Prop where
  step : ∀ m, s.step { host with limit := m } =
    if s.world.isFull { host with limit := m } then full else room
  overflow : ∃ rest w, full = fail (.overflow mark) rest w
  safe : room.fatal? = none
  /-- There is one more active call or import, unless a module is rejected. -/
  depth : room.world.depth = s.world.depth + 1 ∨
    ∃ path why rest w, room = failAt mark (.importFailed path (.rejected why)) rest w

theorem gate_call {p : Pending} {ps : List Pending} {u : Use} {callee : Value}
    {arguments : List Value} {paren : Mark}
    (hstep : ∀ host, (value v ⟨p :: ps, u⟩ rest w).step host =
      call host callee arguments paren ⟨ps, u⟩ rest w)
    (h : w.store.enters callee arguments.length = true) :
    ∃ full room, (value v ⟨p :: ps, u⟩ rest w).Gate host paren full room := by
  rcases call_cases callee arguments paren ⟨ps, u⟩ rest w with
    ⟨-, closure, w', hd, heq⟩ | ⟨hnone, -⟩
  · refine ⟨fail (.overflow paren) rest w', entered closure arguments ⟨ps, u⟩ rest w', fun m => ?_,
      ⟨rest, w', rfl⟩, rfl, .inl (congrArg (· + 1) hd)⟩
    rw [hstep, heq, enterFunction_eq]
    simp [World.isFull, State.world, hd]
  · cases hnone.symm.trans h

/-- An import loads a file, or fails whatever the limit. -/
theorem importModule_limit (host : Host) (path : Token) (asName : Option Mark) (env : FrameId)
    (rest : List Resume) (w : World) :
    (∃ file source, (exec (.importDecl path asName) env rest w).load? host = some path.mark ∧
      ∀ m, importModule { host with limit := m } path asName env rest w =
        enterModule { host with limit := m } path (Import.name path asName) file source env rest
          w) ∨
    (exec (.importDecl path asName) env rest w).load? host = none ∧ ∃ fault w', ∀ m,
      importModule { host with limit := m } path asName env rest w =
        failAt path.mark fault rest w' := by
  unfold importModule load?
  cases host.modules with
  | none => exact .inr ⟨rfl, _, _, fun _ => rfl⟩
  | some locate =>
    dsimp only
    cases locate (Import.path path) with
    | missing reason | unreadable reason => exact .inr ⟨rfl, _, _, fun _ => rfl⟩
    | found file source => exact .inl ⟨file, source, rfl, fun _ => rfl⟩

theorem gate_import {path : Token} {asName : Option Mark}
    (h : (exec (.importDecl path asName) env rest w).load? host = some mark) :
    ∃ full room, (exec (.importDecl path asName) env rest w).Gate host mark full room := by
  rcases importModule_limit host path asName env rest w with
    ⟨file, source, hload, heq⟩ | ⟨hnone, -⟩
  · obtain rfl := Option.some.inj (hload.symm.trans h)
    unfold enterModule at heq
    dsimp only at heq
    cases hp : Program.ofSource source with
    | error why =>
      rw [hp] at heq
      exact ⟨_, _, heq, ⟨_, _, rfl⟩, rfl, .inr ⟨_, why, _, _, rfl⟩⟩
    | ok program =>
      rw [hp] at heq
      exact ⟨_, _, heq, ⟨_, _, rfl⟩, rfl, .inl rfl⟩
  · cases hnone.symm.trans h

theorem gate_of_enters (h : s.enters? host = some mark) :
    ∃ full room, s.Gate host mark full room := by
  cases s with
  | value v demand rest w =>
    obtain ⟨pending, use⟩ := demand
    cases pending with
    | nil => cases h
    | cons p pending =>
      cases p with
      | callee paren arguments env | argument callee paren done arguments env =>
        cases arguments with
        | nil =>
          obtain ⟨henters, heq⟩ := Option.ite_none_right_eq_some.mp h
          obtain rfl := Option.some.inj heq
          exact gate_call (fun _ => rfl) henters
        | cons e more => cases h
      | _ => cases h
  | exec s env rest w =>
    cases s with
    | importDecl path asName => exact gate_import h
    | _ => cases h
  | _ => cases h

/-- Where there is room, what is entered is counted, unless it is a module that is rejected. -/
theorem depth_step_of_enters (h : s.enters? host = some mark)
    (hroom : s.world.isFull host = false) :
    (s.step host).world.depth = s.world.depth + 1 ∨
      ∃ path why rest w, s.step host = failAt mark (.importFailed path (.rejected why)) rest w := by
  obtain ⟨full, room, hgate⟩ := gate_of_enters h
  have hstep := hgate.step host.limit
  rw [if_neg (Bool.eq_false_iff.mp hroom)] at hstep
  rw [hstep]
  exact hgate.depth

/-- Where nothing is entered, a step is the same whatever the limit. -/
theorem step_limit_of_not_enters (h : s.enters? host = none) (m : Nat) :
    s.step { host with limit := m } = s.step host := by
  cases s with
  | eval e env demand rest w => rfl
  | value v demand rest w =>
    obtain ⟨pending, use⟩ := demand
    cases pending with
    | nil => rfl
    | cons p pending =>
      cases p with
      | callee paren arguments env | argument callee paren done arguments env =>
        cases arguments with
        | nil =>
          have hnone := (ite_eq_right_iff.mp h).mt (by simp)
          rcases call_cases _ _ paren ⟨pending, use⟩ rest w with ⟨henters, -⟩ | ⟨-, heq⟩
          · exact absurd henters hnone
          · exact heq _ _
        | cons e more => rfl
      | _ => rfl
  | exec s env rest w =>
    cases s with
    | importDecl path asName =>
      rcases importModule_limit host path asName env rest w with
        ⟨file, source, hload, -⟩ | ⟨-, fault, w', heq⟩
      · cases hload.symm.trans h
      · exact (heq m).trans (heq host.limit).symm
    | ret keyword e => cases e <;> rfl
    | _ => rfl
  | flow f rest w => cases rest <;> rfl
  | fail f rest w => cases rest <;> rfl

/-- The limit is exceeded only where something is entered. -/
theorem fatal?_step_of_not_enters (hs : ∀ f rest w, s ≠ fail f rest w)
    (h : s.enters? host = none) : (s.step host).fatal? = none := by
  have hmove := moves_step host s
  generalize s.opens host = opened, hstep : s.step host = s' at hmove
  cases hmove with
  | callOverflow hp hlen =>
    rw [enters?, call?_of_call hp] at h
    simp [Store.enters, Store.entered?, hlen] at h
  | constructOverflow hp hm hlen =>
    rw [enters?, call?_of_call hp] at h
    simp [State.world, Store.enters, Store.entered?, hm, hlen] at h
  | @noLoad path asName env rest w =>
    rcases importModule_limit host path asName env rest w with
      ⟨file, source, hload, -⟩ | ⟨-, fault, w', heq⟩
    · cases hload.symm.trans h
    · rw [← hstep]
      exact congrArg fatal? (heq host.limit)
  | unwind => exact absurd rfl (hs _ _ _)
  | ended hfinal =>
    cases s with
    | fail f rest w => exact absurd rfl (hs f rest w)
    | _ => rfl
  | _ => rfl

/-- A state in which something is entered has not failed. -/
theorem ne_fail_of_enters (h : s.enters? host = some mark) (f : Failure) (rest : List Resume)
    (w : World) : s ≠ fail f rest w := by
  rintro rfl
  cases h

theorem fatal?_eq_some {f : Failure} :
    s.fatal? = some f ↔ ∃ rest w, s = fail f rest w ∧ f.isFatal = true := by
  constructor
  · intro h
    cases s with
    | fail f' rest w =>
      obtain ⟨hfatal, heq⟩ := Option.ite_none_right_eq_some.mp h
      obtain rfl := Option.some.inj heq
      exact ⟨rest, w, rfl, hfatal⟩
    | _ => cases h
  · rintro ⟨rest, w, rfl, hfatal⟩
    exact if_pos hfatal

/-- The limit is exceeded exactly where entering something would bring the number of active calls
and imports past it. -/
theorem raises_fatal_iff (hd : s.world.depth ≤ host.limit) {f : Failure} :
    s.Raises host f ∧ f.isFatal = true ↔
      ∃ m, f = .overflow m ∧ s.enters? host = some m ∧ s.world.depth + 1 = host.limit + 1 := by
  have hfull : s.world.isFull host = true ↔ s.world.depth + 1 = host.limit + 1 := by
    simp only [World.isFull, decide_eq_true_eq]
    omega
  constructor
  · rintro ⟨⟨⟨rest, w, hstep⟩, hne⟩, hfatal⟩
    have hfatal := fatal?_eq_some.mpr ⟨rest, w, hstep, hfatal⟩
    cases henters : s.enters? host with
    | none => cases (fatal?_step_of_not_enters hne henters).symm.trans hfatal
    | some m =>
      obtain ⟨full, room, hgate⟩ := gate_of_enters henters
      have hlimit := hgate.step host.limit
      by_cases hroom : s.world.isFull host = true
      · obtain ⟨rest', w', rfl⟩ := hgate.overflow
        rw [if_pos hroom, hstep] at hlimit
        cases hlimit
        exact ⟨m, rfl, rfl, hfull.mp hroom⟩
      · rw [if_neg hroom] at hlimit
        cases hgate.safe.symm.trans (hlimit ▸ hfatal)
  · rintro ⟨m, rfl, hm, hdepth⟩
    obtain ⟨full, room, hgate⟩ := gate_of_enters hm
    obtain ⟨rest, w, rfl⟩ := hgate.overflow
    have hlimit := hgate.step host.limit
    rw [if_pos (hfull.mpr hdepth)] at hlimit
    exact ⟨⟨⟨rest, w, hlimit⟩, ne_fail_of_enters hm⟩, rfl⟩

/-! ### Runs -/

variable {n m m' : Nat}

/-- A fatal failure stays one to the end of a run. -/
theorem fatal?_run {f : Failure} (h : s.fatal? = some f) : (s.run host n).fatal? = some f := by
  induction n generalizing s with
  | zero => exact h
  | succ n ih =>
    obtain ⟨rest, w, rfl, hfatal⟩ := fatal?_eq_some.mp h
    rw [run_succ]
    refine ih (fatal?_eq_some.mpr ?_)
    cases rest with
    | nil => exact ⟨[], w, rfl, hfatal⟩
    | cons r rest => cases r <;> exact ⟨rest, _, rfl, hfatal⟩

/-- A step that does not exceed a limit is the same under every larger limit. -/
theorem step_limit_le (hm : m ≤ m') (h : (s.step { host with limit := m }).fatal? = none) :
    s.step { host with limit := m' } = s.step { host with limit := m } := by
  cases henters : s.enters? host with
  | none =>
    exact (step_limit_of_not_enters henters m').trans (step_limit_of_not_enters henters m).symm
  | some mark =>
    obtain ⟨full, room, hgate⟩ := gate_of_enters henters
    have hroom : s.world.isFull { host with limit := m } = false := by
      cases hfull : s.world.isFull { host with limit := m } with
      | false => rfl
      | true =>
        obtain ⟨rest, w, rfl⟩ := hgate.overflow
        rw [hgate.step, if_pos hfull] at h
        cases h
    have hroom' : s.world.isFull { host with limit := m' } = false := by
      simp only [World.isFull, decide_eq_false_iff_not] at hroom ⊢
      omega
    rw [hgate.step, hgate.step, hroom, hroom']

/-- A run that does not exceed a limit is the same under every larger limit. -/
theorem run_limit_le (hm : m ≤ m') (h : (s.run { host with limit := m } n).fatal? = none) :
    s.run { host with limit := m' } n = s.run { host with limit := m } n := by
  induction n generalizing s with
  | zero => rfl
  | succ n ih =>
    rw [run_succ] at h
    have hstep : (s.step { host with limit := m }).fatal? = none := by
      cases hf : (s.step { host with limit := m }).fatal? with
      | none => rfl
      | some f => rw [fatal?_run hf] at h; cases h
    rw [run_succ, run_succ, step_limit_le hm hstep, ih h]

theorem waiting_of_isFinal (h : s.isFinal = true) : s.waiting = [] := by
  cases returned_nil_iff.mpr h <;> rfl

theorem Within.depth_eq {d : Nat} (h : s.Within d) :
    s.world.depth = d + s.waiting.countP Resume.isActive := by
  cases s with
  | fail f rest w => exact h.depth
  | _ => exact h.1.depth

end State

/-! ### Sessions -/

namespace Interpreter

/-- The interpreters of a session between its sources: each source that has run was admitted and has
come to an end, be it a failure; between two sources the input may change. -/
inductive Idle (Admits : Program Address → Prop) : Interpreter → Prop
  | new (host : Host) (input : Input) (echo : Bool) : Idle Admits (Interpreter.new host input echo)
  | execute {i : Interpreter} {program : Program Address} {n : Nat} : Idle Admits i →
      Admits program → (i.stateAt program n).isFinal = true →
      Idle Admits (i.execute n program).2.2
  | read {i : Interpreter} (input : Input) : Idle Admits i →
      Idle Admits { i with world := { i.world with input } }

variable {Admits : Program Address → Prop} {i : Interpreter} {program : Program Address} {n : Nat}

theorem within_stateAt (hs : i.world.store.Ordered) (hg : i.globals < i.world.store.frames.size)
    (program : Program Address) (n : Nat) : (i.stateAt program n).Within i.world.depth :=
  (State.within_start hs hg).run n

/-- Between two sources nothing dangles and nothing is active. -/
theorem Idle.steady (h : i.Idle Admits) : i.world.store.Ordered ∧
    i.globals < i.world.store.frames.size ∧ i.world.depth = 0 := by
  induction h with
  | new host input echo =>
    refine ⟨Store.ordered_empty.newGlobals, ?_, rfl⟩
    unfold Interpreter.new Store.newGlobals
    simp
  | @execute i program n _ _ hfinal ih =>
    obtain ⟨hs, hg, hd⟩ := ih
    have hwithin := within_stateAt hs hg program n
    refine ⟨hwithin.ordered, ?_, ?_⟩
    · exact Nat.lt_of_lt_of_le hg (State.extends_run (s := .start program i.globals i.world)).size
    · have hdepth := hwithin.depth_eq
      rw [State.waiting_of_isFinal hfinal, hd] at hdepth
      exact hdepth
  | read input _ ih => exact ih

theorem Idle.within (h : i.Idle Admits) (program : Program Address) (n : Nat) :
    (i.stateAt program n).Within 0 := by
  obtain ⟨hs, hg, hd⟩ := h.steady
  rw [← hd]
  exact within_stateAt hs hg program n

end Interpreter

/-- The account of active calls and imports at a point of a run. -/
structure State.Accounts (host : Host) (s : State) : Prop where
  /-- The number that is kept is that of the calls and imports that wait to be finished. -/
  active : s.world.depth = s.waiting.countP Resume.isActive
  /-- Whatever runs, runs within the limit. -/
  within : s.world.depth ≤ host.limit
  /-- Nothing is active when a source has ended. -/
  ended : s.isFinal = true → s.world.depth = 0
  /-- What is entered within the limit counts from then on, unless it is a module that is
  rejected. -/
  entered : ∀ m, s.enters? host = some m → s.world.depth + 1 ≤ host.limit →
    (s.step host).world.depth = s.world.depth + 1 ∨
      ∃ path why rest w, s.step host = failAt m (.importFailed path (.rejected why)) rest w
  /-- The limit is exceeded exactly where entering something brings the number past it. -/
  exceeded : ∀ f, s.Raises host f ∧ f.isFatal = true ↔ f.message = "Stack overflow." ∧
    ∃ m, f = .overflow m ∧ s.enters? host = some m ∧ s.world.depth + 1 = host.limit + 1

namespace Interpreter

variable {Admits : Program Address → Prop} {i : Interpreter} {program : Program Address} {n : Nat}

/-- At every point of a session the account of active calls and imports is right. -/
theorem depth_active (hi : i.Idle Admits) (program : Program Address) (n : Nat) :
    (i.stateAt program n).Accounts i.host := by
  have hactive := (hi.within program n).depth_eq
  have hlimit : (i.stateAt program n).world.depth ≤ i.host.limit := by
    refine State.depth_run_le ?_
    change i.world.depth ≤ i.host.limit
    rw [hi.steady.2.2]
    exact Nat.zero_le _
  rw [Nat.zero_add] at hactive
  refine ⟨hactive, hlimit, fun hfinal => ?_, fun m hm hroom => ?_, fun f => ?_⟩
  · rw [hactive, State.waiting_of_isFinal hfinal]
    rfl
  · refine State.depth_step_of_enters hm ?_
    simpa [World.isFull] using hroom
  · rw [State.raises_fatal_iff hlimit]
    constructor
    · rintro ⟨m, rfl, hm⟩
      exact ⟨rfl, m, rfl, hm⟩
    · exact And.right

/-- A function that calls itself without end, and a call of it in the same session after it has
exceeded the limit. -/
theorem depth_active_recursion :
    ∃ program program', Program.ofSource "fun f() { f(); } f();" = .ok program ∧
      Program.ofSource "f();" = .ok program' ∧
      let i := Interpreter.new ⟨1, 0, none⟩ { rest := [] } false
      let later := (i.execute 20 program).2.2
      (i.execute 20 program).1 = .failed (.overflow ⟨")", 1⟩) ∧ later.world.depth = 0 ∧
        (later.stateAt program' 9).Accounts later.host ∧
        (later.stateAt program' 9).Raises later.host (.overflow ⟨")", 1⟩) := by
  have h : Program.ofSource "fun f() { f(); } f();" = .ok
      [.funDecl ⟨"f", 1⟩ (.mk [] [.expression (.call (.name ⟨"f", 1⟩ none) ⟨")", 1⟩ [])]),
        .expression (.call (.name ⟨"f", 1⟩ none) ⟨")", 1⟩ [])] := by
    set_option maxRecDepth 4000 in cbv
  have h' : Program.ofSource "f();" =
      .ok [.expression (.call (.name ⟨"f", 1⟩ none) ⟨")", 1⟩ [])] := by
    set_option maxRecDepth 4000 in cbv
  refine ⟨_, _, h, h', rfl, rfl, depth_active (?_ : Idle (fun _ => True) _) _ _, ⟨_, _, rfl⟩, ?_⟩
  · exact .execute (.new _ _ _) trivial rfl
  · rintro f rest w ⟨⟩

/-! ### Other limits -/

/-- An interpreter under another limit of nested calls and imports. -/
def limited (i : Interpreter) (m : Nat) : Interpreter :=
  { i with host := { i.host with limit := m } }

/-- A run that has ended and has not exceeded the limit is not about to fail for it. -/
theorem fatal?_stateAt (hend : (i.execute n program).1 ≠ .outOfSteps)
    (hfatal : ∀ f, (i.execute n program).1 = .failed f → f.isFatal = false) :
    (i.stateAt program n).fatal? = none := by
  rw [execute_eq] at hend hfatal
  dsimp only at hend hfatal
  cases hf : (i.stateAt program n).fatal? with
  | none => rfl
  | some f =>
    obtain ⟨rest, w, hstate, hf⟩ := State.fatal?_eq_some.mp hf
    rw [hstate] at hend hfatal
    cases rest with
    | nil => rw [hfatal f rfl] at hf; cases hf
    | cons r rest => exact absurd rfl hend

/-- A run that ends under one limit without exceeding it ends in the same way under every larger
limit: with the same outcome and the same events, after the same input has been read, and with the
same globals. -/
theorem execute_limited (i : Interpreter) (program : Program Address) {n m m' : Nat} (hm : m ≤ m')
    (hend : ((i.limited m).execute n program).1 ≠ .outOfSteps)
    (hfatal : ∀ f, ((i.limited m).execute n program).1 = .failed f → f.isFatal = false) :
    ((i.limited m').execute n program).1 = ((i.limited m).execute n program).1 ∧
      ((i.limited m').execute n program).2.1 = ((i.limited m).execute n program).2.1 ∧
      ((i.limited m').execute n program).2.2.world = ((i.limited m).execute n program).2.2.world ∧
      ((i.limited m').execute n program).2.2.globalBindings =
        ((i.limited m).execute n program).2.2.globalBindings := by
  have hrun : (i.limited m').stateAt program n = (i.limited m).stateAt program n :=
    State.run_limit_le hm (fatal?_stateAt hend hfatal)
  rw [execute_eq, execute_eq, hrun]
  exact ⟨rfl, rfl, rfl, rfl⟩

/-- Two nested calls fit in a limit of two, and the run that they are part of reads a line and fails
for another reason; with a limit of ten it does the same. -/
theorem execute_limited_nested :
    ∃ program, Program.ofSource
        "fun g() { return read(); } fun f() { return g(); } print f(); f() - nil;" =
          .ok program ∧
      let i := Interpreter.new ⟨4096, 0, none⟩ { rest := "ab\ncd" } false
      ((i.limited 2).execute 60 program).1 = .failed (.runtime ⟨"-", 1⟩ .operandsNotNumbers) ∧
        ((i.limited 10).execute 60 program).1 = ((i.limited 2).execute 60 program).1 ∧
        ((i.limited 10).execute 60 program).2.1 = ((i.limited 2).execute 60 program).2.1 ∧
        ((i.limited 10).execute 60 program).2.2.world =
          ((i.limited 2).execute 60 program).2.2.world ∧
        ((i.limited 10).execute 60 program).2.2.globalBindings =
          ((i.limited 2).execute 60 program).2.2.globalBindings := by
  have h : Program.ofSource
      "fun g() { return read(); } fun f() { return g(); } print f(); f() - nil;" = .ok
        [.funDecl ⟨"g", 1⟩ (.mk []
          [.ret ⟨"return", 1⟩ (some (.call (.name ⟨"read", 1⟩ none) ⟨")", 1⟩ []))]),
        .funDecl ⟨"f", 1⟩ (.mk []
          [.ret ⟨"return", 1⟩ (some (.call (.name ⟨"g", 1⟩ none) ⟨")", 1⟩ []))]),
        .print (.call (.name ⟨"f", 1⟩ none) ⟨")", 1⟩ []),
        .expression (.binary .minus ⟨"-", 1⟩ (.call (.name ⟨"f", 1⟩ none) ⟨")", 1⟩ [])
          (.literal .nil))] := by
    set_option maxRecDepth 8000 in cbv
  refine ⟨_, h, rfl, execute_limited _ _ (by decide) ?_ ?_⟩
  · rintro ⟨⟩
  · rintro _ ⟨⟩
    rfl

end Interpreter

end Lox
