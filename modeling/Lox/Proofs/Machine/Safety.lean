import Lox.Proofs.Machine.Depth
import Lox.Proofs.Machine.Embedding
import Lox.Proofs.Machine.Receiver
import Lox.Proofs.Source.Numbering

/-!
# Safe runs

Whatever is wrong with the names and jumps of a source that can be parsed, and whatever addresses
its references have been given, its run ends, if it ends, with success or with a failure on a line
of the source, and nothing is ever missing on the way: no value, no argument and no receiver.

## Design notes

A state whose lines are at least one is a state that does not change when all its lines are raised
to one. A run on other lines goes in step with the run itself, so this is preserved.
-/

namespace Lox

/-! ### Lines -/

/-- Raises the lines of a run to at least one, and changes nothing else. -/
def Embedding.raised : Embedding :=
  { line := raise, base := {}, depth := 0, events := [], tail := [] }

/-- Every line in a state is at least one. -/
def State.Numbered (s : State) : Prop := Embedding.raised.state s = s

namespace State

variable {host : Host} {s t : State} {d : Nat}

theorem host_raised (host : Host) : Embedding.raised.host host = host := by
  simp [Embedding.host, Embedding.raised]

theorem frame_raised (e : FrameId) : Embedding.raised.frame e = e := Nat.zero_add e

theorem mapLinesAll_raise_of_ofSource {source : Text} {program : Program Address}
    (h : Program.ofSource source = .ok program) : Stmt.mapLinesAll raise program = program :=
  (Program.reads_of_ofSourceWith h).mapLinesAll_raise

/-- A state that follows itself is numbered, because modules are. -/
theorem numbered_of_follows (h : Embedding.raised.Follows s t) (ht : t = s) : s.Numbered := by
  cases h with
  | same s => exact ht
  | @load source program hp globals rest w =>
    refine Eq.trans ?_ ht
    have hprogram : Stmt.mapLinesAll Embedding.raised.line program = program :=
      mapLinesAll_raise_of_ofSource hp
    change flow .normal (.program (Stmt.mapLinesAll Embedding.raised.line program) _ :: _) _ = _
    rw [hprogram]
    rfl

theorem Numbered.step (h : s.Numbered) (hw : s.Within d) : (s.step host).Numbered := by
  cases hfinal : s.isFinal with
  | true =>
    rw [step_of_isFinal hfinal]
    exact h
  | false =>
    have hf : Embedding.raised.Follows (s.step host)
        ((Embedding.raised.state s).step (Embedding.raised.host host)) :=
      Embedding.follows_step hw hfinal
    rw [h, host_raised] at hf
    exact numbered_of_follows hf rfl

theorem Numbered.run (h : s.Numbered) (hw : s.Within d) (n : Nat) : (s.run host n).Numbered := by
  induction n generalizing s with
  | zero => exact h
  | succ n ih =>
    rw [run_succ]
    exact ih (h.step hw) hw.step

theorem Numbered.world (h : s.Numbered) : Embedding.raised.world s.world = s.world := by
  rw [← Embedding.world_state, h]

theorem Numbered.line {f : Failure} {rest : List Resume} {w : World}
    (h : (fail f rest w).Numbered) : 1 ≤ f.mark.line := by
  have hf : f.mapLine raise = f := (State.fail.inj h).1
  cases f with
  | runtime mark fault =>
    exact raise_eq_self_iff.mp (congrArg Mark.line (Failure.runtime.inj hf).1)
  | overflow mark => exact raise_eq_self_iff.mp (congrArg Mark.line (Failure.overflow.inj hf))

theorem numbered_start {program : Program Address} {g : FrameId} {w : World}
    (hp : Stmt.mapLinesAll raise program = program) (hw : Embedding.raised.world w = w) :
    (start program g w).Numbered := by
  change flow .normal [.program (Stmt.mapLinesAll raise program) (Embedding.raised.frame g)]
    (Embedding.raised.world w) = _
  rw [hp, hw, frame_raised]
  rfl

end State

/-! ### Arguments -/

theorem Store.arity?_of_entered? {s : Store} {callee : Value} {fn : Function Address}
    (h : s.entered? callee = some fn) : s.arity? callee = some fn.arity := by
  cases callee with
  | function closure =>
    obtain rfl := Option.some.inj h
    rfl
  | classRef c =>
    obtain ⟨method, hm, rfl⟩ := Option.map_eq_some_iff.mp h
    simp [Store.arity?, hm]
  | _ => cases h

namespace State

variable {host : Host} {s : State} {demand : Demand} {rest : List Resume} {w : World}

/-- A function is entered with as many arguments as it has parameters, or not at all. -/
theorem call_of_entered? {callee : Value} {fn : Function Address}
    (h : w.store.entered? callee = some fn) (arguments : List Value) (paren : Mark) :
    arguments.length = fn.arity ∨ call host callee arguments paren demand rest w =
      failAt paren (.wrongArity fn.arity arguments.length) rest w := by
  by_cases hlen : arguments.length = fn.arity
  · exact .inl hlen
  · right
    unfold call
    rw [Store.arity?_of_entered? h]
    exact if_pos hlen

theorem step_of_call? (host : Host) {paren : Mark} {callee : Value} {arguments : List Value}
    (h : s.call? = some (paren, callee, arguments)) :
    ∃ demand, s.step host = call host callee arguments paren demand s.waiting s.world := by
  unfold call? at h
  split at h
  · cases h
    exact ⟨_, rfl⟩
  · cases h
    exact ⟨_, rfl⟩
  · cases h

end State

/-! ### Sessions -/

/-- Nothing is missing in a state, and it fails, if at all, on a line of a source. -/
structure State.Safe (host : Host) (s : State) : Prop where
  /-- The value that an expression yields is there, with all that it refers to. -/
  value : ∀ v demand rest w, s = value v demand rest w → w.store.Has v
  /-- A function is entered with an argument for each of its parameters, or the call fails. -/
  arguments : ∀ paren callee arguments fn, s.call? = some (paren, callee, arguments) →
    s.world.store.entered? callee = some fn → arguments.length = fn.params.length ∨
      s.step host = failAt paren (.wrongArity fn.params.length arguments.length) s.waiting s.world
  /-- An initializer that has finished has a receiver. -/
  receiver : ∀ f closure demand rest w, s = flow f (.call closure demand :: rest) w →
    closure.initializer = true → ∃ v, w.store.lookup closure.frame "this" = some v
  /-- A failure is on a line of a source. -/
  line : ∀ f rest w, s = fail f rest w → 1 ≤ f.mark.line
  /-- A run that ends has succeeded, or has failed in one of two ways. -/
  ending : s.isFinal = true → s.ending = .finished ∨ ∃ m, 1 ≤ m.line ∧
    ((∃ fault, s.ending = .failed (.runtime m fault)) ∨ s.ending = .failed (.overflow m))

namespace State

variable {host : Host} {s : State}

theorem safe_of_within (hw : s.Within 0) (hr : s.Received s.world.store) (hn : s.Numbered) :
    s.Safe host where
  value := by
    rintro v demand rest w rfl
    exact hw.2.1
  arguments := by
    intro paren callee arguments fn hcall hfn
    obtain ⟨demand, hstep⟩ := step_of_call? host hcall
    rw [hstep]
    exact call_of_entered? hfn arguments paren
  receiver := by
    rintro f closure demand rest w rfl hc
    exact hr.exists_receiver hc
  line := by
    rintro f rest w rfl
    exact hn.line
  ending := by
    intro hfinal
    cases returned_nil_iff.mpr hfinal with
    | flow f w => exact .inl rfl
    | fail f w =>
      refine .inr ⟨f.mark, hn.line, ?_⟩
      cases f with
      | runtime mark fault => exact .inl ⟨fault, rfl⟩
      | overflow mark => exact .inr rfl

end State

namespace Interpreter

variable {Admits : Program Address → Prop} {i : Interpreter}

/-- Every line of the code in a session is at least one, if this is so for its sources. -/
theorem Idle.numbered (h : i.Idle Admits)
    (hadmits : ∀ program, Admits program → Stmt.mapLinesAll raise program = program) :
    Embedding.raised.world i.world = i.world := by
  induction h with
  | new host input echo =>
    have hempty : Embedding.raised.store {} = {} := by simp [Placement.store, Embedding.raised]
    have hglobals := Placement.newGlobals_store (x := Embedding.raised.toPlacement) (s := {})
    rw [hempty] at hglobals
    exact congrArg (fun store : Store => ({ store, input, clock := host.clock, echo } : World))
      (congrArg Prod.snd hglobals).symm
  | @execute i program n hi hp _ ih =>
    have hnumbered : (i.stateAt program n).Numbered :=
      (State.numbered_start (hadmits program hp) ih).run (hi.within program 0) n
    exact congrArg (fun w : World => { w with events := [] }) hnumbered.world
  | read input _ ih => exact congrArg (fun w : World => { w with input }) ih

/-- Every initializer among the values of a session has a receiver. -/
theorem Idle.received (h : i.Idle Admits) (program : Program Address) (n : Nat) :
    (i.stateAt program n).Received (i.stateAt program n).world.store := by
  have start : ∀ {i : Interpreter} {program : Program Address} {n : Nat},
      i.world.store.All (·.Received i.world.store) (fun _ => True) →
      (i.stateAt program n).Received (i.stateAt program n).world.store := by
    intro i program n hall
    have hstart : (State.start program i.globals i.world).Received
        (State.start program i.globals i.world).world.store :=
      ⟨⟨hall, List.forall_mem_singleton.mpr trivial⟩, trivial⟩
    exact hstart.run n
  refine start ?_
  induction h with
  | new host input echo =>
    refine Store.All.empty.newFrameWith none ?_
    simp [Value.Received]
  | execute _ _ _ ih => exact (start ih).contents
  | read input _ ih => exact ih

/-- Every run of a source that can be parsed is safe, in every session of such sources: whatever is
wrong with their names and jumps, and whatever addresses their references have. -/
theorem safe_of_reads (hi : i.Idle fun program => ∃ source, program.Reads source)
    {source : Text} {program : Program Address} (hp : program.Reads source) (n : Nat) :
    (i.stateAt program n).Safe i.host := by
  have hworld := hi.numbered fun _ ⟨_, hreads⟩ => hreads.mapLinesAll_raise
  have hstart := State.numbered_start (g := i.globals) hp.mapLinesAll_raise hworld
  exact State.safe_of_within (hi.within program n) (hi.received program n)
    (hstart.run (hi.within program 0) n)

/-- An initializer that returns a value, and a local name that is taken for a global one in the same
session. -/
theorem safe_of_reads_misplaced :
    ∃ program program',
      Program.ofSourceWith .addressesOnly "class A { init() { return nil; } } A();" =
        .ok program ∧
      Program.ofSourceWith .none "\n{ var b; b; }" = .ok program' ∧
      let i := Interpreter.new ⟨10, 0, none⟩ { rest := [] } false
      let later := (i.execute 15 program).2.2
      (∃ closure demand rest w, closure.initializer = true ∧
        i.stateAt program 12 = .flow (.returned .nil) (.call closure demand :: rest) w) ∧
      (i.stateAt program 12).Safe i.host ∧
      (later.stateAt program' 10).ending =
        .failed (.runtime ⟨"b", 2⟩ (.undefinedVariable "b")) ∧
      (later.stateAt program' 10).Safe later.host := by
  have h : Program.ofSourceWith .addressesOnly "class A { init() { return nil; } } A();" = .ok
      [.classDecl ⟨"A", 1⟩ none
        [.mk false ⟨"init", 1⟩ (.mk [] [.ret ⟨"return", 1⟩ (some (.literal .nil))])],
      .expression (.call (.name ⟨"A", 1⟩ none) ⟨")", 1⟩ [])] := by
    set_option maxRecDepth 4000 in cbv
  have h' : Program.ofSourceWith .none "\n{ var b; b; }" = .ok
      [.block [.varDecl ⟨"b", 2⟩ none, .expression (.name ⟨"b", 2⟩ none)]] := by
    set_option maxRecDepth 4000 in cbv
  have hreads := Program.reads_of_ofSourceWith h
  have hreads' := Program.reads_of_ofSourceWith h'
  refine ⟨_, _, h, h', ⟨_, _, _, _, rfl, rfl⟩, safe_of_reads (.new _ _ _) hreads 12, rfl, ?_⟩
  exact safe_of_reads (.execute (.new _ _ _) ⟨_, hreads⟩ rfl) hreads' 10

end Interpreter

end Lox
