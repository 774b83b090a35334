import Lox.Proofs.Machine.Agreement
import Lox.Proofs.Machine.Embedding

/-!
# Imports

A module runs in globals of its own, in the store of the program that imports it. It runs there as
it would as a program by itself, and what the importing program has is left alone: if the import
succeeds, one name is bound, and if it fails, nothing is.
-/

namespace Lox

/-! ### What is kept and what is seen -/

namespace Store

/-- A store that has changed nothing of another: every frame, class and instance is still the
same. -/
structure Keeps (s s' : Store) : Prop where
  frames : ∀ e < s.frames.size, s'.frames[e]? = s.frames[e]?
  classes : ∀ c < s.classes.size, s'.classes[c]? = s.classes[c]?
  instances : ∀ i < s.instances.size, s'.instances[i]? = s.instances[i]?

variable {s s' : Store}

theorem Keeps.refl (s : Store) : s.Keeps s := ⟨fun _ _ => rfl, fun _ _ => rfl, fun _ _ => rfl⟩

/-- The same change on both sides is kept. -/
theorem Keeps.define (h : s.Keeps s') (e : FrameId) (x : Text) (v : Value) :
    (s.define e x v).Keeps (s'.define e x v) where
  frames e' he := by
    rw [size_define] at he
    unfold Store.define
    rw [Array.getElem?_modify, Array.getElem?_modify, h.frames e' he]
  classes := h.classes
  instances := h.instances

theorem Keeps.lookup (h : s.Keeps s') {e : FrameId} (he : e < s.frames.size) (x : Text) :
    s'.lookup e x = s.lookup e x := by
  unfold Store.lookup
  rw [h.frames e he]

end Store

theorem Placement.keeps_store (x : Placement) (s : Store) : x.base.Keeps (x.store s) where
  frames _ he := frames_store_of_lt he
  classes _ hc := classes_store_of_lt hc
  instances _ hi := instances_store_of_lt hi

/-- What has been seen in a world since another: the output and the problems of rejected modules
of some events. -/
structure World.Shows (w w' : World) (events : List Event) : Prop where
  output : Event.output w'.events.reverse = Event.output w.events.reverse ++ Event.output events
  rejections : Event.rejections w'.events.reverse =
    Event.rejections w.events.reverse ++ Event.rejections events

/-- Messages about the program's work are not seen. -/
theorem World.Shows.of_events {w w' : World} (after : List LogEntry) (events : List Event)
    (entry : LogEntry)
    (h : w'.events = after.map .logged ++ (events ++ .logged entry :: w.events)) :
    w.Shows w' events.reverse := by
  constructor
  · simp [h, Event.output]
  · simp [h, Event.rejections]

/-! ### Modules inside programs -/

/-- The interpreter that runs a module by itself instead of importing it in a world: it finds what
is left of the input and of the clock, and there is less room for calls and imports by those that
are active in the world, and by the import. -/
def Interpreter.inside (host : Host) (w : World) : Interpreter :=
  let new := Interpreter.new { host with limit := host.limit - (w.depth + 1) } w.input false
  { new with world := { new.world with clock := w.clock } }

/-- How the run of a module stands in the run of the program that imports it. -/
def Embedding.ofImport (path : Token) (name file : Text) (env : FrameId) (rest : List Resume)
    (w : World) : Embedding where
  line := id
  base := w.store
  depth := w.depth + 1
  events := .logged (.debug "loading module"
    [("module", Import.path path), ("alias", name), ("path", file)]) :: w.events
  tail := .importing ⟨Import.path path, ⟨name, file, w.store.frames.size⟩, env, w.echo⟩ :: rest

open State

section

variable {host : Host} {path : Token} {name file source : Text} {env : FrameId}
variable {rest : List Resume} {w : World} {program : Program Address}

theorem Placement.store_empty (x : Placement) : x.store {} = x.base := by
  simp [store]

theorem Embedding.host_inside (path : Token) (name file : Text) (env : FrameId)
    (rest : List Resume) (hfull : w.isFull host = false) :
    (Embedding.ofImport path name file env rest w).host
      (Interpreter.inside host w).host = host := by
  have hle : w.depth + 1 ≤ host.limit := by simpa [World.isFull] using hfull
  simp only [Embedding.host, Interpreter.inside, Interpreter.new, Embedding.ofImport,
    Nat.add_sub_cancel' hle]

/-- A module that has been found starts as a program by itself. -/
theorem enterModule_eq (hfull : w.isFull host = false)
    (hp : Program.ofSource source = .ok program) :
    enterModule host path name file source env rest w =
      (Embedding.ofImport path name file env rest w).state
        ((Interpreter.inside host w).stateAt program 0) := by
  -- the module's globals are the first frame of its own run, and the next one in the store
  have hg := Placement.newGlobals_store
    (x := (Embedding.ofImport path name file env rest w).toPlacement) (s := {})
  rw [Placement.store_empty] at hg
  have hs : (Embedding.ofImport path name file env rest w).store ({} : Store).newGlobals.2 =
      w.store.newGlobals.2 := (congrArg Prod.snd hg).symm
  have hl : (Embedding.ofImport path name file env rest w).line = id := rfl
  unfold enterModule
  dsimp only
  rw [show ∀ message fields, (w.log message fields).isFull host = w.isFull host from
    fun _ _ => rfl, hfull, hp]
  unfold Interpreter.stateAt Interpreter.inside Interpreter.new
  simp only [run_zero, State.start, Embedding.state, Embedding.rest, Embedding.world, List.map_cons,
    List.map_nil, Placement.resume, Placement.flow, hs, hl, Stmt.mapLinesAll_id]
  rfl

/-- An import leads to a failure at once, with the store and the depth as they were, or to a module
that starts as a program by itself. -/
theorem importModule_cases (host : Host) (path : Token) (asName : Option Mark) (env : FrameId)
    (rest : List Resume) (w : World) :
    (∃ f w', importModule host path asName env rest w = fail f rest w' ∧ w'.store = w.store ∧
      w'.depth = w.depth) ∨
    ∃ file program, w.isFull host = false ∧
      importModule host path asName env rest w =
        (Embedding.ofImport path (Import.name path asName) file env rest w).state
          ((Interpreter.inside host w).stateAt program 0) := by
  unfold importModule
  dsimp only
  split
  · exact .inl ⟨_, w, rfl, rfl, rfl⟩
  · split
    · exact .inl ⟨_, _, rfl, rfl, rfl⟩
    · exact .inl ⟨_, w, rfl, rfl, rfl⟩
    · next file source _ =>
      cases hfull : w.isFull host with
      | true =>
        unfold enterModule
        exact .inl ⟨_, _, if_pos hfull, rfl, rfl⟩
      | false =>
        cases hp : Program.ofSource source with
        | error rejection =>
          unfold enterModule
          dsimp only
          rw [hp]
          exact .inl ⟨_, _, if_neg (Bool.eq_false_iff.mp hfull), rfl, rfl⟩
        | ok program => exact .inr ⟨file, program, rfl, enterModule_eq hfull hp⟩

end

/-! ### How imports end -/

namespace Embedding

variable {x : Embedding} {host : Host} {i : Importing} {rest : List Resume} {d : Nat}
variable {s u t : State}

/-- When a module has ended, one more step ends its import. -/
theorem finishes_of_isFinal (ht : x.tail = .importing i :: rest) (hu : u.isFinal = true) :
    (x.state u).Finishes host rest ((x.state u).step host) := by
  have hr : x.rest [] = .importing i :: rest := ht
  have hne : x.rest [] ≠ rest := by
    intro h
    simpa using congrArg List.length (hr.symm.trans h)
  cases returned_nil_iff.mpr hu with
  | flow f w =>
    refine .step (fun h => hne (returned_flow_iff.mp h)) (.here ?_)
    simp only [state, hr]
    exact .flow _ _
  | fail f w =>
    refine .step (fun h => hne (returned_fail_iff.mp h)) (.here ?_)
    simp only [state, hr]
    exact .fail _ _

/-- An import finishes if the module does as a program by itself, one step later. -/
theorem finishes_iff (host : Host) (hx : x.line = id) (ht : x.tail = .importing i :: rest)
    (h : s.Within d) :
    (x.state s).Finishes (x.host host) rest t ↔
      ∃ u, s.Finishes host [] u ∧ t = (x.state u).step (x.host host) := by
  have hlt : rest.length < x.tail.length := by simp [ht]
  constructor
  · intro hf
    obtain ⟨u, hu, hf⟩ := exists_finishes hx h hlt hf
    exact ⟨u, hu, hf.unique (finishes_of_isFinal ht (returned_nil_iff.mp hu.returned))⟩
  · rintro ⟨u, hu, rfl⟩
    exact finishes_of_state hx h (Nat.le_of_lt hlt) hu
      (finishes_of_isFinal ht (returned_nil_iff.mp hu.returned))

end Embedding

/-- Only the clock that is left in the world is read. -/
theorem State.run_clock (host : Host) (clock : Clock) (s : State) (n : Nat) :
    s.run { host with clock } n = s.run host n := by
  induction n generalizing s with
  | zero => rfl
  | succ n ih =>
    rw [run_succ, run_succ]
    exact ih (s.step host)

/-- What a run yields, by the state it comes to. -/
theorem Interpreter.execute_eq (i : Interpreter) (n : Nat) (program : Program Address) :
    i.execute n program = ((i.stateAt program n).ending, (i.stateAt program n).world.events.reverse,
      { i with world := { (i.stateAt program n).world with events := [] } }) := rfl

theorem Interpreter.within_inside (host : Host) (w : World) (program : Program Address) (n : Nat) :
    ((Interpreter.inside host w).stateAt program n).Within 0 := by
  have hlt : (Interpreter.inside host w).globals <
      (Interpreter.inside host w).world.store.frames.size := by
    unfold Interpreter.inside Interpreter.new Store.newGlobals
    simp
  exact (within_start Store.ordered_empty.newGlobals hlt).run n

theorem State.Within.finishes {host : Host} {rest : List Resume} {d : Nat} {s u : State}
    (h : s.Within d) (hu : s.Finishes host rest u) : u.Within d := by
  induction hu with
  | here _ => exact h
  | step _ _ ih => exact ih h.step

section

variable {host : Host} {path : Token} {asName : Option Mark} {file : Text} {env : FrameId}
variable {rest : List Resume} {w : World} {program : Program Address} {t : State}

theorem finishes_importDecl_iff :
    (exec (.importDecl path asName) env rest w).Finishes host rest t ↔
      (importModule host path asName env rest w).Finishes host rest t := by
  constructor
  · intro h
    cases h with
    | here hr => cases hr
    | step _ h => exact h
  · exact fun h => .step (by rintro ⟨⟩) h

/-- The import of a module that starts finishes if the module does as a program by itself, one step
later. -/
theorem finishes_import_iff (hfull : w.isFull host = false)
    (heq : importModule host path asName env rest w =
      (Embedding.ofImport path (Import.name path asName) file env rest w).state
        ((Interpreter.inside host w).stateAt program 0)) :
    (exec (.importDecl path asName) env rest w).Finishes host rest t ↔
      ∃ u, ((Interpreter.inside host w).stateAt program 0).Finishes
          (Interpreter.inside host w).host [] u ∧
        t = ((Embedding.ofImport path (Import.name path asName) file env rest w).state u).step
          host := by
  have hh := Embedding.host_inside path (Import.name path asName) file env rest hfull
  have hiff := Embedding.finishes_iff (t := t)
    (x := Embedding.ofImport path (Import.name path asName) file env rest w)
    (Interpreter.inside host w).host rfl rfl (Interpreter.within_inside host w program 0)
  rw [hh] at hiff
  rw [finishes_importDecl_iff, heq, hiff]

/-- What an import that finishes has changed, and what it has not. -/
theorem keeps_of_import (h : (exec (.importDecl path asName) env rest w).Finishes host rest t) :
    (∃ m w', t = flow .normal rest w' ∧ w.store.frames.size ≤ m.globals ∧
      (w.store.define env (Import.name path asName) (.moduleRef m)).Keeps w'.store ∧
      w'.depth = w.depth) ∨
    ∃ f w', t = fail f rest w' ∧ w.store.Keeps w'.store ∧ w'.depth = w.depth := by
  obtain ⟨f, w', heq, hs, hd⟩ | ⟨file, program, hfull, heq⟩ :=
    importModule_cases host path asName env rest w
  · rw [finishes_importDecl_iff, heq] at h
    obtain rfl := h.unique (.here (.fail f w'))
    exact .inr ⟨f, w', rfl, hs ▸ .refl _, hd⟩
  · obtain ⟨u, hu, rfl⟩ := (finishes_import_iff hfull heq).mp h
    have hwithin := (Interpreter.within_inside host w program 0).finishes hu
    let x := Embedding.ofImport path (Import.name path asName) file env rest w
    cases hu.returned with
    | flow f wu =>
      have hd : wu.depth = 0 := hwithin.1.depth
      refine .inl ⟨⟨Import.name path asName, file, w.store.frames.size⟩, _, rfl, Nat.le_refl _,
        (x.keeps_store wu.store).define _ _ _, ?_⟩
      change x.depth + wu.depth - 1 = w.depth
      rw [hd]
      rfl
    | fail f wu =>
      have hd : wu.depth = 0 := hwithin.depth
      refine .inr ⟨f.mapLine id, _, rfl, x.keeps_store wu.store, ?_⟩
      change x.depth + wu.depth - 1 = w.depth
      rw [hd]
      rfl

end

/-! ### Modules as programs -/

/-- The numbers on from those of a store. -/
def Placement.behind (s : Store) : Placement := ⟨id, s⟩

/-- What stands in a store from where a placement puts it is a copy of another store. -/
structure Placement.Copies (x : Placement) (s s' : Store) : Prop where
  frames : ∀ e, s'.frames[x.frame e]? = s.frames[e]?.map x.frameInfo
  classes : ∀ c, s'.classes[x.classId c]? = s.classes[c]?.map x.classInfo
  instances : ∀ i, s'.instances[x.instanceId i]? = s.instances[i]?.map x.instanceInfo

/-- A name that is bound in front changes nothing of what has been placed. -/
theorem Placement.copies_define_store (x : Placement) (s : Store) {env : FrameId}
    (henv : env < x.base.frames.size) (y : Text) (v : Value) :
    x.Copies s ((x.store s).define env y v) where
  frames e := by
    have hne : env ≠ x.frame e := Nat.ne_of_lt (Nat.lt_add_right e henv)
    rw [← frames_store]
    unfold Store.define
    rw [Array.getElem?_modify, if_neg hne]
  classes _ := classes_store
  instances _ := instances_store

theorem Placement.Copies.lookup {x : Placement} {s s' : Store} (h : x.Copies s s') (e : FrameId)
    (y : Text) : s'.lookup (x.frame e) y = (s.lookup e y).map x.value := by
  unfold Store.lookup
  rw [h.frames]
  cases s.frames[e]? with
  | none => rfl
  | some f => exact Table.find?_map x.value f.bindings y

@[simp] theorem Failure.mapLine_id (f : Failure) : f.mapLine id = f := by
  cases f <;> rfl

section

variable {host : Host} {path : Token} {asName : Option Mark} {file : Text} {env : FrameId}
variable {rest : List Resume} {w : World} {program : Program Address} {n : Nat}
variable (hfull : w.isFull host = false)
  (heq : importModule host path asName env rest w =
    (Embedding.ofImport path (Import.name path asName) file env rest w).state
      ((Interpreter.inside host w).stateAt program 0))

include hfull heq

theorem run_import (hn : ((Interpreter.inside host w).stateAt program n).isFinal = false) :
    (exec (.importDecl path asName) env rest w).run host (n + 1) =
      (Embedding.ofImport path (Import.name path asName) file env rest w).state
        ((Interpreter.inside host w).stateAt program n) := by
  have hrun := Embedding.run_state (n := n)
    (x := Embedding.ofImport path (Import.name path asName) file env rest w) rfl
    (Interpreter.within_inside host w program 0) hn
  rw [Embedding.host_inside path _ file env rest hfull] at hrun
  rw [run_succ]
  change (importModule host path asName env rest w).run host n = _
  rw [heq]
  exact hrun

/-- While a module runs, it has been seen to do what it does as a program by itself. -/
theorem import_running (hn : ((Interpreter.inside host w).stateAt program n).isFinal = false) :
    (∀ k ≤ n + 1, ¬ ((exec (.importDecl path asName) env rest w).run host k).Returned rest) ∧
      w.Shows ((exec (.importDecl path asName) env rest w).run host (n + 1)).world
        ((Interpreter.inside host w).stateAt program n).world.events.reverse ∧
      ((exec (.importDecl path asName) env rest w).run host (n + 1)).world.input =
        ((Interpreter.inside host w).stateAt program n).world.input ∧
      ((exec (.importDecl path asName) env rest w).run host (n + 1)).world.clock =
        ((Interpreter.inside host w).stateAt program n).world.clock := by
  refine ⟨fun k hk => ?_, ?_⟩
  · cases k with
    | zero => rintro ⟨⟩
    | succ k =>
      have hk : ((Interpreter.inside host w).stateAt program k).isFinal = false :=
        isFinal_of_le (Nat.le_of_succ_le_succ hk) hn
      rw [run_import hfull heq hk]
      exact Embedding.not_returned hk (Nat.le_succ _)
  · rw [run_import hfull heq hn, Embedding.world_state]
    exact ⟨.of_events [] _ _ rfl, rfl, rfl⟩

/-- A module that ends is bound, and what it has bound is a copy of what it binds as a program by
itself. -/
theorem import_finished (henv : env < w.store.frames.size) {f : Flow} {main : World}
    (hn : (Interpreter.inside host w).stateAt program n = flow f [] main) :
    ∃ loaded w', (exec (.importDecl path asName) env rest w).Finishes host rest
        (flow .normal rest w') ∧ w.Shows w' main.events.reverse ∧
      w'.input = main.input ∧ w'.clock = main.clock ∧
      w'.store.lookup env (Import.name path asName) = some (.moduleRef loaded) ∧
      loaded.globals = (Placement.behind w.store).frame (Interpreter.inside host w).globals ∧
      (Placement.behind w.store).Copies main.store w'.store := by
  have hu : ((Interpreter.inside host w).stateAt program 0).Finishes
      (Interpreter.inside host w).host [] (flow f [] main) := by
    rw [← hn]
    exact finishes_run (n := n) (congrArg State.isFinal hn)
  have hf := (finishes_import_iff hfull heq).mpr ⟨_, hu, rfl⟩
  refine ⟨⟨Import.name path asName, file, w.store.frames.size⟩, _, hf, .of_events [_] _ _ rfl, rfl,
    rfl, ?_, rfl, (Placement.behind w.store).copies_define_store main.store henv _ _⟩
  refine Store.lookup_define_self ?_
  change env < ((Placement.behind w.store).store main.store).frames.size
  rw [Placement.size_frames_store]
  exact Nat.lt_add_right _ henv

/-- A module that fails fails in the same way as a program by itself. -/
theorem import_failed {f : Failure} {main : World}
    (hn : (Interpreter.inside host w).stateAt program n = fail f [] main) :
    ∃ w', (exec (.importDecl path asName) env rest w).Finishes host rest (fail f rest w') ∧
      w.Shows w' main.events.reverse ∧ w'.input = main.input ∧ w'.clock = main.clock := by
  have hu : ((Interpreter.inside host w).stateAt program 0).Finishes
      (Interpreter.inside host w).host [] (fail f [] main) := by
    rw [← hn]
    exact finishes_run (n := n) (congrArg State.isFinal hn)
  have hstep : ((Embedding.ofImport path (Import.name path asName) file env rest w).state
        (fail f [] main)).step host =
      fail f rest { (Embedding.world _ main).leave with echo := w.echo } :=
    congrArg (fail · rest _) (Failure.mapLine_id f)
  exact ⟨_, (finishes_import_iff hfull heq).mpr ⟨_, hu, hstep.symm⟩, .of_events [] _ _ rfl, rfl,
    rfl⟩

end

/-- A module does what it would do as a program by itself, with room for one more call: as long as
that runs, the import does, with the same output, from the same input and at the same times; if that
ends, the import does and the properties of the module are copies of its globals; and if it fails,
the import fails in the same way. -/
theorem State.import_runs_as_main {host : Host} {m : Nat} {locate : Text → Located}
    {file source : Text} {program : Program Address} (path : Token) (asName : Option Mark)
    (env : FrameId) (rest : List Resume) (w : World) (hlimit : host.limit = m + 1)
    (hmodules : host.modules = some locate)
    (hfound : locate (Import.path path) = .found file source)
    (hsource : Program.ofSource source = .ok program) (hdepth : w.depth = 0)
    (henv : env < w.store.frames.size) (n : Nat) :
    let importing := exec (.importDecl path asName) env rest w
    match (Interpreter.new { host with limit := m, clock := w.clock } w.input false).execute n
      program with
    | (.finished, events, main) =>
      ∃ loaded w', importing.Finishes host rest (flow .normal rest w') ∧ w.Shows w' events ∧
        w'.input = main.world.input ∧ w'.clock = main.world.clock ∧
        w'.store.lookup env (Import.name path asName) = some (.moduleRef loaded) ∧
        (∀ x, w'.store.property (.moduleRef loaded) x =
          ((main.world.store.lookup main.globals x).map fun v =>
            .value ((Placement.behind w.store).value v)).getD .undefined) ∧
        (Placement.behind w.store).Copies main.world.store w'.store
    | (.failed f, events, main) =>
      ∃ w', importing.Finishes host rest (fail f rest w') ∧ w.Shows w' events ∧
        w'.input = main.world.input ∧ w'.clock = main.world.clock
    | (.outOfSteps, events, main) =>
      (∀ k ≤ n + 1, ¬ (importing.run host k).Returned rest) ∧
        w.Shows (importing.run host (n + 1)).world events ∧
        (importing.run host (n + 1)).world.input = main.world.input ∧
        (importing.run host (n + 1)).world.clock = main.world.clock := by
  have hfull : w.isFull host = false := by simp [World.isFull, hlimit, hdepth]
  have heq : importModule host path asName env rest w =
      (Embedding.ofImport path (Import.name path asName) file env rest w).state
        ((Interpreter.inside host w).stateAt program 0) := by
    unfold importModule
    simp only [hmodules, hfound]
    exact enterModule_eq hfull hsource
  have hm : host.limit - (w.depth + 1) = m := by rw [hlimit, hdepth, Nat.add_sub_cancel]
  have hmain : (Interpreter.new { host with limit := m, clock := w.clock } w.input false).stateAt
      program n = (Interpreter.inside host w).stateAt program n := by
    subst hm
    exact run_clock { host with limit := host.limit - (w.depth + 1) } w.clock _ n
  rw [Interpreter.execute_eq, hmain]
  cases hn : ((Interpreter.inside host w).stateAt program n).isFinal with
  | false =>
    rw [ending_of_not_final hn]
    exact import_running hfull heq hn
  | true =>
    have hreturned := returned_nil_iff.mpr hn
    generalize hu : (Interpreter.inside host w).stateAt program n = u at hreturned
    cases hreturned with
    | flow f main =>
      obtain ⟨loaded, w', hf, hshows, hinput, hclock, hl, hg, hc⟩ :=
        import_finished hfull heq henv hu
      refine ⟨loaded, w', hf, hshows, hinput, hclock, hl, fun x => ?_, hc⟩
      simp only [Store.property, hg, hc.lookup, Option.map_map]
      rfl
    | fail f main => exact import_failed hfull heq hu

/-- A module that reads the clock twice while time goes on. The importing program has read it once
and has another global of the same name. -/
theorem State.import_runs_as_main_clock :
    let source : Text := "var x = clock(); print nil; var y = clock();"
    let host : Host := ⟨2, ⟨Float.ofNat, 0⟩, some fun _ => .found "m.lox" source⟩
    let new := (Interpreter.new host { rest := [] } true).world
    let w := { new with clock := new.clock.read.2 }.define 0 "x" (.bool true)
    ∃ program loaded w', Program.ofSource source = .ok program ∧
      (exec (.importDecl ⟨.string, "\"m\"", .string "m", 1⟩ none) 0 [] w).Finishes host []
        (flow .normal [] w') ∧
      Event.output w'.events.reverse = "nil\n" ∧ w'.clock = ⟨Float.ofNat, 3⟩ ∧
      w'.store.lookup 0 "m" = some (.moduleRef loaded) ∧
      w'.store.property (.moduleRef loaded) "x" = .value (.number (Float.ofNat 1)) ∧
      w'.store.property (.moduleRef loaded) "y" = .value (.number (Float.ofNat 2)) := by
  intro source host new w
  have hp : Program.ofSource "var x = clock(); print nil; var y = clock();" = .ok
      [.varDecl ⟨"x", 1⟩ (some (.call (.name ⟨"clock", 1⟩ none) ⟨")", 1⟩ [])),
        .print (.literal .nil),
        .varDecl ⟨"y", 1⟩ (some (.call (.name ⟨"clock", 1⟩ none) ⟨")", 1⟩ []))] := by
    set_option maxRecDepth 4000 in cbv
  have hlimit : host.limit = 1 + 1 := rfl
  obtain ⟨loaded, w', hf, hshows, -, hclock, hl, hx, -⟩ := import_runs_as_main
    ⟨.string, "\"m\"", .string "m", 1⟩ none 0 [] w hlimit rfl rfl hp rfl (by decide) 20
  exact ⟨_, loaded, w', hp, hf, hshows.output, hclock, hl, hx "x", hx "y"⟩

/-! ### Isolation -/

namespace Interpreter

variable {i : Interpreter} {sources : List Text} {origins : List Origin}
  {program : Program Address}

theorem Reachable.globals_lt (h : i.Reachable sources origins) :
    i.globals < i.world.store.frames.size := by
  obtain ⟨hs, hg⟩ := h.sound
  obtain ⟨hlt, -⟩ := List.getElem?_eq_some_iff.mp hg
  rwa [hs.size] at hlt

/-- In a session nothing dangles. -/
theorem Reachable.ordered (h : i.Reachable sources origins) : i.world.store.Ordered := by
  induction h with
  | new host input echo => exact Store.ordered_empty.newGlobals
  | execute n hi _ ih => exact ((within_start ih hi.globals_lt).run n).ordered
  | read input _ ih => exact ih

theorem Reachable.within (h : i.Reachable sources origins) (program : Program Address) (n : Nat) :
    (i.stateAt program n).Within i.world.depth :=
  (within_start h.ordered h.globals_lt).run n

/-- An import that succeeds binds its name to the new module and changes nothing else that was
there; one that fails changes nothing. Either way as many calls and imports are active as before. -/
theorem import_keeps {n : Nat} {path : Token} {asName : Option Mark} {env : FrameId}
    {rest : List Resume} {w : World} {t : State} (hi : i.Reachable sources origins)
    (hs : i.stateAt program n = .exec (.importDecl path asName) env rest w)
    (ht : (i.stateAt program n).Finishes i.host rest t) :
    (∃ m w', t = .flow .normal rest w' ∧ w.store.frames.size ≤ m.globals ∧
      w'.store.lookup env (Import.name path asName) = some (.moduleRef m) ∧
      (w.store.define env (Import.name path asName) (.moduleRef m)).Keeps w'.store ∧
      w'.depth = w.depth) ∨
    ∃ f w', t = .fail f rest w' ∧ w.store.Keeps w'.store ∧ w'.depth = w.depth := by
  have hwithin := hi.within program n
  rw [hs] at ht hwithin
  have henv : env < w.store.frames.size := hwithin.2
  obtain ⟨m, w', rfl, hm, hk, hd⟩ | hfail := keeps_of_import ht
  · refine .inl ⟨m, w', rfl, hm, ?_, hk, hd⟩
    rw [hk.lookup (by rwa [Store.size_define]), Store.lookup_define_self henv]
  · exact .inr hfail

/-- An import in the body of a function. -/
theorem import_keeps_local :
    ∃ program, Program.ofSource "fun f() \x7b import \"m\" as a; \x7d f();" = .ok program ∧
      let i := Interpreter.new ⟨10, 0, some fun _ => .found "m.lox" "var x = nil;"⟩
        { rest := [] } false
      ∃ path asName env rest w m w',
        i.stateAt program 8 = .exec (.importDecl path asName) env rest w ∧
        (i.stateAt program 8).Finishes i.host rest (.flow .normal rest w') ∧
        w'.store.lookup env "a" = some (.moduleRef m) ∧
        (w.store.define env "a" (.moduleRef m)).Keeps w'.store ∧ w'.depth = w.depth := by
  let path : Token := ⟨.string, "\"m\"", .string "m", 1⟩
  let program : Program Address :=
    [.funDecl ⟨"f", 1⟩ (.mk [] [.importDecl path (some ⟨"a", 1⟩)]),
      .expression (.call (.name ⟨"f", 1⟩ none) ⟨")", 1⟩ [])]
  have h : Program.ofSource "fun f() \x7b import \"m\" as a; \x7d f();" = .ok program := by
    set_option maxRecDepth 4000 in cbv
  have hm : Program.ofSource "var x = nil;" = .ok
      [.varDecl ⟨"x", 1⟩ (some (.literal .nil))] := by
    set_option maxRecDepth 2000 in cbv
  refine ⟨program, h, ?_⟩
  intro i
  have hi : i.Reachable [] [.session] := .new _ _ _
  obtain ⟨env, rest, w, hs, hfull⟩ : ∃ env rest w,
      i.stateAt program 8 = .exec (.importDecl path (some ⟨"a", 1⟩)) env rest w ∧
        w.isFull i.host = false := ⟨_, _, _, rfl, rfl⟩
  obtain ⟨w', hf⟩ : ∃ w', (i.stateAt program 8).Finishes i.host rest (.flow .normal rest w') := by
    rw [hs]
    exact ⟨_, (finishes_import_iff hfull (enterModule_eq hfull hm)).mpr
      ⟨_, finishes_run (n := 5) rfl, rfl⟩⟩
  obtain ⟨m, w'', heq, -, hl, hk, hd⟩ | ⟨f, w'', heq, -⟩ := import_keeps hi hs hf
  · cases heq
    exact ⟨path, _, env, rest, w, m, w', hs, hf, hl, hk, hd⟩
  · cases heq

end Interpreter

end Lox
