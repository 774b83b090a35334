import Lox.Proofs.Machine.Changes
import Lox.Proofs.Machine.Growth
import Lox.Proofs.Store.Chain
import Mathlib

/-!
# A well-founded heap

In every state of a session frames are younger than the frames around them and classes younger than
their superclasses, so whatever follows these links comes to an end. Frames without a parent are
those opened for the globals of a session or of a module, and every chain of frames ends in one of
them and passes through no other.
-/

namespace Lox

namespace Store

variable {s : Store} {e g : FrameId} {x : Text}

/-- The links of a store are well-founded. Frames and classes are younger than what they are linked
to, everything refers to something that is there, searches follow the links to the end, and every
chain of frames ends in the one frame of globals that it contains. -/
structure Founded (s : Store) (origins : List Origin) : Prop where
  parent : ∀ e p : Nat, s.parent? e = some p → p < e
  superclass : ∀ (c d : Nat) info, s.classes[c]? = some info → info.superclass = some d → d < c
  metaclass : ∀ (c m : Nat) info, s.classes[c]? = some info → info.metaclass = some m →
    m < c ∧ s.classes[m]?.map ClassInfo.superclass =
      some ((info.superclass.bind (s.classes[·]?)).bind ClassInfo.metaclass)
  instances : ∀ (i : Nat) info, s.instances[i]? = some info → info.classId < s.classes.size
  contents : s.All s.Has s.HasMethod
  wf_parent : WellFounded fun p e : Nat => s.parent? e = some p
  wf_superclass : WellFounded fun d c : Nat =>
    ∃ info : ClassInfo, s.classes[c]? = some info ∧ info.superclass = some d
  chain : ∀ e, s.chain e = e :: ((s.parent? e).map s.chain).getD []
  root : ∀ e, s.root e = ((s.parent? e).map s.root).getD e
  get : ∀ e x, s.get e x = (s.lookup e x).or ((s.parent? e).bind (s.get · x))
  assign : ∀ e x v, s.assign e x v =
    if s.binds e x then some (s.define e x v) else (s.parent? e).bind (s.assign · x v)
  ancestor : ∀ e d, s.ancestor e d = (s.chain e)[d]?
  findMethod : ∀ c x, s.findMethod c x = s.classes[c]?.bind fun info =>
    (info.methods.find? x).or (info.superclass.bind (s.findMethod · x))
  last : ∀ e, (s.chain e).getLast? = some (s.root e)
  globals : ∀ e < s.frames.size, ∀ g ∈ s.chain e,
    (∃ origin, origins[g]? = some origin ∧ origin.isGlobal = true) ↔ g = s.root e

theorem getElem?_of_topsOf {origins : List Origin}
    (h : origins.map Origin.isGlobal = s.parents.map Option.isNone) (hg : g < s.frames.size) :
    (∃ origin, origins[g]? = some origin ∧ origin.isGlobal = true) ↔ s.parent? g = none := by
  have hget := congrArg (·[g]?) h
  simp only [List.getElem?_map] at hget
  rw [parent?_eq]
  have hlt : g < s.parents.length := by
    rw [length_parents]
    exact hg
  rw [List.getElem?_eq_getElem hlt] at hget ⊢
  cases ho : origins[g]? with
  | none =>
    rw [ho] at hget
    cases hget
  | some origin =>
    rw [ho] at hget
    have hiff : origin.isGlobal = (s.parents[g]).isNone := Option.some.inj hget
    simp [hiff]

/-- A store in order is well-founded if its metaclasses inherit as they should and its frames have
parents as they should. -/
theorem Ordered.founded (h : s.Ordered) (hl : Lineage s.links) {origins : List Origin}
    (ho : origins.map Origin.isGlobal = s.parents.map Option.isNone) : s.Founded origins where
  parent := h.parent
  superclass c d info hc hd := (h.classes c info hc).1 d hd
  metaclass c m info hc hm := by
    have hlink : s.links[c]? = some (info.superclass, info.metaclass) := by
      rw [getElem?_links, hc]
      rfl
    obtain ⟨hlt, hmeta⟩ := (hl c _ _ hlink).2 m hm
    refine ⟨hlt, ?_⟩
    rw [superMeta_links, getElem?_links, Option.map_map] at hmeta
    exact hmeta
  instances := h.instances
  contents := h.contents
  wf_parent := Subrelation.wf (fun {p e} hp => h.parent e p hp) Nat.lt_wfRel.wf
  wf_superclass := by
    refine Subrelation.wf ?_ Nat.lt_wfRel.wf
    rintro d c ⟨info, hc, hd⟩
    exact (h.classes c info hc).1 d hd
  chain := h.nested.chain_eq
  root := h.nested.root_eq
  get := h.nested.get_eq
  assign := h.nested.assign_eq
  ancestor := h.nested.ancestor_eq
  findMethod := h.classes.findMethod_eq
  last := h.nested.getLast?_chain
  globals e he g hg := by
    have hlt : g < s.frames.size := Nat.lt_of_le_of_lt (h.nested.le_of_mem_chain hg) he
    rw [getElem?_of_topsOf ho hlt]
    exact h.nested.parent?_eq_none_iff hg

end Store

/-! ### Runs -/

namespace State

variable (host : Host) {s : State} {d : Nat}

/-- A run adds frames after those that are there, with parents unless they are ones of globals. -/
theorem parents_run (s : State) (n : Nat) :
    ∃ new : List (Option FrameId),
      (s.run host n).world.store.parents = s.world.store.parents ++ new ∧
        new.map Option.isNone = (s.opened host n).map Origin.isGlobal := by
  induction n generalizing s with
  | zero => exact ⟨[], (List.append_nil _).symm, rfl⟩
  | succ n ih =>
    unfold State.run State.opened
    by_cases hfinal : s.isFinal = true
    · rw [if_pos hfinal, if_pos hfinal]
      exact ⟨[], (List.append_nil _).symm, rfl⟩
    · rw [if_neg hfinal, if_neg hfinal]
      obtain ⟨first, hfirst, htops⟩ := (changes_step host s).parents
      obtain ⟨later, hlater, htops'⟩ := ih (s.step host)
      refine ⟨first ++ later, ?_, ?_⟩
      · rw [hlater, hfirst, List.append_assoc]
      · rw [List.map_append, List.map_append, htops, htops']

/-- A run adds classes after those that are there. -/
theorem links_run (s : State) (n : Nat) :
    s.world.store.links <+: (s.run host n).world.store.links := by
  induction n generalizing s with
  | zero => exact List.prefix_refl _
  | succ n ih =>
    rw [run_succ]
    exact (changes_step host s).links.trans (ih (s.step host))

theorem lineage_run (h : s.Within d) (hl : Store.Lineage s.world.store.links) (n : Nat) :
    Store.Lineage (s.run host n).world.store.links := by
  induction n generalizing s with
  | zero => exact hl
  | succ n ih =>
    rw [run_succ]
    exact ih h.step ((changes_step host s).lineage h.ordered hl)

end State

/-! ### Sessions -/

namespace Interpreter

/-- The interpreters that a session can come to, with what its frames were opened for. The session
runs programs of a kind, whatever their addresses, each for any number of steps; between two of them
the input may change. -/
inductive Arises (kind : Program Address → Prop) : Interpreter → List Origin → Prop
  | new (host : Host) (input : Input) (echo : Bool) :
      Arises kind (Interpreter.new host input echo) [.session]
  | execute {i : Interpreter} {origins : List Origin} {program : Program Address} (n : Nat) :
      Arises kind i origins → kind program →
      Arises kind (i.execute n program).2.2 (origins ++ i.opened program n)
  | read {i : Interpreter} {origins : List Origin} (input : Input) : Arises kind i origins →
      Arises kind { i with world := { i.world with input } } origins

/-- What holds of the store and the globals of an interpreter. -/
structure Steady (i : Interpreter) (origins : List Origin) : Prop where
  ordered : i.world.store.Ordered
  globals : i.globals < i.world.store.frames.size
  lineage : Store.Lineage i.world.store.links
  origins : origins.map Origin.isGlobal = i.world.store.parents.map Option.isNone

variable {i : Interpreter} {origins : List Origin} {kind : Program Address → Prop}

theorem Steady.within (h : i.Steady origins) (program : Program Address) (n : Nat) :
    (i.stateAt program n).Within i.world.depth :=
  (State.within_start h.ordered h.globals).run n

theorem Steady.lineage_stateAt (h : i.Steady origins) (program : Program Address) (n : Nat) :
    Store.Lineage (i.stateAt program n).world.store.links :=
  State.lineage_run i.host (h.within program 0) h.lineage n

theorem Steady.origins_stateAt (h : i.Steady origins) (program : Program Address) (n : Nat) :
    (origins ++ i.opened program n).map Origin.isGlobal =
      (i.stateAt program n).world.store.parents.map Option.isNone := by
  obtain ⟨new, hnew, htops⟩ := State.parents_run i.host (i.stateAt program 0) n
  have hstate : (i.stateAt program n).world.store.parents =
      i.world.store.parents ++ new := hnew
  rw [hstate, List.map_append, List.map_append, h.origins, htops]
  rfl

/-- Every interpreter of a session is steady. -/
theorem Arises.steady (h : i.Arises kind origins) : i.Steady origins := by
  induction h with
  | new host input echo =>
    refine ⟨Store.ordered_empty.newGlobals, ?_, ?_, ?_⟩
    · unfold Interpreter.new Store.newGlobals
      simp
    · rintro c superclass metaclass hc
      cases hc
    · rfl
  | @execute i origins program n _ _ ih =>
    refine ⟨(ih.within program n).ordered, ?_, ih.lineage_stateAt program n,
      ih.origins_stateAt program n⟩
    have hlt := ih.globals
    exact Nat.lt_of_lt_of_le hlt (State.extends_run (s := .start program i.globals i.world)).size
  | read input _ ih => exact ⟨ih.ordered, ih.globals, ih.lineage, ih.origins⟩

/-- In every state of every session nothing dangles, the links of the store are well-founded, and
they are those of all earlier states with more behind them. -/
theorem heap_founded (h : i.Arises kind origins) (program : Program Address) (n : Nat) :
    (i.stateAt program n).Within i.world.depth ∧
      (i.stateAt program n).world.store.Founded (origins ++ i.opened program n) ∧
      ∀ m ≤ n,
        (i.stateAt program m).world.store.parents <+: (i.stateAt program n).world.store.parents ∧
        (i.stateAt program m).world.store.links <+: (i.stateAt program n).world.store.links := by
  have hs := h.steady
  have hwithin := hs.within program n
  refine ⟨hwithin, hwithin.ordered.founded (hs.lineage_stateAt program n)
    (hs.origins_stateAt program n), fun m hm => ?_⟩
  obtain ⟨k, rfl⟩ := Nat.exists_eq_add_of_le hm
  have hlater : i.stateAt program (m + k) = (i.stateAt program m).run i.host k :=
    State.run_add m k
  rw [hlater]
  obtain ⟨new, hnew, -⟩ := State.parents_run i.host (i.stateAt program m) k
  exact ⟨⟨new, hnew.symm⟩, State.links_run i.host (i.stateAt program m) k⟩

/-- A class that inherits a metaclass, and the call of a static method that an earlier program of
the session has bound to it. -/
theorem heap_founded_metaclass :
    ∃ program program', Program.ofSource
        "class A { class f() { return this; } } class B < A {} var m = B.f;" = .ok program ∧
      Program.ofSource "m();" = .ok program' ∧
      let i := Interpreter.new ⟨4, 0, none⟩ { rest := [] } false
      let later := (i.execute 12 program).2.2
      let s := later.stateAt program' 6
      s.world.store.links = [(none, none), (none, some 0), (some 0, none), (some 1, some 2)] ∧
        s.world.store.parents = [none, some 0, some 0, some 2] ∧
        s.Within later.world.depth ∧
        s.world.store.Founded ([.session] ++ i.opened program 12 ++ later.opened program' 6) := by
  have h : Program.ofSource
      "class A { class f() { return this; } } class B < A {} var m = B.f;" = .ok
        [.classDecl ⟨"A", 1⟩ none
          [.mk true ⟨"f", 1⟩ (.mk []
            [.ret ⟨"return", 1⟩ (some (.receiver ⟨"this", 1⟩ (some 1)))])],
        .classDecl ⟨"B", 1⟩ (some (⟨"A", 1⟩, none)) [],
        .varDecl ⟨"m", 1⟩ (some (.get (.name ⟨"B", 1⟩ none) ⟨"f", 1⟩))] := by
    set_option maxRecDepth 8000 in cbv
  have h' : Program.ofSource "m();" =
      .ok [.expression (.call (.name ⟨"m", 1⟩ none) ⟨")", 1⟩ [])] := by
    set_option maxRecDepth 4000 in cbv
  have hnew : Arises (fun _ => True) (Interpreter.new ⟨4, 0, none⟩ { rest := [] } false)
      [.session] := .new _ _ _
  obtain ⟨hwithin, hfounded, -⟩ := heap_founded (hnew.execute 12 trivial) _ 6
  exact ⟨_, _, h, h', rfl, rfl, hwithin, hfounded⟩

end Interpreter

end Lox
