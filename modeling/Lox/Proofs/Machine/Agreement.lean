import Lox.Proofs.Machine.Preservation
import Mathlib

/-!
# Agreement of scopes and frames

Whenever a run comes to a reference, the frames around it are those that were opened for the scopes
that the resolver had open there, one for each, and the globals of the program or module that the
reference stands in. So the address of a reference leads to the frame of the scope that declares its
name, and a reference without an address is one to the globals of its own program.
-/

namespace Lox

/-! ### References -/

/-- The reference that an expression itself is, whatever its parts refer to. -/
def Expr.reference? {ρ : Type} : Expr ρ → Option (Reference ρ)
  | .name mark ref => some ⟨.read, mark, ref⟩
  | .assign mark ref _ => some ⟨.assignment, mark, ref⟩
  | .receiver keyword ref => some ⟨.receiver, keyword, ref⟩
  | .inherited keyword _ ref => some ⟨.inherited, keyword, ref⟩
  | _ => none

/-- The reference that the next step is about, and the frame it is looked up from. An assignment is
met twice: before its value is known and when it is carried out. -/
def State.reference? : State → Option (Reference Address × FrameId)
  | eval e env _ _ _ => e.reference?.map (·, env)
  | value _ ⟨.assign mark ref env :: _, _⟩ _ _ => some (⟨.assignment, mark, ref⟩, env)
  | exec (.classDecl _ (some (mark, ref)) _) env _ _ => some (⟨.read, mark, ref⟩, env)
  | _ => none

/-- A reference with which nothing is wrong has the address of its name. -/
theorem Expr.reference?_of_resolve {s : Surroundings} {scopes : Scopes} {e : Expr Unit}
    {r : Reference Address} (hr : (e.resolve s scopes).1.reference? = some r)
    (hf : (e.resolve s scopes).2 = []) :
    e.reference? = some ⟨r.kind, r.mark, ()⟩ ∧ r.ref = scopes.address r.name := by
  have keyword : ∀ {problem? : Option ScopeProblem} {mark : Mark} {x : Text},
      (scopes.keyword problem? mark x).2 = [] →
      (scopes.keyword problem? mark x).1 = scopes.address x := by
    intro problem? mark x h
    cases problem? with
    | none => rfl
    | some problem => cases h
  cases e with
  | name mark ref | assign mark ref value =>
    obtain rfl := Option.some.inj hr
    exact ⟨rfl, rfl⟩
  | receiver mark ref | inherited mark method ref =>
    obtain rfl := Option.some.inj hr
    exact ⟨rfl, keyword hf⟩
  | _ => cases hr

/-- The nearest scope that declares a name. -/
theorem Scopes.address_eq_some {scopes : Scopes} {x : Text} {d : Nat}
    (h : scopes.address x = some d) :
    ∃ scope, scopes[d]? = some scope ∧ scope.contains x ∧
      ∀ d' < d, ∀ inner, scopes[d']? = some inner → ¬ inner.contains x := by
  obtain ⟨hlt, hx, hinner⟩ := List.findIdx?_eq_some_iff_getElem.mp h
  refine ⟨scopes[d], List.getElem?_eq_getElem hlt, hx, fun d' hd' inner hi => ?_⟩
  obtain ⟨hlt', rfl⟩ := List.getElem?_eq_some_iff.mp hi
  exact hinner d' hd'

theorem Scopes.address_eq_none {scopes : Scopes} {x : Text} (h : scopes.address x = none) :
    ∀ scope ∈ scopes, ¬ scope.contains x := by
  simpa using List.findIdx?_eq_none_iff.mp h

/-! ### Frames that fit -/

/-- A reference from a frame is to one frame, whether it is read or assigned to. -/
def Store.LeadsTo (s : Store) (env : FrameId) (ref : Address) (frame : FrameId) : Prop :=
  ∀ x, s.read env ref x = s.lookup frame x ∧
    s.writable env ref x = if s.binds frame x then some frame else none

namespace Setting

variable {Δ : Setting} {gain : Gain} {source : Text} {scopes : Scopes} {opened : List Origin}
  {e env : FrameId}

/-- A frame that fits, with those around it: each was opened for its scope and binds what is ready
there, and the globals come last. -/
structure Around (Δ : Setting) (gain : Gain) (scopes : Scopes) (opened : List Origin)
    (env : FrameId) (frames : List FrameId) (g : FrameId) : Prop where
  chain : ∀ bound, env ≤ bound → Δ.store.chainFrom bound env = frames ++ [g]
  root : ∀ bound, env ≤ bound → Δ.store.rootFrom bound env = g
  ancestor : ∀ d, Δ.store.ancestor env d = (frames ++ [g])[d]?
  alone : Δ.store.parent? g = none
  origins : List.Forall₂ (fun frame origin => Δ.origins[frame]? = some origin) frames opened
  ready : List.Forall₂ (fun frame (scope : Scope) => ∀ x, scope.find? x = some true →
    Δ.store.binds frame x ∨ gain = some (frame, x)) frames scopes

theorem Fits.frames (h : Δ.Fits gain source scopes opened env) (hs : Δ.Sound) :
    ∃ frames g, Δ.Runs source g ∧ Δ.Around gain scopes opened env frames g := by
  induction h with
  | @globals g hr =>
    obtain ⟨o, ho, hg⟩ := hr.exists_origin
    have hp := hs.globals ho hg
    refine ⟨[], g, hr, ?_, ?_, ?_, hp, .nil, .nil⟩
    · rintro (_ | bound) _ <;> simp [Store.chainFrom, hp]
    · rintro (_ | bound) _ <;> simp [Store.rootFrom, hp]
    · rintro (_ | d) <;> simp [Store.ancestor, hp]
  | @frame scope scopes origin opened e outer ho hp hlt hb _ ih =>
    obtain ⟨frames, g, hr, ha⟩ := ih
    -- a parent has a smaller number, so the bound of the search is large enough for it too
    have next : ∀ {bound}, e ≤ bound + 1 → outer ≤ bound :=
      fun hle => Nat.le_of_lt_succ (Nat.lt_of_lt_of_le hlt hle)
    have zero : ¬ e ≤ 0 := fun hle => Nat.not_lt_zero outer (Nat.lt_of_lt_of_le hlt hle)
    refine ⟨e :: frames, g, hr, ?_, ?_, ?_, ha.alone, .cons ho ha.origins, .cons hb ha.ready⟩
    · rintro (_ | bound) hle
      · exact absurd hle zero
      · simp [Store.chainFrom, hp, ha.chain bound (next hle)]
    · rintro (_ | bound) hle
      · exact absurd hle zero
      · simp [Store.rootFrom, hp, ha.root bound (next hle)]
    · rintro (_ | d)
      · simp [Store.ancestor]
      · simp [Store.ancestor, hp, ha.ancestor d]

variable {frames : List FrameId} {g : FrameId}

theorem Around.leadsTo_frame (h : Δ.Around gain scopes opened env frames g) {d : Nat}
    {frame : FrameId} (hd : frames[d]? = some frame) : Δ.store.LeadsTo env (some d) frame := by
  have hancestor : Δ.store.ancestor env d = some frame := by
    rw [h.ancestor d, List.getElem?_append_left (List.getElem?_eq_some_iff.mp hd).1]
    exact hd
  intro x
  constructor
  · simp [Store.read, Store.getAt, hancestor]
  · simp [Store.writable, Store.holderAt, hancestor, Option.filter]

theorem Around.leadsTo_globals (h : Δ.Around gain scopes opened env frames g) :
    Δ.store.LeadsTo env none g := by
  have hroot : Δ.store.root env = g := h.root env (Nat.le_refl _)
  have hchain : Δ.store.chain g = [g] := by
    unfold Store.chain
    cases g <;> simp [Store.chainFrom, h.alone]
  intro x
  constructor
  · simp [Store.read, Store.get, hroot, hchain]
  · simp [Store.writable, Store.holder, hroot, hchain]

end Setting

/-! ### Sessions -/

/-- One more source does no harm. -/
theorem Setting.Sound.addSource {sources : List Text} {origins : List Origin} {store : Store}
    (h : Setting.Sound ⟨sources, origins, store⟩) (source : Text) :
    Setting.Sound ⟨source :: sources, origins, store⟩ := by
  have hΔ : (⟨sources, origins, store⟩ : Setting).Extends ⟨source :: sources, origins, store⟩ :=
    ⟨List.subset_cons_self _ _, id, .refl _⟩
  exact ⟨h.size, h.globals,
    h.contents.mono (fun _ => FitsValue.mono h hΔ) fun _ => FitsMethod.mono h hΔ⟩

theorem State.agrees_start {w : World} {sources : List Text} {origins : List Origin}
    {source : Text} {program : Program Address} {g : FrameId}
    (hs : (w.setting sources origins).Sound) (hg : origins[g]? = some .session)
    (hp : Program.ofSource source = .ok program) :
    (State.start program g w).Agrees (source :: sources) origins := by
  obtain ⟨tree, ha, rfl⟩ := Program.Accepted.of_ofSource hp
  have hruns : (w.setting (source :: sources) origins).Runs source g :=
    Or.inl ⟨hg, List.mem_cons_self⟩
  exact agrees_normal (hs.addSource source)
    (.program ⟨{}, tree, ⟨source, tree, ha, .refl _, .globals hruns⟩, rfl⟩ .nil)

namespace Interpreter

variable {i : Interpreter} {sources : List Text} {origins : List Origin} {source : Text}
  {program : Program Address}

/-- A session keeps everything in its store fitting, and its globals are its own. -/
theorem Reachable.sound (h : i.Reachable sources origins) :
    (i.world.setting sources origins).Sound ∧ origins[i.globals]? = some .session := by
  induction h with
  | new host input echo =>
    have hempty : Setting.Sound ⟨[], [], {}⟩ := ⟨rfl, by simp, .empty⟩
    have hnatives : ∀ b ∈ NativeFunction.all.map fun fn => (fn.name, Value.native fn),
        Setting.FitsValue ⟨[], [], {}⟩ b.2 := by
      simp [Setting.FitsValue]
    exact ⟨hempty.push (fun _ => rfl) hnatives, rfl⟩
  | @execute i sources origins source program n _ hp ih =>
    obtain ⟨hs, hg⟩ := ih
    have hrun := (State.agrees_start hs hg hp).run i.host n
    refine ⟨hrun.1, ?_⟩
    exact (List.getElem?_append_left (List.getElem?_eq_some_iff.mp hg).1).trans hg
  | read input _ ih => exact ih

/-- At every step of a session, everything fits. -/
theorem Reachable.agrees (h : i.Reachable sources origins)
    (hp : Program.ofSource source = .ok program) (n : Nat) :
    (i.stateAt program n).Agrees (source :: sources) (origins ++ i.opened program n) :=
  (State.agrees_start h.sound.1 h.sound.2 hp).run i.host n

end Interpreter

/-! ### The agreement -/

/-- A reference that a state has come to stands at a site of an accepted tree, and its frame fits
there; what is about to be bound is another name. -/
theorem State.Agrees.reference {st : State} {sources : List Text} {origins : List Origin}
    (h : st.Agrees sources origins) {r : Reference Address} {env : FrameId}
    (hr : st.reference? = some (r, env)) :
    ∃ home tree p e gain, Program.Accepted home tree ∧
      (Site.ofProgram tree).Visits ⟨p, .expr e⟩ ∧ e.reference? = some ⟨r.kind, r.mark, ()⟩ ∧
      r.ref = p.scopes.address r.name ∧
      (st.world.setting sources origins).Fits gain home p.scopes p.opened env ∧
      ∀ f, gain ≠ some (f, r.name) := by
  obtain ⟨hs, h⟩ := h
  cases st with
  | eval e env' demand rest w =>
    obtain ⟨p, e₀, ⟨home, tree, ha, hv, hf⟩, rfl⟩ := h.1
    obtain ⟨r', hr', heq⟩ := Option.map_eq_some_iff.mp hr
    obtain ⟨rfl, rfl⟩ := Prod.mk.inj heq
    obtain ⟨hsite, haddress⟩ := Expr.reference?_of_resolve hr' (ha.faults_eq_nil hv)
    exact ⟨home, tree, p, e₀, none, ha, hv, hsite, haddress, hf, by simp⟩
  | value v demand rest w =>
    obtain ⟨pending, use⟩ := demand
    cases pending with
    | nil => cases hr
    | cons pending₀ pending =>
      cases pending₀ with
      | assign mark ref env' =>
        obtain ⟨rfl, rfl⟩ := Prod.mk.inj (Option.some.inj hr)
        obtain ⟨p, value, ⟨home, tree, ha, hv, hf⟩, haddress⟩ := h.2.1.1 _ List.mem_cons_self
        exact ⟨home, tree, p, _, none, ha, hv, rfl, haddress, hf, by simp⟩
      | _ => cases hr
  | exec s env' rest w =>
    obtain ⟨p, s₀, ⟨home, tree, ha, hv, hf⟩, rfl⟩ := h.1
    cases s₀ with
    | classDecl name superclass methods =>
      cases superclass with
      | none => cases hr
      | some super =>
        obtain ⟨rfl, rfl⟩ := Prod.mk.inj (Option.some.inj hr)
        have hsuper := hv.part (z := ⟨p.enter name.lexeme true, .expr (.name super.1 ())⟩)
          (by simp [Site.parts])
        refine ⟨home, tree, _, _, _, ha, hsuper, rfl, rfl, hf.enter_ready hs name.lexeme, ?_⟩
        -- a class that inherits from itself is not accepted
        rintro f heq
        have hname : super.1.lexeme = name.lexeme := (Prod.mk.inj (Option.some.inj heq)).2.symm
        have hfaults := ha.faults_eq_nil hv
        simp [Site.faults, hname] at hfaults
    | varDecl name initial => cases initial <;> cases hr
    | branch condition yes no => cases no <;> cases hr
    | ret keyword value => cases value <;> cases hr
    | _ => cases hr
  | flow f rest w => cases hr
  | fail f rest w => cases hr

/-- A reference stands at a position of a tree, and the frames around it are those of the scopes
that are open there, innermost first, followed by globals. -/
structure Setting.Places (Δ : Setting) (r : Reference Address) (env : FrameId)
    (tree : Program Unit) (p : Position) (frames : List FrameId) (g : FrameId) : Prop where
  /-- The reference is a node of the tree, and the resolver comes to it at this position. -/
  site : ∃ e, (Site.ofProgram tree).Visits ⟨p, .expr e⟩ ∧ e.reference? = some ⟨r.kind, r.mark, ()⟩
  /-- Its address is that of its name in the open scopes. -/
  address : r.ref = p.scopes.address r.name
  /-- There is one frame for each scope, and one more. -/
  chain : Δ.store.chain env = frames ++ [g]
  length : frames.length = p.scopes.length
  /-- Each frame was opened for its scope. -/
  origins : List.Forall₂ (fun frame origin => Δ.origins[frame]? = some origin) frames p.opened
  /-- An address leads to the frame of the nearest scope that declares the name. -/
  declared : ∀ d, r.ref = some d → ∃ scope frame, p.scopes[d]? = some scope ∧
    scope.contains r.name ∧
    (∀ d' < d, ∀ inner, p.scopes[d']? = some inner → ¬ inner.contains r.name) ∧
    frames[d]? = some frame ∧ Δ.store.LeadsTo env r.ref frame
  /-- Without an address no scope declares the name, and the reference is one to the globals. -/
  undeclared : r.ref = none → (∀ scope ∈ p.scopes, ¬ scope.contains r.name) ∧
    Δ.store.LeadsTo env r.ref g

theorem Setting.Around.places {Δ : Setting} {r : Reference Address} {env : FrameId}
    {tree : Program Unit} {p : Position} {e : Expr Unit} {gain : Gain} {frames : List FrameId}
    {g : FrameId} (h : Δ.Around gain p.scopes p.opened env frames g)
    (hv : (Site.ofProgram tree).Visits ⟨p, .expr e⟩)
    (he : e.reference? = some ⟨r.kind, r.mark, ()⟩) (hr : r.ref = p.scopes.address r.name) :
    Δ.Places r env tree p frames g where
  site := ⟨e, hv, he⟩
  address := hr
  chain := h.chain env (Nat.le_refl _)
  length := h.ready.length_eq
  origins := h.origins
  declared d hd := by
    obtain ⟨scope, hscope, hx, hinner⟩ := Scopes.address_eq_some (hr.symm.trans hd)
    have hlt : d < frames.length := h.ready.length_eq ▸ (List.getElem?_eq_some_iff.mp hscope).1
    have hframe := List.getElem?_eq_getElem hlt
    exact ⟨scope, frames[d], hscope, hx, hinner, hframe, hd ▸ h.leadsTo_frame hframe⟩
  undeclared hnone := ⟨Scopes.address_eq_none (hr.symm.trans hnone), hnone ▸ h.leadsTo_globals⟩

/-- The frames around a reference were opened for the same scopes in every tree that places it. -/
theorem Setting.Places.eq_of_around {Δ : Setting} {r : Reference Address} {env : FrameId}
    {tree : Program Unit} {p : Position} {gain : Gain} {scopes : Scopes} {opened : List Origin}
    {frames frames' : List FrameId} {g g' : FrameId} (h : Δ.Places r env tree p frames g)
    (haround : Δ.Around gain scopes opened env frames' g') :
    frames = frames' ∧ p.opened = opened := by
  obtain ⟨rfl, -⟩ :=
    List.append_inj' (h.chain.symm.trans (haround.chain env (Nat.le_refl _))) rfl
  have hunique : Relator.RightUnique fun (frame : FrameId) origin =>
      Δ.origins[frame]? = some origin :=
    fun _ _ _ ho ho' => Option.some.inj (ho.symm.trans ho')
  exact ⟨rfl, hunique.forall₂ h.origins haround.origins⟩

/-- Without globals other than those of the session, what runs is one of its sources. -/
theorem Setting.Runs.mem_sources {Δ : Setting} {source : Text} {g : FrameId}
    (h : Δ.Runs source g) (hfirst : Δ.origins.head? = some .session)
    (hothers : Δ.origins.tail.all (fun o => !o.isGlobal) = true) : source ∈ Δ.sources := by
  rcases h with ⟨-, h⟩ | h
  · exact h
  · obtain ⟨others, heq⟩ := List.head?_eq_some_iff.mp hfirst
    rw [heq] at h hothers
    cases g with
    | zero => cases h
    | succ g => cases List.all_eq_true.mp hothers _ (List.mem_of_getElem? h)

/-- Whenever a run in a session comes to a reference, the frames around it are those of the scopes
that the resolver has open there, followed by the globals of the program or module that the
reference stands in. -/
theorem Interpreter.places_reference {i : Interpreter} {sources : List Text}
    {origins : List Origin} (hi : i.Reachable sources origins) {source : Text}
    {program : Program Address} (hp : Program.ofSource source = .ok program) {n : Nat}
    {r : Reference Address} {env : FrameId}
    (hr : (i.stateAt program n).reference? = some (r, env)) :
    let Δ := (i.stateAt program n).world.setting (source :: sources)
      (origins ++ i.opened program n)
    ∃ home tree p frames g, Program.Accepted home tree ∧ Δ.Runs home g ∧
      Δ.Places r env tree p frames g := by
  intro Δ
  have hagrees := hi.agrees hp n
  obtain ⟨home, tree, p, e, gain, ha, hv, hsite, haddress, hf, -⟩ := hagrees.reference hr
  obtain ⟨frames, g, hruns, haround⟩ := hf.frames hagrees.1
  exact ⟨home, tree, p, frames, g, ha, hruns, haround.places hv hsite haddress⟩

/-- A function of an earlier source, called by a later one after its block has been left. -/
theorem Interpreter.places_reference_closure :
    ∃ program program', Program.ofSource "var get; { var x; fun f() { return x; } get = f; }" =
        .ok program ∧ Program.ofSource "get();" = .ok program' ∧
      let i := Interpreter.new ⟨10, 0, none⟩ { rest := [] } false
      let later := (i.execute 16 program).2.2
      (later.stateAt program' 7).reference? = some (⟨.read, ⟨"x", 1⟩, some 1⟩, 2) ∧
      let Δ := (later.stateAt program' 7).world.setting
        ["get();", "var get; { var x; fun f() { return x; } get = f; }"]
        ([.session] ++ i.opened program 16 ++ later.opened program' 7)
      ∃ home tree p frames g, Program.Accepted home tree ∧ Δ.Runs home g ∧
        Δ.Places ⟨.read, ⟨"x", 1⟩, some 1⟩ 2 tree p frames g := by
  have h : Program.ofSource "var get; { var x; fun f() { return x; } get = f; }" = .ok
      [.varDecl ⟨"get", 1⟩ none, .block [.varDecl ⟨"x", 1⟩ none,
        .funDecl ⟨"f", 1⟩ (.mk [] [.ret ⟨"return", 1⟩ (some (.name ⟨"x", 1⟩ (some 1)))]),
        .expression (.assign ⟨"get", 1⟩ none (.name ⟨"f", 1⟩ (some 0)))]] := by
    cbv
  have h' : Program.ofSource "get();" =
      .ok [.expression (.call (.name ⟨"get", 1⟩ none) ⟨")", 1⟩ [])] := by
    set_option maxRecDepth 4000 in cbv
  exact ⟨_, _, h, h', rfl, places_reference (.execute 16 (.new _ _ _) h) h' rfl⟩

end Lox
