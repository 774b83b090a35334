import Lox.Proofs.Machine.Agreement
import Lox.Proofs.Scope.Readiness
import Lox.Proofs.Source.Numbering

/-!
# Addressed references are bound

The resolver declares names in the order of the text, a run binds them in the order of execution. A
reference with an address finds its name bound nevertheless, unless it stands in the initializer of
a local variable and mentions that very variable.
-/

namespace Lox

theorem Expr.mem_references_of_reference? {ρ : Type} {e : Expr ρ} {r : Reference ρ}
    (h : e.reference? = some r) : r ∈ e.references := by
  cases e with
  | name mark ref | assign mark ref value | receiver mark ref | inherited mark method ref =>
    obtain rfl := Option.some.inj h
    simp [Expr.references]
  | _ => cases h

/-- Names are looked up by what is written, except that of a superclass. -/
theorem Expr.lexeme_eq_name {e : Expr Unit} {r : Reference Address}
    (h : e.reference? = some ⟨r.kind, r.mark, ()⟩) (he : (Part.expr e).Regular)
    (hk : r.kind ≠ .inherited) : r.mark.lexeme = r.name := by
  obtain ⟨kind, mark, ref⟩ := r
  cases e with
  | name mark' ref' | assign mark' ref' value =>
    cases h
    rfl
  | receiver mark' ref' =>
    cases h
    exact he
  | inherited mark' method ref' =>
    cases h
    exact absurd rfl hk
  | _ => cases h

/-- The frame of an address binds the name, unless the name is not ready or only about to be
bound. -/
theorem Setting.Around.binds_of_address {Δ : Setting} {gain : Gain} {scopes : Scopes}
    {opened : List Origin} {env g : FrameId} {frames : List FrameId} {x : Text} {d : Nat}
    (h : Δ.Around gain scopes opened env frames g) (hd : scopes.address x = some d)
    (hready : ¬ scopes.Unready x) (hgain : ∀ f, gain ≠ some (f, x)) :
    ∃ frame, frames[d]? = some frame ∧ Δ.store.binds frame x := by
  obtain ⟨scope, hscope, hx, -⟩ := Scopes.address_eq_some hd
  obtain ⟨hlt, rfl⟩ := List.getElem?_eq_some_iff.mp hscope
  have hlt' : d < frames.length := h.ready.length_eq ▸ hlt
  obtain ⟨b, hb⟩ := Option.isSome_iff_exists.mp hx
  have hb' : (scopes[d]).find? x = some true := by
    cases b with
    | true => exact hb
    | false => exact absurd ⟨scopes[d], List.getElem_mem hlt, hb⟩ hready
  have hbinds := (List.forall₂_iff_get.mp h.ready).2 d hlt' hlt x hb'
  exact ⟨frames[d], List.getElem?_eq_getElem hlt', hbinds.resolve_right (hgain _)⟩

/-- A step that finds the name of its reference does not fail for want of it. -/
theorem State.step_ne_undefined {st : State} {host : Host} {r : Reference Address} {env : FrameId}
    (hr : st.reference? = some (r, env)) (hk : r.kind ≠ .inherited)
    (hread : (st.world.store.read env r.ref r.mark.lexeme).isSome)
    (hwrite : (st.world.store.writable env r.ref r.mark.lexeme).isSome) (mark : Mark) (x : Text)
    (rest : List Resume) (w : World) :
    st.step host ≠ .fail (.runtime mark (.undefinedVariable x)) rest w := by
  have readName : ∀ {mark' : Mark} {ref : Address} {env : FrameId} {demand : Demand}
      {rest' : List Resume} {w' : World}, (w'.store.read env ref mark'.lexeme).isSome →
      readName mark' ref env demand rest' w' ≠
        .fail (.runtime mark (.undefinedVariable x)) rest w := by
    intro mark' ref env demand rest' w' h
    obtain ⟨v, hv⟩ := Option.isSome_iff_exists.mp h
    simp [State.readName, hv]
  cases st with
  | eval e env' demand rest' w' =>
    obtain ⟨r', hr', heq⟩ := Option.map_eq_some_iff.mp hr
    obtain ⟨rfl, rfl⟩ := Prod.mk.inj heq
    cases e with
    | name mark' ref | receiver mark' ref =>
      obtain rfl := Option.some.inj hr'
      exact readName hread
    | assign mark' ref value => exact fun h => by cases h
    | inherited keyword method ref =>
      obtain rfl := Option.some.inj hr'
      exact absurd rfl hk
    | _ => cases hr'
  | value v demand rest' w' =>
    obtain ⟨pending, use⟩ := demand
    cases pending with
    | nil => cases hr
    | cons pending₀ pending =>
      cases pending₀ with
      | assign mark' ref env' =>
        obtain ⟨rfl, rfl⟩ := Prod.mk.inj (Option.some.inj hr)
        obtain ⟨e, he⟩ := Option.isSome_iff_exists.mp hwrite
        have he : w'.store.writable env' ref mark'.lexeme = some e := he
        simp [State.step, valueStep, pendingStep, assignName, he]
      | _ => cases hr
  | exec s env' rest' w' =>
    cases s with
    | classDecl name superclass methods =>
      cases superclass with
      | none => cases hr
      | some super =>
        obtain ⟨rfl, rfl⟩ := Prod.mk.inj (Option.some.inj hr)
        obtain ⟨v, hv⟩ := Option.isSome_iff_exists.mp hread
        have hv : w'.store.read env' super.2 super.1.lexeme = some v := hv
        simp only [State.step, execStep, declareClass, findSuperclass, hv]
        cases v with
        | classRef c =>
          dsimp only
          split <;> simp [failAt]
        | _ => simp [failAt]
    | _ => cases hr
  | flow f rest' w' => cases hr
  | fail f rest' w' => cases hr

/-- Whenever a session comes to a reference with an address, the reference stands in a tree that has
run. If some tree that it can stand in mentions no local variable in its own initializer, it finds
its name in the frame of that address, to read it or to assign to it. -/
theorem Interpreter.bound_of_address {i : Interpreter} {sources : List Text}
    {origins : List Origin} (hi : i.Reachable sources origins) {source : Text}
    {program : Program Address} (hp : Program.ofSource source = .ok program) {n : Nat}
    {r : Reference Address} {env : FrameId}
    (hr : (i.stateAt program n).reference? = some (r, env)) (hk : r.kind ≠ .inherited) {d : Nat}
    (hd : r.ref = some d) :
    let st := i.stateAt program n
    let Δ := st.world.setting (source :: sources) (origins ++ i.opened program n)
    (∃ home tree p frames g, Program.Accepted home tree ∧ Δ.Runs home g ∧
      Δ.Places r env tree p frames g) ∧
    ∀ home tree p frames g, Program.Accepted home tree → Δ.Places r env tree p frames g →
      tree.SelfFree → ∃ frame v, frames[d]? = some frame ∧
        Δ.store.getAt env d r.mark.lexeme = some v ∧
        (∀ u, Δ.store.assignAt env d r.mark.lexeme u =
          some (Δ.store.define frame r.mark.lexeme u)) ∧
        ∀ mark x rest w, st.step i.host ≠ .fail (.runtime mark (.undefinedVariable x)) rest w := by
  intro st Δ
  have hagrees := hi.agrees hp n
  obtain ⟨home, tree, p, e, gain, ha, hv, hsite, haddress, hf, hgain⟩ := hagrees.reference hr
  obtain ⟨frames, g, hruns, haround⟩ := hf.frames hagrees.1
  refine ⟨⟨home, tree, p, frames, g, ha, hruns, haround.places hv hsite haddress⟩, ?_⟩
  intro home' tree' p' frames' g' ha' hplaces hfree
  obtain ⟨rfl, hopened⟩ := hplaces.eq_of_around haround
  obtain ⟨e', hv', -⟩ := hplaces.site
  have hname : r.mark.lexeme = r.name :=
    Expr.lexeme_eq_name hsite (ha.regular _ hv) hk
  -- what is local around the reference is the same in both trees
  have hcontents : ∀ part ∈ p.contents, part.SelfFree := by
    unfold Position.contents
    rw [← hopened]
    exact hv'.selfFree_contents ha'.regular hfree
  -- the reference mentions its name, so the name is ready in every open scope that declares it
  have hready : ¬ p.scopes.Unready r.name := fun hx =>
    hv.name_ne_of_unready ha.regular hcontents hx _ (Expr.mem_references_of_reference? hsite) rfl
  obtain ⟨frame, hframe, hbinds⟩ :=
    haround.binds_of_address (haddress.symm.trans hd) hready hgain
  obtain ⟨v, hv⟩ := Option.isSome_iff_exists.mp hbinds
  obtain ⟨hread, hwrite⟩ := haround.leadsTo_frame hframe r.name
  rw [hv] at hread
  rw [if_pos hbinds] at hwrite
  refine ⟨frame, v, hframe, hname ▸ hread, fun u => ?_, ?_⟩
  · exact hname ▸ congrArg (Option.map (Δ.store.define · r.name u)) hwrite
  · refine State.step_ne_undefined hr hk ?_ ?_
    · rw [hd, hname]
      exact Option.isSome_of_eq_some hread
    · rw [hd, hname]
      exact Option.isSome_of_eq_some hwrite

/-- A function that outlives the call it was created in, and a variable of that call. -/
theorem Interpreter.bound_of_address_closure :
    let source : Text := "fun f(x) { var y = x; fun g() { return y; } return g; } f(nil)();"
    ∃ program, Program.ofSource source = .ok program ∧
      let i := Interpreter.new ⟨10, 0, none⟩ { rest := [] } false
      let st := i.stateAt program 25
      st.reference? = some (⟨.read, ⟨"y", 1⟩, some 1⟩, 2) ∧
      ∃ frame v, st.world.store.getAt 2 1 "y" = some v ∧
        (∀ u, st.world.store.assignAt 2 1 "y" u = some (st.world.store.define frame "y" u)) ∧
        ∀ mark x rest w, st.step i.host ≠ .fail (.runtime mark (.undefinedVariable x)) rest w := by
  intro source
  have h : Program.ofSource source = .ok
      [.funDecl ⟨"f", 1⟩ (.mk [⟨"x", 1⟩] [.varDecl ⟨"y", 1⟩ (some (.name ⟨"x", 1⟩ (some 0))),
        .funDecl ⟨"g", 1⟩ (.mk [] [.ret ⟨"return", 1⟩ (some (.name ⟨"y", 1⟩ (some 1)))]),
        .ret ⟨"return", 1⟩ (some (.name ⟨"g", 1⟩ (some 0)))]),
      .expression (.call (.call (.name ⟨"f", 1⟩ none) ⟨")", 1⟩ [.literal .nil]) ⟨")", 1⟩ [])] := by
    subst source
    set_option maxRecDepth 4000 in cbv
  refine ⟨_, h, rfl, ?_⟩
  obtain ⟨⟨home, tree, p, frames, g, ha, hruns, hplaces⟩, hbound⟩ :=
    bound_of_address (.new ⟨10, 0, none⟩ { rest := [] } false) h (n := 25)
      (r := ⟨.read, ⟨"y", 1⟩, some 1⟩) rfl (by simp) rfl
  have hfree : tree.SelfFree := by
    obtain rfl := List.mem_singleton.mp (hruns.mem_sources rfl rfl)
    cases ha.parsed.symm.trans (Program.reads_of_ofSourceWith h)
    intro p name initial hv hne
    obtain ⟨rfl, rfl⟩ : ⟨"y", 1⟩ = name ∧ Expr.name ⟨"x", 1⟩ () = initial := by
      simp [Program.erase, Site.ofProgram, Site.parts, Function.body,
        Site.visits_iff (x := ⟨_, .stmts _⟩), Site.visits_iff (x := ⟨_, .stmt _⟩),
        Site.visits_iff (x := ⟨_, .expr _⟩), Site.visits_iff (x := ⟨_, .fn _⟩)] at hv
      exact hv.2
    rintro r hr
    obtain rfl := List.mem_singleton.mp hr
    decide
  obtain ⟨frame, v, -, hbound⟩ := hbound home tree p frames g ha hplaces hfree
  exact ⟨frame, v, hbound⟩

end Lox
