import Lox.Proofs.Scope.Erasure

/-!
# Names that are not ready

A local variable is declared before its initializer is resolved, and is ready only behind it. So a
name that is not ready where it is mentioned is that of a variable in whose initializer it stands.
The variable and its initializer are then among the contents of an open scope. That is why trees
with the same scopes open around a reference agree on whether its name is ready.
-/

namespace Lox

/-- A name is declared in an open scope but not ready there. -/
def Scopes.Unready (scopes : Scopes) (x : Text) : Prop :=
  ∃ scope ∈ scopes, scope.find? x = some false

@[simp] theorem Scopes.enter_eq_nil_iff {scopes : Scopes} {x : Text} {ready : Bool} :
    scopes.enter x ready = [] ↔ scopes = [] := by
  cases scopes <;> simp [Scopes.enter]

namespace Scopes.Unready

variable {scopes : Scopes} {scope : Scope} {x y : Text}

theorem of_enter {ready : Bool} (h : Unready (scopes.enter y ready) x) :
    scopes.Unready x ∨ x = y ∧ ready = false ∧ scopes ≠ [] := by
  cases scopes with
  | nil => exact Or.inl h
  | cons scope outer =>
    obtain ⟨s, hs, hx⟩ := h
    rcases List.mem_cons.mp hs with rfl | hs
    · by_cases hxy : x = y
      · subst hxy
        exact Or.inr ⟨rfl, by simpa using hx, by simp⟩
      · rw [Table.find?_insert_of_ne _ hxy] at hx
        exact Or.inl ⟨scope, List.mem_cons_self, hx⟩
    · exact Or.inl ⟨s, List.mem_cons_of_mem _ hs, hx⟩

theorem of_enter_ready (h : Unready (scopes.enter y true) x) : scopes.Unready x :=
  h.of_enter.resolve_right (by simp)

theorem of_cons (h : Unready (scope :: scopes) x) (hs : scope.find? x ≠ some false) :
    scopes.Unready x := by
  obtain ⟨s, hmem, hx⟩ := h
  rcases List.mem_cons.mp hmem with rfl | hmem
  · exact absurd hx hs
  · exact ⟨s, hmem, hx⟩

theorem of_cons_single (h : Unready (.single y true :: scopes) x) : scopes.Unready x :=
  h.of_cons (by simp [Table.find?, Table.single, Table.lookup])

theorem of_enterParams {params : List Mark} (h : Unready (Scopes.enterParams scopes params).1 x) :
    scopes.Unready x := by
  induction params generalizing scopes with
  | nil => exact h
  | cons m params ih => exact (ih h).of_enter_ready

end Scopes.Unready

/-! ### Contents of scopes -/

/-- What stands in the scope that is opened for an origin. -/
def Origin.part? : Origin → Option Part
  | .block body => some (.stmts (Stmt.mapAll (fun _ => ()) body))
  | .call fn => some (.stmts (fn.map fun _ => ()).body)
  | .receiver method => some (.fn (method.map fun _ => ()))
  | _ => none

namespace Position

/-- What stands in the open scopes, innermost first. -/
def contents (p : Position) : List Part := p.opened.filterMap Origin.part?

theorem contents_block (p : Position) (body : List (Stmt Unit)) :
    (p.block body).contents = .stmts body :: p.contents := by
  simp [contents, block, push, Origin.part?]

theorem contents_body (p : Position) (f : Function Unit) :
    (p.body f).contents = .stmts f.body :: p.contents := by
  simp [contents, body, Origin.part?]

theorem contents_method (p : Position) (m : Method Unit) :
    (p.method m).contents = .fn m.fn :: p.contents := by
  simp [contents, method, push, inFunction, Origin.part?]

theorem contents_methods (p : Position) (superclass : Option (Mark × Unit))
    (methods : List (Method Unit)) : (p.methods superclass methods).contents = p.contents := by
  cases superclass <;> rfl

end Position

namespace Site

/-- A site directly inside another one stands in the same scopes, or is what stands in a new one. -/
theorem Holds.contents {y z : Site} (h : y.Holds z) :
    z.position.contents = y.position.contents ∧
      (z.position.scopes = [] ↔ y.position.scopes = []) ∨
    z.position.contents = z.part :: y.position.contents ∧ z.position.scopes ≠ [] := by
  cases h with
  | beside x? _ hscopes hopened =>
    refine .inl ⟨congrArg (List.filterMap _) hopened, ?_⟩
    rw [hscopes]
    cases x? <;> simp [Position.declare, Position.enter]
  | initial p name initial => exact .inl ⟨rfl, Scopes.enter_eq_nil_iff⟩
  | block p body => exact .inr ⟨p.contents_block body, List.cons_ne_nil _ _⟩
  | body p f =>
    obtain ⟨scope, hscope, -⟩ := Scopes.enterParams_ready ∅ p.scopes f.params
    exact .inr ⟨p.contents_body f, by simp [Position.body, hscope]⟩
  | method p name superclass =>
    refine .inr ⟨?_, List.cons_ne_nil _ _⟩
    rw [Position.contents_method, Position.contents_methods]
    rfl

/-- A name that is not ready inside a site is not ready around it, or is that of the variable whose
initializer the inner site is. -/
theorem Holds.unready {y z : Site} (h : y.Holds z) {x : Text} (hx : z.position.scopes.Unready x) :
    y.position.scopes.Unready x ∨ ∃ name initial, y.part = .stmt (.varDecl name (some initial)) ∧
      z.part = .expr initial ∧ x = name.lexeme ∧ y.position.scopes ≠ [] := by
  cases h with
  | beside x? _ hscopes =>
    rw [hscopes] at hx
    cases x? with
    | none => exact .inl hx
    | some y => exact .inl hx.of_enter_ready
  | initial p name initial =>
    rcases Scopes.Unready.of_enter hx with hx | ⟨rfl, -, hne⟩
    · exact .inl hx
    · exact .inr ⟨name, initial, rfl, rfl, rfl, hne⟩
  | block => exact .inl (Scopes.Unready.of_cons hx (by simp))
  | body => exact .inl (Scopes.Unready.of_cons (Scopes.Unready.of_enterParams hx) (by simp))
  | method p name superclass =>
    have hmethods := Scopes.Unready.of_cons_single hx
    cases superclass with
    | none => exact .inl hmethods.of_enter_ready
    | some super => exact .inl hmethods.of_cons_single.of_enter_ready

/-! ### Variables in their own initializers -/

/-- The parts of a part are the same at every position. -/
theorem map_part_parts (part : Part) (p q : Position) :
    (part.parts p).map Site.part = (part.parts q).map Site.part := by
  cases part with
  | expr e => cases e <;> simp
  | fn f => rfl
  | stmt s =>
    cases s with
    | varDecl name initial => cases initial <;> rfl
    | branch condition yes no => cases no <;> rfl
    | ret keyword value => cases value <;> rfl
    | classDecl name superclass methods =>
      simp only [Part.parts, Stmt.parts, List.map_append, List.map_map]
      rfl
    | _ => rfl
  | stmts ss => cases ss <;> rfl

theorem Visits.exists_position {x y : Site} (h : x.Visits y) (q : Position) :
    ∃ q', Visits ⟨q, x.part⟩ ⟨q', y.part⟩ := by
  induction h with
  | refl => exact ⟨q, .refl _⟩
  | @tail y z _ hz ih =>
    obtain ⟨q', hv⟩ := ih
    have hmem : z.part ∈ (y.part.parts q').map Site.part :=
      map_part_parts y.part y.position q' ▸ List.mem_map_of_mem hz
    obtain ⟨⟨q'', part⟩, hpart, rfl⟩ := List.mem_map.mp hmem
    exact ⟨q'', hv.part hpart⟩

theorem Visits.scopes_ne_nil {y z : Site} (h : y.Visits z) (hy : y.Regular)
    (hne : y.position.scopes ≠ []) : z.position.scopes ≠ [] := by
  induction h with
  | refl => exact hne
  | tail hv hz ih =>
    rcases (holds_of_mem_parts (hy.of_visits hv) hz).contents with ⟨-, hiff⟩ | ⟨-, hne⟩
    · exact fun hnil => ih (hiff.mp hnil)
    · exact hne

end Site

/-- No variable that is declared in a part is mentioned in its own initializer. -/
def Part.SelfFree (part : Part) : Prop :=
  ∀ q p name initial, Site.Visits ⟨q, part⟩ ⟨p, .stmt (.varDecl name (some initial))⟩ →
    ∀ r ∈ initial.references, r.name ≠ name.lexeme

/-- No local variable is mentioned in its own initializer, however deep inside it. -/
def Program.SelfFree (tree : Program Unit) : Prop :=
  ∀ p name initial, (Site.ofProgram tree).Visits ⟨p, .stmt (.varDecl name (some initial))⟩ →
    p.scopes ≠ [] → ∀ r ∈ initial.references, r.name ≠ name.lexeme

theorem Part.SelfFree.of_mem_parts {y z : Site} (h : y.part.SelfFree) (hz : z ∈ y.parts) :
    z.part.SelfFree := by
  intro q p name initial hv
  obtain ⟨p', hv'⟩ := hv.exists_position z.position
  exact h y.position p' name initial (.of_part hz hv')

namespace Site.Visits

variable {tree : Program Unit} {y : Site} (hy : (Site.ofProgram tree).Visits y)
  (hregular : (Site.ofProgram tree).Regular)

include hy hregular

/-- What is local in a program without such mentions has none. -/
theorem selfFree_part (hfree : tree.SelfFree) (hne : y.position.scopes ≠ []) :
    y.part.SelfFree := by
  intro q p name initial hv
  obtain ⟨p', hv'⟩ := hv.exists_position y.position
  exact hfree p' name initial (hy.trans hv') (hv'.scopes_ne_nil (hregular.of_visits hy) hne)

theorem selfFree_contents (hfree : tree.SelfFree) :
    ∀ part ∈ y.position.contents, part.SelfFree := by
  induction hy with
  | refl => exact List.forall_mem_nil _
  | @tail y z hy hz ih =>
    rcases (holds_of_mem_parts (hregular.of_visits hy) hz).contents with
      ⟨hcontents, -⟩ | ⟨hcontents, hne⟩
    · exact hcontents ▸ ih
    · rw [hcontents]
      exact List.forall_mem_cons.mpr ⟨selfFree_part (.part hy hz) hregular hfree hne, ih⟩

/-- What is local stands in an open scope. -/
theorem selfFree_of_contents (hfree : ∀ part ∈ y.position.contents, part.SelfFree)
    (hne : y.position.scopes ≠ []) : y.part.SelfFree := by
  induction hy with
  | refl => exact absurd rfl hne
  | @tail y z hy hz ih =>
    rcases (holds_of_mem_parts (hregular.of_visits hy) hz).contents with
      ⟨hcontents, hiff⟩ | ⟨hcontents, -⟩
    · exact Part.SelfFree.of_mem_parts (ih (hcontents ▸ hfree) fun hnil => hne (hiff.mpr hnil)) hz
    · exact hfree z.part (hcontents ▸ List.mem_cons_self)

/-- Where the open scopes hold no such mentions, a name that is not ready is not mentioned. -/
theorem name_ne_of_unready (hfree : ∀ part ∈ y.position.contents, part.SelfFree) {x : Text}
    (hx : y.position.scopes.Unready x) : ∀ r ∈ y.part.references, r.name ≠ x := by
  induction hy with
  | refl =>
    -- no scope is open around a whole program
    obtain ⟨scope, hscope, -⟩ := hx
    cases hscope
  | @tail y z hy hz ih =>
    have hholds := holds_of_mem_parts (hregular.of_visits hy) hz
    have hfree' : ∀ part ∈ y.position.contents, part.SelfFree := by
      rcases hholds.contents with ⟨hcontents, -⟩ | ⟨hcontents, -⟩
      · exact hcontents ▸ hfree
      · exact (List.forall_mem_cons.mp (hcontents ▸ hfree)).2
    rcases hholds.unready hx with hx | ⟨name, initial, hpart, hpart', rfl, hne⟩
    · exact fun r hr => ih hfree' hx r (Site.references_of_mem_parts y z hz hr)
    · rw [hpart']
      have hself := selfFree_of_contents hy hregular hfree' hne
      rw [hpart] at hself
      exact hself y.position y.position name initial (.refl _)

end Site.Visits

end Lox
