import Lox.Proofs.Scope.Walk
import Mathlib.Data.List.Nodup

/-!
# Distinct names

Where the resolver has nothing to report, the statements of a local scope declare different names,
and none that the scope has already; so the names of a function body differ from its parameters. The
methods of a class have different names as well.
-/

namespace Lox

variable {s : Surroundings} {scope : Scope} {scopes : Scopes} {p : Position}

/-! ### Statements -/

/-- The names that statements declare in the scope they stand in, in source order. -/
def Stmt.names {ρ : Type} (ss : List (Stmt ρ)) : List Text := ss.filterMap Stmt.declares?

theorem Stmt.names_cons {ρ : Type} (stmt : Stmt ρ) (ss : List (Stmt ρ)) :
    Stmt.names (stmt :: ss) = stmt.declares?.toList ++ Stmt.names ss := by
  unfold Stmt.names
  cases h : stmt.declares? with
  | none => rw [List.filterMap_cons_none h, Option.toList_none, List.nil_append]
  | some x => rw [List.filterMap_cons_some h, Option.toList_some, List.singleton_append]

theorem Stmt.names_append {ρ : Type} (ss ss' : List (Stmt ρ)) :
    Stmt.names (ss ++ ss') = Stmt.names ss ++ Stmt.names ss' :=
  List.filterMap_append

theorem Stmt.names_resolveAll (s : Surroundings) (scopes : Scopes) (ss : List (Stmt Unit)) :
    Stmt.names (Stmt.resolveAll s scopes ss).1 = Stmt.names ss := by
  induction ss generalizing scopes with
  | nil => rfl
  | cons stmt ss ih =>
    unfold Stmt.resolveAll
    dsimp only
    rw [Stmt.names_cons, Stmt.names_cons, ih, Stmt.declares?_resolve]

/-- A declaration that is not reported is of a name that the scope does not have. -/
theorem Stmt.contains_eq_false_of_resolve {stmt : Stmt Unit} {x : Text}
    (hd : stmt.declares? = some x) (hf : (stmt.resolve s (scope :: scopes)).2.2 = []) :
    scope.contains x = false := by
  have hfree : ∀ m : Mark, Scopes.redeclared (scope :: scopes) m = [] →
      scope.contains m.lexeme = false := fun m h => by simpa [Scopes.redeclared] using h
  cases stmt with
  | varDecl name initial =>
    obtain rfl := Option.some.inj hd
    cases initial with
    | none => exact hfree name hf
    | some e => exact hfree name (List.append_eq_nil_iff.mp hf).1
  | funDecl name fn =>
    obtain rfl := Option.some.inj hd
    exact hfree name (List.append_eq_nil_iff.mp hf).1
  | classDecl name superclass methods =>
    obtain rfl := Option.some.inj hd
    cases superclass with
    | none => exact hfree name (List.append_eq_nil_iff.mp hf).1
    | some super =>
      simp only [Stmt.resolve, List.append_eq_nil_iff] at hf
      exact hfree name hf.1.1.1
  | importDecl path asName =>
    obtain rfl := Option.some.inj hd
    exact hfree (Import.binding path asName) hf
  | _ => cases hd

/-- Statements in a local scope declare different names, and none that the scope has. -/
theorem Site.distinct_stmts {ss : List (Stmt Unit)} (hp : p.scopes = scope :: scopes)
    (hr : Site.Regular ⟨p, .stmts ss⟩) (hf : Site.faults ⟨p, .stmts ss⟩ = []) :
    (Stmt.names ss).Nodup ∧ ∀ x ∈ Stmt.names ss, scope.contains x = false := by
  induction ss generalizing p scope with
  | nil => exact ⟨List.nodup_nil, List.forall_mem_nil _⟩
  | cons stmt ss ih =>
    have hmem : (⟨p, .stmt stmt⟩ : Site) ∈ Site.parts ⟨p, .stmts (stmt :: ss)⟩ := by
      simp [Site.parts]
    have hmem' : (⟨p.after stmt, .stmts ss⟩ : Site) ∈ Site.parts ⟨p, .stmts (stmt :: ss)⟩ := by
      simp [Site.parts]
    have hfirst : Site.faults ⟨p, .stmt stmt⟩ = [] :=
      List.subset_nil.mp (hf ▸ Site.faults_of_mem_parts _ _ hmem)
    have hothers : Site.faults ⟨p.after stmt, .stmts ss⟩ = [] :=
      List.subset_nil.mp (hf ▸ Site.faults_of_mem_parts _ _ hmem')
    have hregular := hr.of_mem_parts hmem'
    rw [p.after_eq stmt (hr.of_mem_parts hmem)] at hregular hothers
    rw [Stmt.names_cons]
    cases hd : stmt.declares? with
    | none =>
      rw [hd] at hregular hothers
      exact ih hp hregular hothers
    | some x =>
      rw [hd] at hregular hothers
      have hafter : (p.enter x true).scopes = scope.insert x true :: scopes := by
        simp [Position.enter, hp, Scopes.enter]
      obtain ⟨hnodup, hnew⟩ := ih hafter hregular hothers
      -- behind the statement the scope has its name, so the others do not declare it
      have hx : ∀ y ∈ Stmt.names ss, y ≠ x ∧ scope.contains y = false := fun y hy => by
        simpa [Table.contains_insert] using hnew y hy
      have hstmt : (stmt.resolve p.around p.scopes).2.2 = [] := hfirst
      rw [hp] at hstmt
      have hfree := Stmt.contains_eq_false_of_resolve hd hstmt
      refine ⟨List.nodup_cons.mpr ⟨fun hmem => (hx x hmem).1 rfl, hnodup⟩, ?_⟩
      exact List.forall_mem_cons.mpr ⟨hfree, fun y hy => (hx y hy).2⟩

/-! ### Functions -/

/-- The scope of a function has its parameters. -/
theorem Scopes.enterParams_contains (scope : Scope) (scopes : Scopes) (params : List Mark) :
    ∃ scope', (Scopes.enterParams (scope :: scopes) params).1 = scope' :: scopes ∧
      ∀ x, scope.contains x = true ∨ x ∈ params.map Mark.lexeme → scope'.contains x = true := by
  induction params generalizing scope with
  | nil => exact ⟨scope, rfl, fun x hx => hx.resolve_right List.not_mem_nil⟩
  | cons m params ih =>
    obtain ⟨scope', heq, hcontains⟩ := ih (scope.insert m.lexeme true)
    refine ⟨scope', heq, fun x hx => hcontains x ?_⟩
    rw [List.map_cons, List.mem_cons] at hx
    rw [Table.contains_insert, Bool.or_eq_true, decide_eq_true_iff]
    tauto

/-- The body of a function declares different names, and none that a parameter has. -/
theorem Site.distinct_fn {params : List Mark} {body : List (Stmt Unit)}
    (hr : Site.Regular ⟨p, .fn (.mk params body)⟩)
    (hf : Site.faults ⟨p, .fn (.mk params body)⟩ = []) :
    (Stmt.names body).Nodup ∧ ∀ x ∈ Stmt.names body, x ∉ params.map Mark.lexeme := by
  have hmem : (⟨p.body (.mk params body), .stmts body⟩ : Site) ∈
      Site.parts ⟨p, .fn (.mk params body)⟩ := List.mem_singleton_self _
  obtain ⟨scope, heq, hcontains⟩ := Scopes.enterParams_contains ∅ p.scopes params
  have hbody : Site.faults ⟨p.body (.mk params body), .stmts body⟩ = [] :=
    List.subset_nil.mp (hf ▸ Site.faults_of_mem_parts _ _ hmem)
  obtain ⟨hnodup, hnew⟩ := Site.distinct_stmts heq (hr.of_mem_parts hmem) hbody
  refine ⟨hnodup, fun x hx hparam => ?_⟩
  have hfree := hnew x hx
  rw [hcontains x (.inr hparam)] at hfree
  cases hfree

/-! ### Methods -/

/-- Methods with which nothing is wrong have different names, and none of those before them. -/
theorem Method.distinct_resolveAll {seen : List Text} {methods : List (Method Unit)}
    (hf : (Method.resolveAll s scopes seen methods).2 = []) :
    ((Method.resolveAll s scopes seen methods).1.map (·.name.lexeme)).Nodup ∧
      ∀ m ∈ (Method.resolveAll s scopes seen methods).1, m.name.lexeme ∉ seen := by
  induction methods generalizing seen with
  | nil => exact ⟨List.nodup_nil, List.forall_mem_nil _⟩
  | cons m methods ih =>
    obtain ⟨static, name, fn⟩ := m
    unfold Method.resolveAll at hf ⊢
    dsimp only at hf ⊢
    obtain ⟨hrepeated, hothers⟩ := List.append_eq_nil_iff.mp hf
    have hnew : name.lexeme ∉ seen := by simpa using (List.append_eq_nil_iff.mp hrepeated).1
    obtain ⟨hnodup, hseen⟩ := ih hothers
    refine ⟨List.nodup_cons.mpr ⟨fun hmem => ?_, hnodup⟩, ?_⟩
    · obtain ⟨m, hm, heq⟩ := List.mem_map.mp hmem
      exact hseen m hm (heq ▸ List.mem_cons_self)
    · refine List.forall_mem_cons.mpr ⟨hnew, fun m hm hmem => ?_⟩
      exact hseen m hm (List.mem_cons_of_mem _ hmem)

end Lox
