import Lox.Scope
import Lox.Tree.Reference
import Mathlib.Logic.Relation

/-!
# Walks of the resolver

The resolver goes through a tree with a stack of scopes. This module names the places it comes to:
each part of a tree with the scopes that are open there and what each of them was opened for.

## Design notes

The resolver and a run are compared through origins: a scope and the frame that stands for it are
opened for the same block, function, method or class, given as a resolved tree because that is what
a run sees.
-/

namespace Lox

attribute [simp] Expr.resolve Expr.resolveAll Function.resolve Method.resolveAll Stmt.resolve
  Stmt.resolveAll

attribute [simp] Expr.references Expr.referencesAll Function.references Method.referencesAll
  Stmt.references Stmt.referencesAll

/-- What a scope is opened for; globals are opened for a session or for an imported module. -/
inductive Origin where
  | session
  | imported (source : Text)
  | block (body : List (Stmt Address))
  | call (fn : Function Address)
  | receiver (method : Function Address)
  | superclass (methods : List (Method Address))

/-- Whether an origin is that of globals. -/
def Origin.isGlobal : Origin → Bool
  | session => true
  | imported _ => true
  | _ => false

/-- Where a part of a tree stands: what surrounds it, the open scopes and what they were opened
for, innermost first. -/
structure Position where
  around : Surroundings := {}
  scopes : Scopes := []
  opened : List Origin := []

namespace Position

/-- A name has been entered into the innermost scope. -/
def enter (p : Position) (x : Text) (ready : Bool) : Position :=
  { p with scopes := p.scopes.enter x ready }

/-- Inside a function of some kind. -/
def inFunction (p : Position) (context : FunctionContext) : Position :=
  { p with around := { p.around with inFunction := context } }

/-- Inside a class of some kind. -/
def inClass (p : Position) (context : ClassContext) : Position :=
  { p with around := { p.around with inClass := context } }

/-- Inside the body of a loop. -/
def inLoop (p : Position) : Position := { p with around := { p.around with inLoop := true } }

/-- Inside a new scope. -/
def push (p : Position) (scope : Scope) (origin : Origin) : Position :=
  { p with scopes := scope :: p.scopes, opened := origin :: p.opened }

/-- Behind a statement. -/
def after (p : Position) (s : Stmt Unit) : Position :=
  { p with scopes := (s.resolve p.around p.scopes).2.1 }

/-- Inside a block. -/
def block (p : Position) (body : List (Stmt Unit)) : Position :=
  p.push ∅ (.block (Stmt.resolveAll p.around (∅ :: p.scopes) body).1)

/-- Inside the body of a function. -/
def body (p : Position) (fn : Function Unit) : Position :=
  { around := { p.around with inLoop := false }
    scopes := (Scopes.enterParams (∅ :: p.scopes) fn.params).1
    opened := .call (fn.resolve p.around p.scopes).1 :: p.opened }

/-- Inside the scope of a method's receiver. -/
def method (p : Position) (m : Method Unit) : Position :=
  let q := p.inFunction (.ofMethod m.static m.name.lexeme)
  q.push (.single "this" true)
    (.receiver (m.fn.resolve q.around (.single "this" true :: q.scopes)).1)

/-- Around the methods of a class. -/
def methods (p : Position) (superclass : Option (Mark × Unit)) (methods : List (Method Unit)) :
    Position :=
  match superclass with
  | none => p.inClass .plain
  | some _ =>
    let q := p.inClass .derived
    q.push (.single "super" true)
      (.superclass (Method.resolveAll q.around (.single "super" true :: q.scopes) [] methods).1)

end Position

/-- A part of a tree. -/
inductive Part where
  | expr (e : Expr Unit)
  | fn (fn : Function Unit)
  | stmt (s : Stmt Unit)
  | stmts (ss : List (Stmt Unit))

/-- A part of a tree at its position. -/
structure Site where
  position : Position
  part : Part

/-! ### Parts and their positions -/

/-- The sites directly inside an expression. -/
def Expr.parts (p : Position) : Expr Unit → List Site
  | .literal _ => []
  | .group inner => [⟨p, .expr inner⟩]
  | .unary _ _ operand => [⟨p, .expr operand⟩]
  | .binary _ _ left right => [⟨p, .expr left⟩, ⟨p, .expr right⟩]
  | .logical _ _ left right => [⟨p, .expr left⟩, ⟨p, .expr right⟩]
  | .conditional condition yes no => [⟨p, .expr condition⟩, ⟨p, .expr yes⟩, ⟨p, .expr no⟩]
  | .name _ _ => []
  | .assign _ _ value => [⟨p, .expr value⟩]
  | .get object _ => [⟨p, .expr object⟩]
  | .set object _ value => [⟨p, .expr value⟩, ⟨p, .expr object⟩]
  | .call callee _ arguments => ⟨p, .expr callee⟩ :: arguments.map fun e => ⟨p, .expr e⟩
  | .function _ fn => [⟨p.inFunction .function, .fn fn⟩]
  | .receiver _ _ => []
  | .inherited _ _ _ => []

/-- The sites directly inside a statement. The superclass of a class counts as an expression. -/
def Stmt.parts (p : Position) : Stmt Unit → List Site
  | .expression e => [⟨p, .expr e⟩]
  | .print e => [⟨p, .expr e⟩]
  | .varDecl _ none => []
  | .varDecl name (some initial) => [⟨p.enter name.lexeme false, .expr initial⟩]
  | .block body => [⟨p.block body, .stmts body⟩]
  | .branch condition yes none => [⟨p, .expr condition⟩, ⟨p, .stmt yes⟩]
  | .branch condition yes (some no) =>
    [⟨p, .expr condition⟩, ⟨p, .stmt yes⟩, ⟨p.after yes, .stmt no⟩]
  | .loop condition body => [⟨p, .expr condition⟩, ⟨p.inLoop, .stmt body⟩]
  | .ret _ none => []
  | .ret _ (some value) => [⟨p, .expr value⟩]
  | .brk _ => []
  | .funDecl name fn => [⟨(p.enter name.lexeme true).inFunction .function, .fn fn⟩]
  | .classDecl name superclass methods =>
    let after := p.enter name.lexeme true
    let inner := after.methods superclass methods
    superclass.toList.map (fun super => ⟨after, .expr (.name super.1 ())⟩) ++
      methods.map fun m => ⟨inner.method m, .fn m.fn⟩
  | .importDecl _ _ => []

/-- The sites directly inside a part. Statements one after the other are the first of them and,
behind it, the others. -/
def Part.parts (p : Position) : Part → List Site
  | .expr e => e.parts p
  | .fn f => [⟨p.body f, .stmts f.body⟩]
  | .stmt s => s.parts p
  | .stmts [] => []
  | .stmts (s :: ss) => [⟨p, .stmt s⟩, ⟨p.after s, .stmts ss⟩]

/-- What is wrong with a part at a position. -/
def Part.faults (p : Position) : Part → List Diagnostic
  | .expr e => (e.resolve p.around p.scopes).2
  | .fn f => (f.resolve p.around p.scopes).2
  | .stmt s => (s.resolve p.around p.scopes).2.2
  | .stmts ss => (Stmt.resolveAll p.around p.scopes ss).2.2

/-- The references in a part. -/
def Part.references : Part → List (Reference Unit)
  | .expr e => e.references
  | .fn f => f.references
  | .stmt s => s.references
  | .stmts ss => Stmt.referencesAll ss

attribute [simp] Expr.parts Stmt.parts Part.parts Part.faults Part.references

namespace Site

/-- The sites directly inside a site. -/
def parts (x : Site) : List Site := x.part.parts x.position

/-- What is wrong with a site. -/
def faults (x : Site) : List Diagnostic := x.part.faults x.position

/-- The sites that the resolver comes to when it goes through a site. -/
def Visits : Site → Site → Prop := Relation.ReflTransGen fun x y => y ∈ x.parts

/-- The site of a whole program. -/
def ofProgram (program : Program Unit) : Site := ⟨{}, .stmts program⟩

end Site

/-! ### Faults and references of parts -/

/-- The name that a reference is looked up by. -/
def Reference.name {ρ : Type} (r : Reference ρ) : Text :=
  match r.kind with
  | .read => r.mark.lexeme
  | .assignment => r.mark.lexeme
  | .receiver => "this"
  | .inherited => "super"

theorem Expr.faults_subset_resolveAll {s : Surroundings} {scopes : Scopes} {e : Expr Unit}
    {es : List (Expr Unit)} (he : e ∈ es) :
    (e.resolve s scopes).2 ⊆ (Expr.resolveAll s scopes es).2 := by
  induction es with
  | nil => cases he
  | cons e' es ih =>
    rcases List.mem_cons.mp he with rfl | he
    · simp
    · exact List.Subset.trans (ih he) (by simp)

theorem Expr.exists_of_mem_resolveAll {s : Surroundings} {scopes : Scopes} {e : Expr Address}
    {es : List (Expr Unit)} (he : e ∈ (Expr.resolveAll s scopes es).1) :
    ∃ e₀ ∈ es, e = (e₀.resolve s scopes).1 := by
  induction es with
  | nil => cases he
  | cons e₀ es ih =>
    rcases List.mem_cons.mp he with rfl | he
    · exact ⟨e₀, List.mem_cons_self, rfl⟩
    · obtain ⟨e₁, hmem, heq⟩ := ih he
      exact ⟨e₁, List.mem_cons_of_mem _ hmem, heq⟩

theorem Expr.references_subset_referencesAll {e : Expr Unit} {es : List (Expr Unit)}
    (he : e ∈ es) : e.references ⊆ Expr.referencesAll es := by
  induction es with
  | nil => cases he
  | cons e' es ih =>
    rcases List.mem_cons.mp he with rfl | he
    · simp
    · exact List.Subset.trans (ih he) (by simp)

theorem Method.faults_subset_resolveAll {p : Position} {m : Method Unit}
    {ms : List (Method Unit)} (hm : m ∈ ms) (seen : List Text) :
    (m.fn.resolve (p.method m).around (p.method m).scopes).2 ⊆
      (Method.resolveAll p.around p.scopes seen ms).2 := by
  induction ms generalizing seen with
  | nil => cases hm
  | cons m' ms ih =>
    obtain ⟨static, name, fn⟩ := m'
    rcases List.mem_cons.mp hm with rfl | hm
    · rw [Method.resolveAll]
      exact List.subset_append_of_subset_left _ (List.subset_append_right _ _)
    · refine List.Subset.trans (ih hm (name.lexeme :: seen)) ?_
      simp

theorem Method.exists_of_mem_resolveAll {p : Position} {m : Method Address}
    {ms : List (Method Unit)} {seen : List Text}
    (hm : m ∈ (Method.resolveAll p.around p.scopes seen ms).1) :
    ∃ m₀ ∈ ms, m.fn = (m₀.fn.resolve (p.method m₀).around (p.method m₀).scopes).1 := by
  induction ms generalizing seen with
  | nil => cases hm
  | cons m₀ ms ih =>
    obtain ⟨static, name, fn⟩ := m₀
    rcases List.mem_cons.mp hm with rfl | hm
    · exact ⟨_, List.mem_cons_self, rfl⟩
    · obtain ⟨m₁, hmem, heq⟩ := ih hm
      exact ⟨m₁, List.mem_cons_of_mem _ hmem, heq⟩

theorem Method.references_subset_referencesAll {m : Method Unit} {ms : List (Method Unit)}
    (hm : m ∈ ms) : m.fn.references ⊆ Method.referencesAll ms := by
  induction ms with
  | nil => cases hm
  | cons m' ms ih =>
    obtain ⟨static, name, fn⟩ := m'
    rcases List.mem_cons.mp hm with rfl | hm
    · simp [Method.fn]
    · exact List.Subset.trans (ih hm) (by simp)

namespace Site

theorem faults_of_mem_parts (x : Site) : ∀ y ∈ x.parts, y.faults ⊆ x.faults := by
  obtain ⟨p, part⟩ := x
  cases part with
  | expr e =>
    cases e with
    | call callee paren arguments =>
      intro y h
      rcases List.mem_cons.mp h with rfl | h
      · simp [faults]
      · obtain ⟨e, he, rfl⟩ := List.mem_map.mp h
        exact List.subset_append_of_subset_right _ (Expr.faults_subset_resolveAll he)
    | _ => simp +contextual [parts, faults, List.subset_def, Position.inFunction]
  | fn f =>
    obtain ⟨params, body⟩ := f
    simp [parts, faults, Position.body, Function.params, Function.body]
  | stmt s =>
    cases s with
    | varDecl name initial => cases initial <;> simp [parts, faults, Position.enter]
    | branch condition yes no =>
      cases no <;>
        simp +contextual [parts, faults, List.subset_def, Position.after]
    | ret keyword value => cases value <;> simp [parts, faults]
    | classDecl name superclass methods =>
      intro y h
      rcases List.mem_append.mp h with h | h
      · cases superclass with
        | none => cases h
        | some super =>
          obtain rfl := List.mem_singleton.mp h
          simp +contextual [faults, List.subset_def, Position.enter]
      · -- with a superclass, one more scope is open around the methods, but they are resolved alike
        obtain ⟨m, hm, rfl⟩ := List.mem_map.mp h
        have hf := Method.faults_subset_resolveAll
          (p := (p.enter name.lexeme true).methods superclass methods) hm []
        cases superclass with
        | none => exact List.subset_append_of_subset_right _ hf
        | some super => exact List.subset_append_of_subset_right _ hf
    | _ =>
      simp +contextual [parts, faults, List.subset_def, Position.enter, Position.block,
        Position.push, Position.inLoop, Position.inFunction]
  | stmts ss =>
    cases ss <;> simp [parts, faults, Position.after]

theorem references_of_mem_parts (x : Site) :
    ∀ y ∈ x.parts, y.part.references ⊆ x.part.references := by
  obtain ⟨p, part⟩ := x
  cases part with
  | expr e =>
    cases e with
    | call callee paren arguments =>
      intro y h
      rcases List.mem_cons.mp h with rfl | h
      · simp
      · obtain ⟨e, he, rfl⟩ := List.mem_map.mp h
        exact List.subset_append_of_subset_right _ (Expr.references_subset_referencesAll he)
    | _ => simp +contextual [parts, List.subset_def]
  | fn f =>
    obtain ⟨params, body⟩ := f
    simp [parts, Function.body]
  | stmt s =>
    cases s with
    | varDecl name initial => cases initial <;> simp [parts]
    | branch condition yes no =>
      cases no <;>
        simp +contextual [parts, List.subset_def]
    | ret keyword value => cases value <;> simp [parts]
    | classDecl name superclass methods =>
      intro y h
      rcases List.mem_append.mp h with h | h
      · cases superclass with
        | none => cases h
        | some super =>
          obtain rfl := List.mem_singleton.mp h
          simp
      · obtain ⟨m, hm, rfl⟩ := List.mem_map.mp h
        have := Method.references_subset_referencesAll hm
        cases superclass with
        | none => simpa using this
        | some super => exact List.subset_cons_of_subset _ this
    | _ => simp +contextual [parts, List.subset_def]
  | stmts ss =>
    cases ss <;> simp [parts]

namespace Visits

variable {x y z : Site}

theorem refl (x : Site) : x.Visits x := Relation.ReflTransGen.refl

theorem part (h : x.Visits y) (hz : z ∈ y.parts) : x.Visits z := Relation.ReflTransGen.tail h hz

theorem of_part (hy : y ∈ x.parts) (h : y.Visits z) : x.Visits z :=
  Relation.ReflTransGen.head hy h

theorem faults_eq_nil (h : x.Visits y) (hx : x.faults = []) : y.faults = [] := by
  induction h with
  | refl => exact hx
  | tail _ hz ih => exact List.subset_nil.mp (ih ▸ faults_of_mem_parts _ _ hz)

end Visits

theorem visits_iff {x y : Site} : x.Visits y ↔ x = y ∨ ∃ z ∈ x.parts, z.Visits y :=
  Relation.ReflTransGen.cases_head_iff

end Site

/-! ### What a statement declares -/

/-- The name that a statement declares in the innermost scope. -/
def Stmt.declares? {ρ : Type} : Stmt ρ → Option Text
  | .varDecl name _ => some name.lexeme
  | .funDecl name _ => some name.lexeme
  | .classDecl name _ _ => some name.lexeme
  | .importDecl path asName => some (Import.name path asName)
  | _ => none

@[simp] theorem Stmt.declares?_resolve (s : Surroundings) (scopes : Scopes) (stmt : Stmt Unit) :
    (stmt.resolve s scopes).1.declares? = stmt.declares? := by
  cases stmt with
  | varDecl name initial => cases initial <;> rfl
  | branch condition yes no => cases no <;> rfl
  | ret keyword value => cases value <;> rfl
  | classDecl name superclass methods => cases superclass <;> rfl
  | _ => rfl

/-- A name that may have been declared is ready in the innermost scope. -/
def Position.declare (p : Position) : Option Text → Position
  | some x => p.enter x true
  | none => p

/-- What the grammar and the scanner guarantee of a part: what a condition governs declares
nothing, and the keyword for the receiver is spelled like the name it stands for. -/
def Part.Regular : Part → Prop
  | .stmt (.branch _ yes no) => yes.declares? = none ∧ ∀ s ∈ no, s.declares? = none
  | .stmt (.loop _ body) => body.declares? = none
  | .expr (.receiver keyword _) => keyword.lexeme = "this"
  | _ => True

/-- Every part inside a site is regular. -/
def Site.Regular (x : Site) : Prop := ∀ y, x.Visits y → y.part.Regular

theorem Site.Regular.of_visits {x y : Site} (h : x.Regular) (hy : x.Visits y) : y.Regular :=
  fun z hz => h z (hy.trans hz)

theorem Site.Regular.of_mem_parts {x y : Site} (h : x.Regular) (hy : y ∈ x.parts) : y.Regular :=
  fun _ hz => h _ (.of_part hy hz)

theorem Table.insert_insert {α : Type} (t : Table α) (x : Text) (a b : α) :
    (t.insert x a).insert x b = t.insert x b := by
  have h : ∀ entries : List (Text × α),
      Table.update x b (Table.update x a entries) = Table.update x b entries := by
    intro entries
    induction entries with
    | nil => simp [Table.update]
    | cons e entries ih =>
      obtain ⟨y, c⟩ := e
      by_cases hy : y = x <;> simp [Table.update, hy, ih]
  exact congrArg Table.mk (h t.entries)

theorem Scopes.enter_enter (scopes : Scopes) (x : Text) (a b : Bool) :
    (scopes.enter x a).enter x b = scopes.enter x b := by
  cases scopes with
  | nil => rfl
  | cons scope outer => simp [Scopes.enter, Table.insert_insert]

/-- Behind a regular statement, the name it declares is ready and all else is as before. -/
theorem Position.after_eq (p : Position) : ∀ s : Stmt Unit, Site.Regular ⟨p, .stmt s⟩ →
    p.after s = p.declare s.declares?
  | .expression _, _ | .print _, _ | .varDecl _ none, _ | .block _, _ | .ret _ none, _
  | .ret _ (some _), _ | .brk _, _ | .funDecl _ _, _ | .classDecl _ none _, _
  | .classDecl _ (some _) _, _ | .importDecl _ _, _ => rfl
  | .varDecl name (some initial), _ =>
    congrArg (fun scopes => { p with scopes }) (p.scopes.enter_enter name.lexeme false true)
  | .branch condition yes none, h => by
    have hyes := p.after_eq yes (h.of_mem_parts (by simp [Site.parts]))
    rw [(h _ (.refl _)).1] at hyes
    exact hyes
  | .branch condition yes (some no), h => by
    have hyes := p.after_eq yes (h.of_mem_parts (by simp [Site.parts]))
    rw [(h _ (.refl _)).1] at hyes
    have hno := (p.after yes).after_eq no (h.of_mem_parts (by simp [Site.parts]))
    rw [(h _ (.refl _)).2 no rfl] at hno
    exact hno.trans hyes
  | .loop condition body, h => by
    have hbody := p.inLoop.after_eq body (h.of_mem_parts (by simp [Site.parts]))
    rw [show body.declares? = none from h _ (.refl _)] at hbody
    exact congrArg (fun q : Position => { p with scopes := q.scopes }) hbody

/-! ### What a site adds to the scopes around it -/

/-- The name that a part declares first, in the innermost scope. -/
def Part.declares? : Part → Option Text
  | .stmt s => s.declares?
  | .stmts (s :: _) => s.declares?
  | _ => none

namespace Site

/-- How a site directly inside another one stands to it: in the same scopes, where the name that is
declared first may be ready; in the initializer of a variable; or in new scopes. -/
inductive Holds : Site → Site → Prop
  | beside {p q : Position} {a b : Part} (x? : Option Text) : x? = none ∨ x? = a.declares? →
      q.scopes = (p.declare x?).scopes → q.opened = p.opened →
      q.around.inClass = p.around.inClass → (∀ f, a ≠ .fn f) → Holds ⟨p, a⟩ ⟨q, b⟩
  | initial (p : Position) (name : Mark) (initial : Expr Unit) :
      Holds ⟨p, .stmt (.varDecl name (some initial))⟩ ⟨p.enter name.lexeme false, .expr initial⟩
  | block (p : Position) (body : List (Stmt Unit)) :
      Holds ⟨p, .stmt (.block body)⟩ ⟨p.block body, .stmts body⟩
  | body (p : Position) (f : Function Unit) : Holds ⟨p, .fn f⟩ ⟨p.body f, .stmts f.body⟩
  | method (p : Position) (name : Mark) (superclass : Option (Mark × Unit))
      {methods : List (Method Unit)} {m : Method Unit} : m ∈ methods →
      Holds ⟨p, .stmt (.classDecl name superclass methods)⟩
        ⟨((p.enter name.lexeme true).methods superclass methods).method m, .fn m.fn⟩

theorem holds_of_mem_parts {y z : Site} (hy : y.Regular) (hz : z ∈ y.parts) : y.Holds z := by
  obtain ⟨p, part⟩ := y
  have same : ∀ {b : Part}, (∀ f, part ≠ .fn f) → Holds ⟨p, part⟩ ⟨p, b⟩ :=
    .beside none (.inl rfl) rfl rfl rfl
  cases part with
  | expr e =>
    -- expressions open no scopes but those of the functions in them
    have hsame : z.position.scopes = p.scopes ∧ z.position.opened = p.opened ∧
        z.position.around.inClass = p.around.inClass := by
      revert z
      cases e <;> simp [parts, Position.inFunction]
    exact .beside none (.inl rfl) hsame.1 hsame.2.1 hsame.2.2 (by simp)
  | fn f =>
    obtain rfl := List.mem_singleton.mp hz
    exact .body p f
  | stmt s =>
    cases s with
    | varDecl name initial =>
      cases initial with
      | none => cases hz
      | some initial =>
        obtain rfl := List.mem_singleton.mp hz
        exact .initial p name initial
    | block body =>
      obtain rfl := List.mem_singleton.mp hz
      exact .block p body
    | branch condition yes no =>
      have hyes := p.after_eq yes (hy.of_mem_parts (by cases no <;> simp [parts]))
      rw [(hy _ (.refl _)).1] at hyes
      cases no with
      | none =>
        simp only [parts, Part.parts, Stmt.parts, List.mem_cons, List.not_mem_nil, or_false] at hz
        rcases hz with rfl | rfl <;> exact same (by simp)
      | some no =>
        simp only [parts, Part.parts, Stmt.parts, hyes, List.mem_cons, List.not_mem_nil,
          or_false] at hz
        rcases hz with rfl | rfl | rfl <;> exact same (by simp)
    | loop condition body =>
      simp only [parts, Part.parts, Stmt.parts, List.mem_cons, List.not_mem_nil, or_false] at hz
      rcases hz with rfl | rfl
      · exact same (by simp)
      · exact .beside none (.inl rfl) rfl rfl rfl (by simp)
    | funDecl name f =>
      obtain rfl := List.mem_singleton.mp hz
      exact .beside (some name.lexeme) (.inr rfl) rfl rfl rfl (by simp)
    | classDecl name superclass methods =>
      rcases List.mem_append.mp hz with hz | hz
      · obtain ⟨super, -, rfl⟩ := List.mem_map.mp hz
        exact .beside (some name.lexeme) (.inr rfl) rfl rfl rfl (by simp)
      · obtain ⟨m, hm, rfl⟩ := List.mem_map.mp hz
        exact .method p name superclass hm
    | ret keyword value =>
      cases value with
      | none => cases hz
      | some e =>
        obtain rfl := List.mem_singleton.mp hz
        exact same (by simp)
    | expression e | print e =>
      obtain rfl := List.mem_singleton.mp hz
      exact same (by simp)
    | brk keyword | importDecl path asName => cases hz
  | stmts ss =>
    cases ss with
    | nil => cases hz
    | cons s ss =>
      rcases List.mem_cons.mp hz with rfl | hz
      · exact same (by simp)
      · obtain rfl := List.mem_singleton.mp hz
        have hs := p.after_eq s (hy.of_mem_parts List.mem_cons_self)
        exact .beside s.declares? (.inr rfl) (congrArg Position.scopes hs) rfl rfl (by simp)

end Site

/-- Parameters are ready in the scope of a function, and nothing else is. -/
theorem Scopes.enterParams_ready (scope : Scope) (scopes : Scopes) (params : List Mark) :
    ∃ scope', (Scopes.enterParams (scope :: scopes) params).1 = scope' :: scopes ∧
      ∀ x, scope'.find? x = some true → scope.find? x = some true ∨ x ∈ params.map Mark.lexeme := by
  induction params generalizing scope with
  | nil => exact ⟨scope, rfl, fun x hx => Or.inl hx⟩
  | cons m params ih =>
    obtain ⟨scope', heq, hready⟩ := ih (scope.insert m.lexeme true)
    refine ⟨scope', heq, fun x hx => ?_⟩
    by_cases hm : x = m.lexeme
    · exact Or.inr (by simp [hm])
    · rcases hready x hx with hx | hx
      · rw [Table.find?_insert_of_ne _ hm] at hx
        exact Or.inl hx
      · exact Or.inr (List.mem_cons_of_mem _ hx)

end Lox
