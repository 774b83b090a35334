import Lox.Proofs.Grammar.References

/-!
# How declared names are spelled

Variables, functions, classes and parameters are named by identifiers of the source. Only an import
may bind any other name: without an alias, it binds the file name of its path.
-/

namespace Lox

/-- A declared name: by an import, or of a variable, a function, a class or a parameter. -/
inductive Declaration where
  | named (x : Text)
  | imported (x : Text)
  deriving DecidableEq

/-- The name itself. -/
def Declaration.name : Declaration → Text
  | named x => x
  | imported x => x

/-- A declared name is an identifier, if no import declares it. -/
def Declaration.Spelled : Declaration → Prop
  | named x => x.IsIdentifier
  | imported _ => True

@[simp] theorem Declaration.spelled_named {x : Text} : (named x).Spelled ↔ x.IsIdentifier := Iff.rfl

@[simp] theorem Declaration.spelled_imported {x : Text} : (imported x).Spelled := trivial

section

variable {ρ : Type}

/-- The declarations of parameters. -/
def Mark.declarations (params : List Mark) : List Declaration := params.map fun m => .named m.lexeme

mutual

/-- The declarations in an expression. -/
def Expr.declarations : Expr ρ → List Declaration
  | .literal _ => []
  | .group inner => inner.declarations
  | .unary _ _ operand => operand.declarations
  | .binary _ _ left right => left.declarations ++ right.declarations
  | .logical _ _ left right => left.declarations ++ right.declarations
  | .conditional condition yes no => condition.declarations ++ yes.declarations ++ no.declarations
  | .name _ _ => []
  | .assign _ _ value => value.declarations
  | .get object _ => object.declarations
  | .set object _ value => object.declarations ++ value.declarations
  | .call callee _ arguments => callee.declarations ++ Expr.declarationsAll arguments
  | .function _ fn => fn.declarations
  | .receiver _ _ => []
  | .inherited _ _ _ => []

/-- The declarations in several expressions. -/
def Expr.declarationsAll : List (Expr ρ) → List Declaration
  | [] => []
  | e :: es => e.declarations ++ Expr.declarationsAll es

/-- The declarations in a function, its parameters first. -/
def Function.declarations : Function ρ → List Declaration
  | .mk params body => Mark.declarations params ++ Stmt.declarationsAll body

/-- The declarations in the methods of a class. -/
def Method.declarationsAll : List (Method ρ) → List Declaration
  | [] => []
  | .mk _ _ fn :: methods => fn.declarations ++ Method.declarationsAll methods

/-- The declarations in a statement, its own first. -/
def Stmt.declarations : Stmt ρ → List Declaration
  | .expression e => e.declarations
  | .print e => e.declarations
  | .varDecl name none => [.named name.lexeme]
  | .varDecl name (some e) => .named name.lexeme :: e.declarations
  | .block body => Stmt.declarationsAll body
  | .branch condition yes none => condition.declarations ++ yes.declarations
  | .branch condition yes (some no) =>
    condition.declarations ++ yes.declarations ++ no.declarations
  | .loop condition body => condition.declarations ++ body.declarations
  | .ret _ none => []
  | .ret _ (some e) => e.declarations
  | .brk _ => []
  | .funDecl name fn => .named name.lexeme :: fn.declarations
  | .classDecl name _ methods => .named name.lexeme :: Method.declarationsAll methods
  | .importDecl path asName => [.imported (Import.name path asName)]

/-- The declarations in several statements. -/
def Stmt.declarationsAll : List (Stmt ρ) → List Declaration
  | [] => []
  | s :: ss => s.declarations ++ Stmt.declarationsAll ss

end

attribute [simp] Expr.declarations Expr.declarationsAll Function.declarations
  Method.declarationsAll Stmt.declarations Stmt.declarationsAll

theorem Expr.declarationsAll_eq (es : List (Expr ρ)) :
    Expr.declarationsAll es = es.flatMap Expr.declarations := by
  induction es with
  | nil => rfl
  | cons e es ih => simp [ih]

theorem Stmt.declarationsAll_eq (ss : List (Stmt ρ)) :
    Stmt.declarationsAll ss = ss.flatMap Stmt.declarations := by
  induction ss with
  | nil => rfl
  | cons s ss ih => simp [ih]

theorem Method.declarationsAll_eq (ms : List (Method ρ)) :
    Method.declarationsAll ms = ms.flatMap fun m => m.fn.declarations := by
  induction ms with
  | nil => rfl
  | cons m ms ih =>
    obtain ⟨static, name, fn⟩ := m
    simp [ih, Method.fn]

/-- The name that a statement declares is among its declarations. -/
theorem Stmt.exists_declaration {s : Stmt ρ} {x : Text} (h : s.declares? = some x) :
    ∃ d ∈ s.declarations, d.name = x := by
  cases s with
  | varDecl name initial =>
    cases h
    cases initial with
    | none => exact ⟨_, List.mem_cons_self, rfl⟩
    | some e => exact ⟨_, List.mem_cons_self, rfl⟩
  | funDecl name fn | classDecl name superclass methods | importDecl path asName =>
    cases h
    exact ⟨_, List.mem_cons_self, rfl⟩
  | _ => cases h

end

/-! ### Phrases -/

namespace Grammar

/-- The declarations in a phrase. -/
def Phrase.declarations : Phrase → List Declaration
  | .expr e => e.declarations
  | .exprs es => es.flatMap Expr.declarations
  | .clause e => e.toList.flatMap Expr.declarations
  | .names ms => Mark.declarations ms
  | .fn f => f.declarations
  | .methods ms => ms.flatMap fun m => m.fn.declarations
  | .stmt s => s.declarations
  | .initial s => s.toList.flatMap Stmt.declarations
  | .stmts ss => ss.flatMap Stmt.declarations

attribute [simp] Phrase.declarations

/-- The loop that a `for` statement abbreviates declares what its parts declare. -/
theorem Phrase.declarations_forLoop (i : Option (Stmt Unit)) (c inc : Option (Expr Unit))
    (b : Stmt Unit) :
    ∀ d ∈ (Phrase.stmt (forLoop i c inc b)).declarations,
      d ∈ (Phrase.initial i).declarations ++ (Phrase.clause c).declarations ++
        (Phrase.clause inc).declarations ++ (Phrase.stmt b).declarations := by
  unfold forLoop
  cases i <;> cases c <;> cases inc <;> simp <;> tauto

/-- What is declared is named by identifiers if the scanner tells these from reserved words. -/
theorem Derives.declared {n : Nat} {g : Bool} {symbol : Symbol} {ts : List Token} {phrase : Phrase}
    (h : Derives n g symbol ts phrase)
    (ht : ∀ t ∈ ts, t.kind = .identifier → t.lexeme.IsIdentifier) :
    ∀ d ∈ phrase.declarations, d.Spelled := by
  -- what holds of all tokens holds of those of every part
  induction h with try simp only [List.forall_mem_append, List.forall_mem_cons] at ht
  | callee _ ih | operand _ ih | single _ _ ih | disjunction _ ih | unassigned _ ih | lone _ ih
  | arguments _ ih | parameters _ ih | expression _ ih | statement _ ih => exact ih ht
  | forLoop _ _ _ _ _ _ _ _ ihi ihc ihinc ihb =>
    intro d hd
    have hparts := Phrase.declarations_forLoop _ _ _ _ d hd
    simp only [List.mem_append] at hparts
    rcases hparts with ((hd | hd) | hd) | hd
    · exact ihi ht.2.2.1 d hd
    · exact ihc ht.2.2.2.1 d hd
    · exact ihinc ht.2.2.2.2.2.1 d hd
    · exact ihb ht.2.2.2.2.2.2.2 d hd
  | @ret _ _ _ _ e _ _ _ _ ih =>
    cases e <;> simp_all
  | noArguments | noClause | noMethods | noDeclarations | noParameters =>
    exact List.forall_mem_nil _
  | clause _ ih | firstItem _ ih | initializer _ ih => simpa using ih ht
  | _ =>
    simp_all [Expr.declarationsAll_eq, Stmt.declarationsAll_eq, Method.declarationsAll_eq,
      Method.fn, Mark.declarations, Token.mark, or_imp, -List.mem_flatMap]

end Grammar

/-! ### Parts -/

/-- The declarations in a part of a tree. -/
def Part.declarations : Part → List Declaration
  | .expr e => e.declarations
  | .fn f => f.declarations
  | .stmt s => s.declarations
  | .stmts ss => Stmt.declarationsAll ss

attribute [simp] Part.declarations

namespace Site

theorem declarations_of_mem_parts (x : Site) :
    ∀ y ∈ x.parts, y.part.declarations ⊆ x.part.declarations := by
  obtain ⟨p, part⟩ := x
  cases part with
  | expr e =>
    cases e with
    | call callee paren arguments =>
      simp only [parts, Part.parts, Expr.parts, List.forall_mem_cons, List.forall_mem_map]
      refine ⟨List.subset_append_left _ _, fun e he d hd => ?_⟩
      refine List.mem_append_right _ ?_
      rw [Expr.declarationsAll_eq]
      exact List.mem_flatMap_of_mem he hd
    | _ => simp +contextual [parts, List.subset_def]
  | fn f =>
    obtain ⟨params, body⟩ := f
    simp [parts, Function.body]
  | stmt s =>
    cases s with
    | varDecl name initial => cases initial <;> simp [parts]
    | branch condition yes no => cases no <;> simp +contextual [parts, List.subset_def]
    | ret keyword value => cases value <;> simp [parts]
    | classDecl name superclass methods =>
      intro y h
      rcases List.mem_append.mp h with h | h
      · obtain ⟨super, -, rfl⟩ := List.mem_map.mp h
        exact List.nil_subset _
      · obtain ⟨m, hm, rfl⟩ := List.mem_map.mp h
        refine List.subset_cons_of_subset _ fun d hd => ?_
        rw [Method.declarationsAll_eq]
        exact List.mem_flatMap_of_mem hm hd
    | _ => simp +contextual [parts, List.subset_def]
  | stmts ss => cases ss <;> simp [parts]

/-- A part of a tree declares no more than the tree. -/
theorem Visits.declarations_subset {x y : Site} (h : x.Visits y) :
    y.part.declarations ⊆ x.part.declarations := by
  induction h with
  | refl => exact List.Subset.refl _
  | tail _ hy ih => exact List.Subset.trans (declarations_of_mem_parts _ _ hy) ih

end Site

/-- What an accepted source declares is named by identifiers, imports apart. -/
theorem Program.Accepted.declared {source : Text} {tree : Program Unit}
    (h : Program.Accepted source tree) : ∀ d ∈ Stmt.declarationsAll tree, d.Spelled := by
  have hd := Grammar.Derives.of_parsed h.parsed
  rw [Stmt.declarationsAll_eq]
  exact hd.declared fun t ht => Scan.isIdentifier (Token.untilEnd_subset _ ht)

end Lox
