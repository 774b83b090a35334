import Lox.Proofs.Scope.Accepted
import Lox.Proofs.Source.Numbering
import Lox.Proofs.Source.Splitting
import Lox.Tree.Reference

/-!
# How references are spelled

A name that is read or assigned is an identifier of the source, and the keywords for a receiver and
for its superclass are no identifiers. So no program that has been scanned assigns to either of
them, however its references have been addressed.
-/

namespace Lox

/-! ### Identifiers -/

/-- A word that is not reserved. -/
def Text.IsIdentifier (x : Text) : Prop :=
  x.IsWord ∧ ∀ entry ∈ TokenKind.keywords, x ≠ Text.ofString entry.1

theorem Text.IsIdentifier.ne_this {x : Text} (h : x.IsIdentifier) : x ≠ "this" :=
  h.2 ("this", .thisKw) (by decide)

theorem Text.IsIdentifier.ne_super {x : Text} (h : x.IsIdentifier) : x ≠ "super" :=
  h.2 ("super", .superKw) (by decide)

theorem Lexeme.isIdentifier {literal : Literal} {text : Text}
    (h : Lexeme (.token .identifier literal) text) : text.IsIdentifier := by
  cases h with
  | operator hmem => simp [TokenKind.operators] at hmem
  | keyword hmem => simp [TokenKind.keywords] at hmem
  | identifier hword hfree => exact ⟨hword, hfree⟩

theorem Scan.isIdentifier {source : Text} {t : Token} (h : t ∈ (Scan.ofSource source).tokens)
    (hk : t.kind = .identifier) : t.lexeme.IsIdentifier := by
  have hread := Scan.lexeme h (by simp [hk])
  rw [hk] at hread
  exact hread.isIdentifier

/-! ### References -/

/-- A reference to a name is spelled as an identifier. -/
def Reference.Spelled {ρ : Type} (r : Reference ρ) : Prop :=
  match r.kind with
  | .read => r.mark.lexeme.IsIdentifier
  | .assignment => r.mark.lexeme.IsIdentifier
  | .receiver => True
  | .inherited => True

section

variable {ρ : Type}

/-- The references of an expression are spelled as they should be. -/
def Expr.Spelled (e : Expr ρ) : Prop := ∀ r ∈ e.references, r.Spelled

/-- The same for a function. -/
def Function.Spelled (f : Function ρ) : Prop := ∀ r ∈ f.references, r.Spelled

/-- The same for a statement. -/
def Stmt.Spelled (s : Stmt ρ) : Prop := ∀ r ∈ s.references, r.Spelled

/-- The same for a program. -/
def Program.Spelled (program : Program ρ) : Prop := ∀ r ∈ program.references, r.Spelled

theorem Expr.spelledAll_iff {es : List (Expr ρ)} :
    (∀ r ∈ Expr.referencesAll es, r.Spelled) ↔ ∀ e ∈ es, e.Spelled := by
  induction es with
  | nil => simp
  | cons e es ih =>
    simp only [Expr.referencesAll, List.forall_mem_append, List.forall_mem_cons, ih, Expr.Spelled]

theorem Stmt.spelledAll_iff {ss : List (Stmt ρ)} :
    (∀ r ∈ Stmt.referencesAll ss, r.Spelled) ↔ ∀ s ∈ ss, s.Spelled := by
  induction ss with
  | nil => simp
  | cons s ss ih =>
    simp only [Stmt.referencesAll, List.forall_mem_append, List.forall_mem_cons, ih, Stmt.Spelled]

theorem Method.spelledAll_iff {ms : List (Method ρ)} :
    (∀ r ∈ Method.referencesAll ms, r.Spelled) ↔ ∀ m ∈ ms, m.fn.Spelled := by
  induction ms with
  | nil => simp
  | cons m ms ih =>
    obtain ⟨static, name, fn⟩ := m
    simp only [Method.referencesAll, List.forall_mem_append, List.forall_mem_cons, ih, Method.fn,
      Function.Spelled]

theorem Function.spelled_iff {f : Function ρ} : f.Spelled ↔ ∀ s ∈ f.body, s.Spelled := by
  obtain ⟨params, body⟩ := f
  exact Stmt.spelledAll_iff

end

namespace Grammar

/-- The references of a phrase are spelled as they should be. -/
def Phrase.Spelled : Phrase → Prop
  | .expr e => e.Spelled
  | .exprs es => ∀ e ∈ es, e.Spelled
  | .clause e => ∀ e' ∈ e, e'.Spelled
  | .names _ => True
  | .fn f => f.Spelled
  | .methods ms => ∀ m ∈ ms, m.fn.Spelled
  | .stmt s => s.Spelled
  | .initial s => ∀ s' ∈ s, s'.Spelled
  | .stmts ss => ∀ s ∈ ss, s.Spelled

/-- The loop that a `for` statement abbreviates has the references of its parts. -/
theorem Phrase.spelled_forLoop {i : Option (Stmt Unit)} {c inc : Option (Expr Unit)}
    {b : Stmt Unit} (hi : (Phrase.initial i).Spelled) (hc : (Phrase.clause c).Spelled)
    (hinc : (Phrase.clause inc).Spelled) (hb : (Phrase.stmt b).Spelled) :
    (Phrase.stmt (forLoop i c inc b)).Spelled := by
  unfold forLoop
  cases i <;> cases c <;> cases inc <;>
    simp_all [Phrase.Spelled, Expr.Spelled, Stmt.Spelled, or_imp]

/-- Names are spelled as identifiers if the scanner tells identifiers from reserved words. -/
theorem Derives.spelled {n : Nat} {g : Bool} {symbol : Symbol} {ts : List Token} {phrase : Phrase}
    (h : Derives n g symbol ts phrase)
    (ht : ∀ t ∈ ts, t.kind = .identifier → t.lexeme.IsIdentifier) : phrase.Spelled := by
  -- what holds of all tokens holds of those of every part
  induction h with try simp only [List.forall_mem_append, List.forall_mem_cons] at ht
  | name hk =>
    -- the node from which all spelling comes: a name is a token
    exact List.forall_mem_singleton.mpr (ht.1 hk)
  | receiver | inherited => exact List.forall_mem_singleton.mpr trivial
  | firstName | nextName | noParameters | parameters => trivial
  | noArguments | noClause | noMethods | noDeclarations => simp [Phrase.Spelled]
  | callee _ ih | operand _ ih | single _ _ ih | disjunction _ ih | unassigned _ ih | lone _ ih
  | arguments _ ih | expression _ ih | statement _ ih => exact ih ht
  | firstItem _ ih | clause _ ih | initializer _ ih => simpa [Phrase.Spelled] using ih ht
  | forLoop _ _ _ _ _ _ _ _ ihi ihc ihinc ihb =>
    exact Phrase.spelled_forLoop (ihi ht.2.2.1) (ihc ht.2.2.2.1) (ihinc ht.2.2.2.2.2.1)
      (ihb ht.2.2.2.2.2.2.2)
  | @ret _ _ _ _ e _ _ _ _ ih =>
    cases e <;> simp_all [Phrase.Spelled, Expr.Spelled, Stmt.Spelled]
  | call _ _ _ _ ihc iha =>
    exact List.forall_mem_append.mpr
      ⟨ihc ht.1, Expr.spelledAll_iff.mpr (iha ht.2.2.1)⟩
  | nextItem _ _ _ _ ihs ih =>
    exact List.forall_mem_append.mpr ⟨ihs ht.1, List.forall_mem_singleton.mpr (ih ht.2.2)⟩
  | declaration _ _ ihs ih =>
    exact List.forall_mem_append.mpr ⟨ihs ht.1, List.forall_mem_singleton.mpr (ih ht.2)⟩
  | method _ _ _ _ ihs ih =>
    exact List.forall_mem_append.mpr ⟨ihs ht.1, List.forall_mem_singleton.mpr (ih ht.2.2.2)⟩
  | staticMethod _ _ _ _ _ ihs ih =>
    exact List.forall_mem_append.mpr ⟨ihs ht.1, List.forall_mem_singleton.mpr (ih ht.2.2.2.2)⟩
  | function _ _ _ _ _ _ ih =>
    exact Stmt.spelledAll_iff.mpr (ih ht.2.2.2.1)
  | block _ _ _ ih =>
    exact Stmt.spelledAll_iff.mpr (ih ht.2.1)
  | classDecl _ _ _ _ _ ih =>
    exact Method.spelledAll_iff.mpr (ih ht.2.2.2.1)
  | subclassDecl _ _ _ hsup _ _ _ ih =>
    exact List.forall_mem_cons.mpr
      ⟨ht.2.2.2.1 hsup, Method.spelledAll_iff.mpr (ih ht.2.2.2.2.2.1)⟩
  | assign _ _ _ ihm ihv =>
    -- the target is derived as a name that is read
    have hname := List.forall_mem_singleton.mp (ihm ht.1)
    exact List.forall_mem_cons.mpr ⟨hname, ihv ht.2.2⟩
  | _ =>
    simp_all [Phrase.Spelled, Expr.Spelled, Function.Spelled, Stmt.Spelled, or_imp]

end Grammar

/-! ### Addresses -/

/-- A reference with another annotation. -/
def Reference.map {ρ σ : Type} (f : ρ → σ) (r : Reference ρ) : Reference σ :=
  ⟨r.kind, r.mark, f r.ref⟩

section Map

variable {ρ σ : Type} (f : ρ → σ)

mutual

theorem Expr.references_map : (e : Expr ρ) → (e.map f).references = e.references.map (.map f)
  | .literal _ | .name _ _ | .receiver _ _ | .inherited _ _ _ => rfl
  | .group inner => inner.references_map
  | .unary _ _ operand => operand.references_map
  | .binary _ _ left right => by simp [left.references_map, right.references_map]
  | .logical _ _ left right => by simp [left.references_map, right.references_map]
  | .conditional condition yes no => by
    simp [condition.references_map, yes.references_map, no.references_map]
  | .assign _ _ value => by simp [value.references_map, Reference.map]
  | .get object _ => object.references_map
  | .set object _ value => by simp [object.references_map, value.references_map]
  | .call callee _ arguments => by
    simp [callee.references_map, Expr.referencesAll_mapAll arguments]
  | .function _ fn => fn.references_map

theorem Expr.referencesAll_mapAll : (es : List (Expr ρ)) →
    Expr.referencesAll (Expr.mapAll f es) = (Expr.referencesAll es).map (.map f)
  | [] => rfl
  | e :: es => by simp [e.references_map, Expr.referencesAll_mapAll es]

theorem Function.references_map :
    (fn : Function ρ) → (fn.map f).references = fn.references.map (.map f)
  | .mk _ body => Stmt.referencesAll_mapAll body

theorem Method.referencesAll_mapAll : (ms : List (Method ρ)) →
    Method.referencesAll (Method.mapAll f ms) = (Method.referencesAll ms).map (.map f)
  | [] => rfl
  | .mk _ _ fn :: ms => by simp [fn.references_map, Method.referencesAll_mapAll ms]

theorem Stmt.references_map : (s : Stmt ρ) → (s.map f).references = s.references.map (.map f)
  | .varDecl _ none | .ret _ none | .brk _ | .importDecl _ _ => rfl
  | .expression e | .print e | .varDecl _ (some e) | .ret _ (some e) => e.references_map
  | .block body => Stmt.referencesAll_mapAll body
  | .branch condition yes none => by simp [condition.references_map, yes.references_map]
  | .branch condition yes (some no) => by
    simp [condition.references_map, yes.references_map, no.references_map]
  | .loop condition body => by simp [condition.references_map, body.references_map]
  | .funDecl _ fn => fn.references_map
  | .classDecl _ none methods => Method.referencesAll_mapAll methods
  | .classDecl _ (some (_, _)) methods => by
    simp [Method.referencesAll_mapAll methods, Reference.map]

theorem Stmt.referencesAll_mapAll : (ss : List (Stmt ρ)) →
    Stmt.referencesAll (Stmt.mapAll f ss) = (Stmt.referencesAll ss).map (.map f)
  | [] => rfl
  | s :: ss => by simp [s.references_map, Stmt.referencesAll_mapAll ss]

end

end Map

namespace Program

theorem spelled_erase {ρ : Type} {program : Program ρ} :
    program.erase.Spelled ↔ program.Spelled := by
  have hmap : program.erase.references = program.references.map (.map fun _ => ()) :=
    Stmt.referencesAll_mapAll _ program
  unfold Spelled
  rw [hmap, List.forall_mem_map]
  exact Iff.rfl

/-- However its references are addressed, a program that has been scanned names what it names by
identifiers. -/
theorem Reads.spelled {source : Text} {program : Program Address} (h : Reads source program) :
    program.Spelled := by
  have hd := Grammar.Derives.of_parsed h
  refine spelled_erase.mp (Stmt.spelledAll_iff.mpr (hd.spelled fun t ht hk => ?_))
  exact Scan.isIdentifier (Token.untilEnd_subset _ ht) hk

/-- A program that has been scanned from some source, however its references are addressed. -/
def Scanned (program : Program Address) : Prop := ∃ source, Reads source program

theorem Scanned.spelled {program : Program Address} (h : program.Scanned) : program.Spelled := by
  obtain ⟨source, hreads⟩ := h
  exact hreads.spelled

end Program

end Lox
