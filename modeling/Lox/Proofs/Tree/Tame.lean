import Lox.Proofs.Scope.Erasure

/-!
# Tame trees

A tree is tame if what a condition governs declares nothing, anywhere in it: the branches of a
conditional statement and the body of a loop are no declarations, also in the functions and methods
that stand in the tree. What is tame does not depend on addresses, and every part of a tame tree is
tame.
-/

namespace Lox

variable {ρ σ : Type}

mutual

/-- What a condition governs in an expression declares nothing. -/
def Expr.Tame : Expr ρ → Prop
  | .literal _ => True
  | .group inner => inner.Tame
  | .unary _ _ operand => operand.Tame
  | .binary _ _ left right => left.Tame ∧ right.Tame
  | .logical _ _ left right => left.Tame ∧ right.Tame
  | .conditional condition yes no => condition.Tame ∧ yes.Tame ∧ no.Tame
  | .name _ _ => True
  | .assign _ _ value => value.Tame
  | .get object _ => object.Tame
  | .set object _ value => object.Tame ∧ value.Tame
  | .call callee _ arguments => callee.Tame ∧ Expr.TameAll arguments
  | .function _ fn => fn.Tame
  | .receiver _ _ => True
  | .inherited _ _ _ => True

/-- The same for expressions one after the other. -/
def Expr.TameAll : List (Expr ρ) → Prop
  | [] => True
  | e :: es => e.Tame ∧ Expr.TameAll es

/-- The same for a function. -/
def Function.Tame : Function ρ → Prop
  | .mk _ body => Stmt.TameAll body

/-- The same for methods one after the other. -/
def Method.TameAll : List (Method ρ) → Prop
  | [] => True
  | .mk _ _ fn :: methods => fn.Tame ∧ Method.TameAll methods

/-- What a condition governs in a statement declares nothing. -/
def Stmt.Tame : Stmt ρ → Prop
  | .expression e => e.Tame
  | .print e => e.Tame
  | .varDecl _ none => True
  | .varDecl _ (some e) => e.Tame
  | .block body => Stmt.TameAll body
  | .branch condition yes none => condition.Tame ∧ yes.Tame ∧ yes.declares? = none
  | .branch condition yes (some no) =>
    (condition.Tame ∧ yes.Tame ∧ yes.declares? = none) ∧ no.Tame ∧ no.declares? = none
  | .loop condition body => condition.Tame ∧ body.Tame ∧ body.declares? = none
  | .ret _ none => True
  | .ret _ (some e) => e.Tame
  | .brk _ => True
  | .funDecl _ fn => fn.Tame
  | .classDecl _ _ methods => Method.TameAll methods
  | .importDecl _ _ => True

/-- The same for statements one after the other. -/
def Stmt.TameAll : List (Stmt ρ) → Prop
  | [] => True
  | s :: ss => s.Tame ∧ Stmt.TameAll ss

end

theorem Expr.tameAll_iff {es : List (Expr ρ)} : Expr.TameAll es ↔ ∀ e ∈ es, e.Tame := by
  induction es with
  | nil => simp [Expr.TameAll]
  | cons e es ih => simp [Expr.TameAll, ih]

theorem Stmt.tameAll_iff {ss : List (Stmt ρ)} : Stmt.TameAll ss ↔ ∀ s ∈ ss, s.Tame := by
  induction ss with
  | nil => simp [Stmt.TameAll]
  | cons s ss ih => simp [Stmt.TameAll, ih]

theorem Method.tameAll_iff {ms : List (Method ρ)} : Method.TameAll ms ↔ ∀ m ∈ ms, m.fn.Tame := by
  induction ms with
  | nil => simp [Method.TameAll]
  | cons m ms ih =>
    obtain ⟨static, name, fn⟩ := m
    simp [Method.TameAll, Method.fn, ih]

theorem Function.tame_iff {fn : Function ρ} : fn.Tame ↔ Stmt.TameAll fn.body := by
  obtain ⟨params, body⟩ := fn
  exact Iff.rfl

/-! ### Addresses -/

@[simp] theorem Stmt.declares?_map (f : ρ → σ) (s : Stmt ρ) :
    (s.map f).declares? = s.declares? := by
  cases s with
  | varDecl name initial => cases initial <;> rfl
  | branch condition yes no => cases no <;> rfl
  | ret keyword value => cases value <;> rfl
  | classDecl name superclass methods => cases superclass <;> rfl
  | _ => rfl

section Map

variable (f : ρ → σ)

mutual

theorem Expr.tame_map : (e : Expr ρ) → ((e.map f).Tame ↔ e.Tame)
  | .literal _ | .name _ _ | .receiver _ _ | .inherited _ _ _ => Iff.rfl
  | .group inner => inner.tame_map
  | .unary _ _ operand => operand.tame_map
  | .binary _ _ left right => and_congr left.tame_map right.tame_map
  | .logical _ _ left right => and_congr left.tame_map right.tame_map
  | .conditional condition yes no =>
    and_congr condition.tame_map (and_congr yes.tame_map no.tame_map)
  | .assign _ _ value => value.tame_map
  | .get object _ => object.tame_map
  | .set object _ value => and_congr object.tame_map value.tame_map
  | .call callee _ arguments => and_congr callee.tame_map (Expr.tameAll_mapAll arguments)
  | .function _ fn => fn.tame_map

theorem Expr.tameAll_mapAll :
    (es : List (Expr ρ)) → (Expr.TameAll (Expr.mapAll f es) ↔ Expr.TameAll es)
  | [] => Iff.rfl
  | e :: es => and_congr e.tame_map (Expr.tameAll_mapAll es)

theorem Function.tame_map : (fn : Function ρ) → ((fn.map f).Tame ↔ fn.Tame)
  | .mk _ body => Stmt.tameAll_mapAll body

theorem Method.tameAll_mapAll :
    (ms : List (Method ρ)) → (Method.TameAll (Method.mapAll f ms) ↔ Method.TameAll ms)
  | [] => Iff.rfl
  | .mk _ _ fn :: ms => and_congr fn.tame_map (Method.tameAll_mapAll ms)

theorem Stmt.tame_map : (s : Stmt ρ) → ((s.map f).Tame ↔ s.Tame)
  | .varDecl _ none | .ret _ none | .brk _ | .importDecl _ _ => Iff.rfl
  | .expression e | .print e | .varDecl _ (some e) | .ret _ (some e) => e.tame_map
  | .block body => Stmt.tameAll_mapAll body
  | .branch condition yes none =>
    and_congr condition.tame_map (and_congr yes.tame_map (by rw [Stmt.declares?_map]))
  | .branch condition yes (some no) =>
    and_congr
      (and_congr condition.tame_map (and_congr yes.tame_map (by rw [Stmt.declares?_map])))
      (and_congr no.tame_map (by rw [Stmt.declares?_map]))
  | .loop condition body =>
    and_congr condition.tame_map (and_congr body.tame_map (by rw [Stmt.declares?_map]))
  | .funDecl _ fn => fn.tame_map
  | .classDecl _ none methods | .classDecl _ (some (_, _)) methods => Method.tameAll_mapAll methods

theorem Stmt.tameAll_mapAll :
    (ss : List (Stmt ρ)) → (Stmt.TameAll (Stmt.mapAll f ss) ↔ Stmt.TameAll ss)
  | [] => Iff.rfl
  | s :: ss => and_congr s.tame_map (Stmt.tameAll_mapAll ss)

end

end Map

theorem Program.tame_erase {program : Program ρ} :
    Stmt.TameAll program.erase ↔ Stmt.TameAll program :=
  Stmt.tameAll_mapAll _ program

/-! ### Parts -/

/-- What a condition governs in a part of a tree declares nothing. -/
def Part.Tame : Part → Prop
  | .expr e => e.Tame
  | .fn f => f.Tame
  | .stmt s => s.Tame
  | .stmts ss => Stmt.TameAll ss

theorem Expr.tame_parts {p : Position} {e : Expr Unit} (h : e.Tame) :
    ∀ y ∈ e.parts p, y.part.Tame := by
  cases e with
  | call callee paren arguments =>
    obtain ⟨hcallee, harguments⟩ := h
    refine List.forall_mem_cons.mpr ⟨hcallee, fun y hy => ?_⟩
    obtain ⟨e, he, rfl⟩ := List.mem_map.mp hy
    exact Expr.tameAll_iff.mp harguments e he
  | literal _ | name _ _ | receiver _ _ | inherited _ _ _ => exact List.forall_mem_nil _
  | _ => simpa [Part.Tame, Expr.Tame, and_comm] using h

theorem Stmt.tame_parts {p : Position} {s : Stmt Unit} (h : s.Tame) :
    ∀ y ∈ s.parts p, y.part.Tame := by
  cases s with
  | varDecl name initial =>
    cases initial with
    | none => exact List.forall_mem_nil _
    | some e => exact List.forall_mem_singleton.mpr h
  | branch condition yes no =>
    cases no with
    | none =>
      obtain ⟨hcondition, hyes, -⟩ := h
      simp [Part.Tame, hcondition, hyes]
    | some no =>
      obtain ⟨⟨hcondition, hyes, -⟩, hno, -⟩ := h
      simp [Part.Tame, hcondition, hyes, hno]
  | loop condition body =>
    obtain ⟨hcondition, hbody, -⟩ := h
    simp [Part.Tame, hcondition, hbody]
  | ret keyword value =>
    cases value with
    | none => exact List.forall_mem_nil _
    | some e => exact List.forall_mem_singleton.mpr h
  | classDecl name superclass methods =>
    intro y hy
    rcases List.mem_append.mp hy with hy | hy
    · obtain ⟨super, -, rfl⟩ := List.mem_map.mp hy
      trivial
    · obtain ⟨m, hm, rfl⟩ := List.mem_map.mp hy
      exact Method.tameAll_iff.mp h m hm
  | brk _ | importDecl _ _ => exact List.forall_mem_nil _
  | _ => exact List.forall_mem_singleton.mpr h

theorem Site.tame_of_mem_parts {x y : Site} (h : x.part.Tame) (hy : y ∈ x.parts) :
    y.part.Tame := by
  obtain ⟨p, part⟩ := x
  cases part with
  | expr e => exact Expr.tame_parts h y hy
  | fn fn =>
    obtain rfl := List.mem_singleton.mp hy
    exact Function.tame_iff.mp h
  | stmt s => exact Stmt.tame_parts h y hy
  | stmts ss =>
    cases ss with
    | nil => cases hy
    | cons s ss =>
      rcases List.mem_cons.mp hy with rfl | hy
      · exact h.1
      · obtain rfl := List.mem_singleton.mp hy
        exact h.2

/-- Whatever stands in a tame tree is tame. -/
theorem Site.Visits.tame {x y : Site} (h : x.Visits y) (hx : x.part.Tame) : y.part.Tame := by
  induction h with
  | refl => exact hx
  | tail _ hy ih => exact tame_of_mem_parts ih hy

end Lox
