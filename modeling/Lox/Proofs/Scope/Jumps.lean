import Lox.Proofs.Scope.Accepted
import Lox.Proofs.Scope.Erasure

/-!
# Jumps in accepted sources

In an accepted source every `break` stands in a loop of the function body, or of the top level, that
it belongs to, and every `return` stands in a function.
-/

namespace Lox

/-- A statement stands in another one: through blocks and branches and, if `loops` is set, through
the bodies of loops, but never through a function. -/
inductive Stmt.Holds {ρ : Type} (loops : Bool) : Stmt ρ → Stmt ρ → Prop
  | refl (s : Stmt ρ) : Holds loops s s
  | block {body : List (Stmt ρ)} {s t : Stmt ρ} : s ∈ body → Holds loops s t →
      Holds loops (.block body) t
  | yes {condition : Expr ρ} {s t : Stmt ρ} {no : Option (Stmt ρ)} : Holds loops s t →
      Holds loops (.branch condition s no) t
  | no {condition : Expr ρ} {yes s t : Stmt ρ} : Holds loops s t →
      Holds loops (.branch condition yes (some s)) t
  | loop {condition : Expr ρ} {body t : Stmt ρ} : loops = true → Holds loops body t →
      Holds loops (.loop condition body) t

/-- Every `break` in the body of a function stands in a loop there. -/
def Function.KeepsBreaks (f : Function Address) : Prop :=
  ∀ s ∈ f.body, ∀ keyword, ¬ s.Holds false (.brk keyword)

/-- Every `break` in a statement stands in a loop there, and no `return` stands there. -/
def Stmt.KeepsJumps (s : Stmt Address) : Prop :=
  (∀ keyword, ¬ s.Holds false (.brk keyword)) ∧ ∀ keyword e, ¬ s.Holds true (.ret keyword e)

namespace Stmt.Holds

variable {ρ : Type} {loops : Bool} {s t u : Stmt ρ}

theorem trans (hst : s.Holds loops t) (htu : t.Holds loops u) : s.Holds loops u := by
  induction hst with
  | refl s => exact htu
  | block hmem _ ih => exact .block hmem (ih htu)
  | yes _ ih => exact .yes (ih htu)
  | no _ ih => exact .no (ih htu)
  | loop hl _ ih => exact .loop hl (ih htu)

/-- What stands in a statement with no loop between them stands in it. -/
theorem through (h : s.Holds false t) : s.Holds true t := by
  induction h with
  | refl s => exact .refl s
  | block hmem _ ih => exact .block hmem ih
  | yes _ ih => exact .yes ih
  | no _ ih => exact .no ih
  | loop hl => cases hl

end Stmt.Holds

/-- A statement among resolved ones has been resolved in the same surroundings. -/
theorem Stmt.exists_of_mem_resolveAll {around : Surroundings} {scopes : Scopes}
    {ss : List (Stmt Unit)} {s : Stmt Address} (h : s ∈ (Stmt.resolveAll around scopes ss).1) :
    ∃ (s₀ : Stmt Unit) (scopes' : Scopes), s = (s₀.resolve around scopes').1 ∧
      (s₀.resolve around scopes').2.2 ⊆ (Stmt.resolveAll around scopes ss).2.2 := by
  induction ss generalizing scopes with
  | nil => cases h
  | cons s₀ ss ih =>
    rcases List.mem_cons.mp h with rfl | h
    · exact ⟨s₀, scopes, rfl, List.subset_append_left _ _⟩
    · obtain ⟨s₁, scopes', heq, hsub⟩ := ih h
      exact ⟨s₁, scopes', heq, List.subset_append_of_subset_right _ hsub⟩

/-- Where nothing is wrong, a `break` that no loop holds inside a statement has one around it, and a
`return` has a function around it. -/
theorem Stmt.Holds.jump_of_resolve {loops : Bool} {s t : Stmt Address} (h : s.Holds loops t)
    {around : Surroundings} {scopes : Scopes} {s₀ : Stmt Unit}
    (hs : s = (s₀.resolve around scopes).1) (hf : (s₀.resolve around scopes).2.2 = []) :
    (∀ keyword, t = .brk keyword → loops = false → around.inLoop = true) ∧
      ∀ keyword e, t = .ret keyword e → around.inFunction ≠ .none := by
  -- resolution changes addresses only, so the shape of the statement is that of the resolved one
  have hshape : s₀ = s.map fun _ => () := by rw [hs, Stmt.erase_resolve]
  induction h generalizing around scopes s₀ with
  | refl s =>
    refine ⟨fun keyword ht _ => ?_, fun keyword e ht hfunction => ?_⟩
    · subst ht hshape
      cases hloop : around.inLoop with
      | true => rfl
      | false => simp [hloop] at hf
    · subst ht hshape
      cases e <;> simp [Surroundings.returnFaults, hfunction] at hf
  | @block body s t hmem _ ih =>
    subst hshape
    rw [Stmt.block.inj hs] at hmem
    obtain ⟨s₁, scopes', heq, hsub⟩ := Stmt.exists_of_mem_resolveAll hmem
    refine ih heq (List.subset_nil.mp ?_) (by rw [heq, Stmt.erase_resolve])
    rw [← hf]
    exact hsub
  | @yes condition s t no _ ih =>
    subst hshape
    cases no with
    | none =>
      simp only [Stmt.map, Stmt.resolve, List.append_eq_nil_iff] at hs hf
      exact ih (Stmt.branch.inj hs).2.1 hf.2 rfl
    | some no =>
      simp only [Stmt.map, Stmt.resolve, List.append_eq_nil_iff] at hs hf
      exact ih (Stmt.branch.inj hs).2.1 hf.1.2 rfl
  | @no condition yes s t _ ih =>
    subst hshape
    simp only [Stmt.map, Stmt.resolve, List.append_eq_nil_iff] at hs hf
    exact ih (Option.some.inj (Stmt.branch.inj hs).2.2) hf.2 rfl
  | @loop condition body t hl _ ih =>
    subst hshape hl
    simp only [Stmt.map, Stmt.resolve, List.append_eq_nil_iff] at hs hf
    obtain ⟨-, hret⟩ := ih (Stmt.loop.inj hs).2 hf.2 rfl
    exact ⟨nofun, hret⟩

/-- Loops around a function end at it. -/
theorem Function.keepsBreaks_resolve {around : Surroundings} {scopes : Scopes} {f : Function Unit}
    (hf : (f.resolve around scopes).2 = []) : (f.resolve around scopes).1.KeepsBreaks := by
  obtain ⟨params, body⟩ := f
  intro s hs keyword hbrk
  simp only [Function.resolve, List.append_eq_nil_iff] at hf
  obtain ⟨s₀, scopes', heq, hsub⟩ := Stmt.exists_of_mem_resolveAll hs
  rw [hf.2] at hsub
  have hloop := (hbrk.jump_of_resolve heq (List.subset_nil.mp hsub)).1 keyword rfl rfl
  cases hloop

/-- There is no function and no loop around the top level. -/
theorem Program.Accepted.keepsJumps {source : Text} {tree : Program Unit}
    (h : Program.Accepted source tree) :
    ∀ s ∈ (Resolved.ofProgram tree).program, s.KeepsJumps := by
  intro s hs
  obtain ⟨s₀, scopes', heq, hsub⟩ := Stmt.exists_of_mem_resolveAll hs
  have hf : (s₀.resolve {} scopes').2.2 = [] := by
    refine List.subset_nil.mp ?_
    rw [← h.resolved]
    exact hsub
  refine ⟨fun keyword hbrk => ?_, fun keyword e hret => ?_⟩
  · have hloop := (hbrk.jump_of_resolve heq hf).1 keyword rfl rfl
    cases hloop
  · exact (hret.jump_of_resolve heq hf).2 keyword e rfl rfl

end Lox
