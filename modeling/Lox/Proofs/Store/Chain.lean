import Lox.Proofs.Store.Order
import Mathlib

/-!
# Chains of frames

A frame and the frames around it form a chain, which goes outward from frame to frame and ends in
the only one of them that has no parent. A name may be bound in several frames of a chain; searches
stop at the nearest.
-/

namespace Lox

namespace Store

variable {s : Store} {e f g : FrameId} {x : Text}

namespace Nested

/-- A chain goes from a frame to the one around it. -/
theorem chain_eq (h : s.Nested) (e : FrameId) :
    s.chain e = e :: ((s.parent? e).map s.chain).getD [] := by
  rw [← h.chainFrom_eq (Nat.le_succ e)]
  unfold chainFrom
  cases hp : s.parent? e with
  | none => rfl
  | some p =>
    have hlt := h e p hp
    simp only [Option.map_some, Option.getD_some]
    rw [h.chainFrom_eq (Nat.le_of_lt hlt)]

theorem root_eq (h : s.Nested) (e : FrameId) :
    s.root e = ((s.parent? e).map s.root).getD e := by
  rw [← h.rootFrom_eq (Nat.le_succ e)]
  unfold rootFrom
  cases hp : s.parent? e with
  | none => rfl
  | some p =>
    have hlt := h e p hp
    simp only [Option.map_some, Option.getD_some]
    rw [h.rootFrom_eq (Nat.le_of_lt hlt)]

theorem get_eq (h : s.Nested) (e : FrameId) (x : Text) :
    s.get e x = (s.lookup e x).or ((s.parent? e).bind (s.get · x)) := by
  unfold get
  rw [h.chain_eq, List.findSome?_cons]
  cases s.lookup e x with
  | some v => rfl
  | none => cases s.parent? e <;> rfl

theorem assign_eq (h : s.Nested) (e : FrameId) (x : Text) (v : Value) :
    s.assign e x v =
      if s.binds e x then some (s.define e x v) else (s.parent? e).bind (s.assign · x v) := by
  unfold assign holder
  rw [h.chain_eq, List.find?_cons]
  by_cases hx : s.binds e x = true
  · rw [hx]
    rfl
  · rw [Bool.eq_false_iff.mpr hx]
    cases s.parent? e <;> rfl

theorem ancestor_eq (h : s.Nested) (e : FrameId) (d : Nat) :
    s.ancestor e d = (s.chain e)[d]? := by
  induction d generalizing e with
  | zero =>
    rw [h.chain_eq]
    rfl
  | succ d ih =>
    rw [h.chain_eq, List.getElem?_cons_succ]
    unfold ancestor
    cases s.parent? e with
    | none => rfl
    | some p => exact ih p

/-! ### Chains -/

theorem parent?_root (h : s.Nested) (e : FrameId) : s.parent? (s.root e) = none := by
  induction e using Nat.strongRecOn with
  | ind e ih =>
    rw [h.root_eq]
    cases hp : s.parent? e with
    | none => exact hp
    | some p => exact ih p (h e p hp)

theorem le_of_mem_chain (h : s.Nested) (hg : g ∈ s.chain e) : (g : Nat) ≤ e := by
  induction e using Nat.strongRecOn with
  | ind e ih =>
    rw [h.chain_eq] at hg
    cases hp : s.parent? e with
    | none =>
      rw [hp] at hg
      exact Nat.le_of_eq (List.mem_singleton.mp hg)
    | some p =>
      rw [hp] at hg
      have hlt := h e p hp
      rcases List.mem_cons.mp hg with rfl | hg
      · exact Nat.le_refl _
      · exact Nat.le_trans (ih p hlt hg) (Nat.le_of_lt hlt)

theorem getLast?_chain (h : s.Nested) (e : FrameId) :
    (s.chain e).getLast? = some (s.root e) := by
  induction e using Nat.strongRecOn with
  | ind e ih =>
    rw [h.chain_eq, h.root_eq]
    cases hp : s.parent? e with
    | none => rfl
    | some p =>
      have hne : s.chain p ≠ [] := by
        rw [h.chain_eq]
        exact List.cons_ne_nil _ _
      simp only [Option.map_some, Option.getD_some]
      rw [List.getLast?_cons_of_ne_nil hne]
      exact ih p (h e p hp)

/-- Of a chain, only the last frame has no parent. -/
theorem parent?_eq_none_iff (h : s.Nested) (hg : g ∈ s.chain e) :
    s.parent? g = none ↔ g = s.root e := by
  constructor
  · intro hnone
    induction e using Nat.strongRecOn with
    | ind e ih =>
      rw [h.chain_eq] at hg
      rw [h.root_eq]
      cases hp : s.parent? e with
      | none =>
        rw [hp] at hg
        exact List.mem_singleton.mp hg
      | some p =>
        rw [hp] at hg
        rcases List.mem_cons.mp hg with rfl | hg
        · rw [hnone] at hp
          cases hp
        · exact ih p (h e p hp) hg
  · rintro rfl
    exact h.parent?_root e

end Nested

/-! ### Nearest bindings -/

/-- The frame `d` steps outward from a frame binds a name. -/
def BindsAt (s : Store) (e : FrameId) (x : Text) (d : Nat) : Prop :=
  ∃ f, s.ancestor e d = some f ∧ s.binds f x = true

/-- Of the frames around a frame, itself included, `f` is the nearest one that binds a name, `d`
steps outward. -/
structure NearestBinding (s : Store) (e : FrameId) (x : Text) (d : Nat) (f : FrameId) : Prop where
  frame : s.ancestor e d = some f
  binds : s.binds f x = true
  nearest : ∀ d' < d, ¬ s.BindsAt e x d'

theorem binds_iff_exists_lookup : s.binds f x = true ↔ ∃ v, s.lookup f x = some v :=
  Option.isSome_iff_exists

/-- A value is read where the search for its name ends. -/
theorem get_eq_bind_holder (s : Store) (e : FrameId) (x : Text) :
    s.get e x = (s.holder e x).bind (s.lookup · x) := by
  unfold get holder
  induction s.chain e with
  | nil => rfl
  | cons f fs ih =>
    rw [List.findSome?_cons, List.find?_cons]
    cases hv : s.lookup f x with
    | some v => simp [Store.binds, hv]
    | none => simpa [Store.binds, hv] using ih

namespace Nested

theorem mem_chain_iff (h : s.Nested) : g ∈ s.chain e ↔ ∃ d, s.ancestor e d = some g := by
  rw [List.mem_iff_getElem?]
  exact exists_congr fun d => by rw [h.ancestor_eq]

/-- The outermost frame around a frame is the only one without a parent. -/
theorem eq_root_iff (h : s.Nested) :
    g = s.root e ↔ (∃ d, s.ancestor e d = some g) ∧ s.parent? g = none := by
  rw [← h.mem_chain_iff]
  constructor
  · rintro rfl
    exact ⟨List.mem_of_getLast? (h.getLast?_chain e), h.parent?_root e⟩
  · rintro ⟨hg, hnone⟩
    exact (h.parent?_eq_none_iff hg).mp hnone

theorem holder_eq_some_iff (h : s.Nested) :
    s.holder e x = some f ↔ ∃ d, s.NearestBinding e x d f := by
  unfold holder
  rw [List.find?_eq_some_iff_getElem]
  constructor
  · rintro ⟨hbinds, d, hd, hf, hfree⟩
    refine ⟨d, ?_, hbinds, ?_⟩
    · rw [h.ancestor_eq, List.getElem?_eq_getElem hd, hf]
    · rintro d' hlt ⟨f', hf', hbinds'⟩
      have hnot := hfree d' hlt
      rw [h.ancestor_eq, List.getElem?_eq_getElem (Nat.lt_trans hlt hd)] at hf'
      rw [Option.some.inj hf', hbinds'] at hnot
      cases hnot
  · rintro ⟨d, hframe, hbinds, hnearest⟩
    rw [h.ancestor_eq] at hframe
    obtain ⟨hd, hf⟩ := List.getElem?_eq_some_iff.mp hframe
    refine ⟨hbinds, d, hd, hf, fun d' hlt => ?_⟩
    rw [Bool.not_eq_true', Bool.eq_false_iff]
    intro hbinds'
    refine hnearest d' hlt ⟨_, ?_, hbinds'⟩
    rw [h.ancestor_eq, List.getElem?_eq_getElem (Nat.lt_trans hlt hd)]

theorem holder_eq_none_iff (h : s.Nested) :
    s.holder e x = none ↔ ∀ d, ¬ s.BindsAt e x d := by
  unfold holder
  rw [List.find?_eq_none]
  constructor
  · rintro hnone d ⟨f, hf, hbinds⟩
    exact hnone f (h.mem_chain_iff.mpr ⟨d, hf⟩) hbinds
  · intro hnone f hf hbinds
    obtain ⟨d, hd⟩ := h.mem_chain_iff.mp hf
    exact hnone d ⟨f, hd, hbinds⟩

/-- A value is read at the nearest binding. -/
theorem get_of_nearestBinding (h : s.Nested) {d : Nat} (hn : s.NearestBinding e x d f) :
    s.get e x = s.lookup f x := by
  rw [get_eq_bind_holder, h.holder_eq_some_iff.mpr ⟨d, hn⟩]
  rfl

end Nested

end Store

end Lox
