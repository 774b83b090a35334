import Lox.Machine.Run

/-!
# Completed parts of runs

A part of a run has finished when nothing is left to do but what waited before it began. A run that
has ended is the case in which nothing waited.
-/

namespace Lox

namespace State

variable {host : Host} {rest : List Resume} {s t u : State} {n : Nat}

/-! ### Runs -/

theorem step_of_isFinal (h : s.isFinal = true) : s.step host = s := by
  cases s with
  | flow f rest w | fail f rest w =>
    cases rest with
    | nil => rfl
    | cons r rest => cases h
  | _ => cases h

@[simp] theorem run_zero : s.run host 0 = s := rfl

theorem run_of_isFinal (h : s.isFinal = true) : s.run host n = s := by
  cases n with
  | zero => rfl
  | succ n => simp [State.run, h]

theorem run_succ : s.run host (n + 1) = (s.step host).run host n := by
  by_cases h : s.isFinal = true
  · rw [step_of_isFinal h, run_of_isFinal h, run_of_isFinal h]
  · simp [State.run, h]

theorem run_add (m n : Nat) : s.run host (m + n) = (s.run host m).run host n := by
  induction m generalizing s with
  | zero => rw [Nat.zero_add, run_zero]
  | succ m ih => rw [Nat.succ_add, run_succ, run_succ, ih]

theorem run_succ_eq_step : s.run host (n + 1) = (s.run host n).step host := by
  rw [run_add, run_succ, run_zero]

theorem isFinal_of_le {m : Nat} (hle : m ≤ n) (h : (s.run host n).isFinal = false) :
    (s.run host m).isFinal = false := by
  obtain ⟨k, rfl⟩ := Nat.exists_eq_add_of_le hle
  cases hm : (s.run host m).isFinal with
  | false => rfl
  | true => rw [run_add, run_of_isFinal hm, hm] at h; exact h

theorem ending_of_not_final (h : s.isFinal = false) : s.ending = .outOfSteps := by
  cases s with
  | flow f rest w | fail f rest w =>
    cases rest with
    | nil => cases h
    | cons r rest => rfl
  | _ => rfl

/-! ### Completion -/

/-- Nothing is left to do but what is to go on. -/
inductive Returned (rest : List Resume) : State → Prop
  | flow (f : Flow) (w : World) : Returned rest (flow f rest w)
  | fail (f : Failure) (w : World) : Returned rest (fail f rest w)

/-- A run from a state returns to what is to go on, for the first time in the other state. -/
inductive Finishes (host : Host) (rest : List Resume) : State → State → Prop
  | here {t : State} : t.Returned rest → Finishes host rest t t
  | step {s t : State} : ¬ s.Returned rest → Finishes host rest (s.step host) t →
      Finishes host rest s t

theorem returned_flow_iff {f : Flow} {more : List Resume} {w : World} :
    (State.flow f more w).Returned rest ↔ more = rest := by
  constructor
  · rintro ⟨⟩
    rfl
  · rintro rfl
    exact .flow f w

theorem returned_fail_iff {f : Failure} {more : List Resume} {w : World} :
    (State.fail f more w).Returned rest ↔ more = rest := by
  constructor
  · rintro ⟨⟩
    rfl
  · rintro rfl
    exact .fail f w

theorem returned_nil_iff : s.Returned [] ↔ s.isFinal = true := by
  constructor
  · rintro (⟨f, w⟩ | ⟨f, w⟩) <;> rfl
  · intro h
    cases s with
    | flow f rest w =>
      cases rest with
      | nil => exact .flow f w
      | cons r rest => cases h
    | fail f rest w =>
      cases rest with
      | nil => exact .fail f w
      | cons r rest => cases h
    | _ => cases h

theorem Finishes.returned (h : s.Finishes host rest t) : t.Returned rest := by
  induction h with
  | here ht => exact ht
  | step _ _ ih => exact ih

theorem Finishes.unique (h : s.Finishes host rest t) (h' : s.Finishes host rest u) : t = u := by
  induction h with
  | here ht =>
    cases h' with
    | here _ => rfl
    | step hn _ => exact absurd ht hn
  | step hn _ ih =>
    cases h' with
    | here ht => exact absurd ht hn
    | step _ h' => exact ih h'

theorem Finishes.exists_run (h : s.Finishes host rest t) : ∃ n, s.run host n = t := by
  induction h with
  | here _ => exact ⟨0, rfl⟩
  | step _ _ ih =>
    obtain ⟨n, hn⟩ := ih
    exact ⟨n + 1, run_succ.trans hn⟩

theorem finishes_run (h : (s.run host n).isFinal = true) : s.Finishes host [] (s.run host n) := by
  induction n generalizing s with
  | zero => exact .here (returned_nil_iff.mpr h)
  | succ n ih =>
    by_cases hs : s.isFinal = true
    · rw [run_of_isFinal hs]
      exact .here (returned_nil_iff.mpr hs)
    · rw [run_succ] at h ⊢
      exact .step (fun hr => hs (returned_nil_iff.mp hr)) (ih h)

end State

end Lox
