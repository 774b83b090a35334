import Lox.Proofs.Machine.Depth
import Lox.Proofs.Machine.Scoping

/-!
# Activations

From the step that enters the body of a function until the body has finished, the call waits, and so
does all that waited before it. So a call that comes to a value has run the body once, and the value
is the result of that run.
-/

namespace Lox

namespace State

variable {host : Host} {w : World} {env : FrameId} {demand : Demand} {rest : List Resume}
variable {v : Value} {closure : Closure} {arguments : List Value} {paren : Mark}

/-! ### What waits -/

variable {s : State} {stack : List Resume} {k : Nat}

/-- What waits goes on waiting, unless it is its turn. -/
theorem suffix_step (h : stack <:+ s.waiting) (hr : ¬ s.Returned stack) :
    stack <:+ (s.step host).waiting := by
  have hmove := moves_step host s
  generalize s.opens host = opened, s.step host = s' at hmove
  cases hmove with
  | call | construct | load => exact h.trans (List.suffix_append [_, _] _)
  | round | block => exact h.trans (List.suffix_cons _ _)
  | next | nextTop =>
    rcases List.suffix_cons_iff.mp h with rfl | hrest
    · exact absurd (.flow _ _) hr
    · exact hrest.trans (List.suffix_cons _ _)
  | leave | again | broke | returned | leaveTop | answer | imported =>
    rcases List.suffix_cons_iff.mp h with rfl | hrest
    · exact absurd (.flow _ _) hr
    · exact hrest
  | @unwind f r =>
    rcases List.suffix_cons_iff.mp h with rfl | hrest
    · exact absurd (.fail _ _) hr
    · cases r <;> exact hrest
  | _ => exact h

/-! ### Values that are waited for -/

/-- A run comes to a value for what demands it, after `k` steps and not before. -/
structure Answers (host : Host) (demand : Demand) (rest : List Resume) (s : State) (k : Nat)
    (v : Value) : Prop where
  lasts : s.Lasts host (Answered demand rest) k
  result : ∃ w, s.run host k = value v demand rest w

theorem not_answered_of_suffix {r : Resume} (h : r :: rest <:+ s.waiting) :
    ¬ s.Answered demand rest := by
  rintro (⟨v, w⟩ | ⟨f, w⟩) <;> exact Nat.not_succ_le_self _ h.length_le

namespace Answers

theorem step (h : s.Answers host demand rest k v) (hs : ¬ s.Answered demand rest) :
    ∃ k', k = k' + 1 ∧ (s.step host).Answers host demand rest k' v := by
  obtain ⟨hlasts, w, hw⟩ := h
  cases k with
  | zero =>
    have hs' : s = value v demand rest w := hw
    exact absurd (hs' ▸ .value v w) hs
  | succ k =>
    refine ⟨k, rfl, fun m hm => ?_, w, run_succ ▸ hw⟩
    rw [← run_succ]
    exact hlasts (m + 1) (Nat.succ_lt_succ hm)

theorem eq_zero (h : s.Answers host demand rest k v) (hs : s.Answered demand rest) : k = 0 := by
  by_contra hk
  exact h.lasts 0 (Nat.pos_of_ne_zero hk) hs

theorem of_value {u : Value} (h : (value u demand rest w).Answers host demand rest k v) :
    k = 0 ∧ v = u := by
  obtain rfl := h.eq_zero (.value u w)
  obtain ⟨w', hw⟩ := h.result
  cases hw
  exact ⟨rfl, rfl⟩

/-- A failure is no value. -/
theorem not_fail {f : Failure} : ¬ (fail f rest w).Answers host demand rest k v := by
  intro h
  obtain rfl := h.eq_zero (.fail f w)
  obtain ⟨w', hw⟩ := h.result
  cases hw

/-- A value that an active call comes to is the result of its body, and the call is active until
then. -/
theorem exists_return (h : s.Answers host demand rest k v)
    (hs : .call closure demand :: rest <:+ s.waiting) :
    ∃ j f w, k = j + 1 ∧ s.run host j = flow f (.call closure demand :: rest) w ∧
      v = callResult closure f w.store ∧
      ∀ m ≤ j, .call closure demand :: rest <:+ (s.run host m).waiting := by
  induction k generalizing s with
  | zero => exact absurd (h.step (not_answered_of_suffix hs)) (by simp)
  | succ k ih =>
    obtain ⟨k', hk, hnext⟩ := h.step (not_answered_of_suffix hs)
    obtain rfl : k = k' := Nat.succ.inj hk
    by_cases hr : s.Returned (.call closure demand :: rest)
    · cases hr with
      | flow f w =>
        obtain ⟨rfl, rfl⟩ := of_value (u := callResult closure f w.store) hnext
        refine ⟨0, f, w, rfl, rfl, rfl, fun m hm => ?_⟩
        obtain rfl := Nat.le_zero.mp hm
        exact hs
      | fail f w => exact absurd hnext not_fail
    · obtain ⟨j, f, w, rfl, hrun, hv, hactive⟩ := ih hnext (suffix_step hs hr)
      refine ⟨j + 1, f, w, rfl, run_succ.trans hrun, hv, fun m hm => ?_⟩
      cases m with
      | zero => exact hs
      | succ m =>
        rw [run_succ]
        exact hactive m (Nat.le_of_succ_le_succ hm)

end Answers

/-! ### Calls -/

/-- What waits for the value of a call that the next step makes. -/
def caller? : State → Option (Demand × List Resume)
  | value _ ⟨_ :: pending, use⟩ rest _ => some (⟨pending, use⟩, rest)
  | _ => none

/-- A call completes with a value, for which something waits, after `k` steps. -/
structure Yields (host : Host) (s : State) (demand : Demand) (rest : List Resume) (k : Nat)
    (v : Value) : Prop where
  caller : s.caller? = some (demand, rest)
  answers : s.Answers host demand rest k v

/-- A call that completes after `k` steps runs the body of a function, and does so once: the body is
entered by the first step, is active in all states in between, and when it has finished, its result
is the value of the call. -/
structure Runs (host : Host) (s : State) (closure : Closure) (demand : Demand) (rest : List Resume)
    (k : Nat) (v : Value) : Prop where
  entered : ∃ env w, s.step host =
    flow .normal (.block closure.fn.body env :: .call closure demand :: rest) w
  active : ∀ m ≤ k, .call closure demand :: rest <:+ (s.run host m).waiting ↔ 0 < m ∧ m < k
  result : ∃ j f w, k = j + 1 ∧ s.run host j = flow f (.call closure demand :: rest) w ∧
    v = callResult closure f w.store

theorem waiting_of_caller? (h : s.caller? = some (demand, rest)) : s.waiting = rest := by
  unfold caller? at h
  split at h
  · cases h
    rfl
  · cases h

theorem step_of_caller? (host : Host) {callee : Value}
    (h : s.caller? = some (demand, rest)) (hc : s.call? = some (paren, callee, arguments)) :
    s.step host = call host callee arguments paren demand rest s.world := by
  unfold call? at hc
  split at hc
  · cases hc
    cases h
    rfl
  · cases hc
    cases h
    rfl
  · cases hc

namespace Yields

/-- The value comes from the steps after the first one. -/
theorem step (h : s.Yields host demand rest k v) :
    ∃ k', k = k' + 1 ∧ (s.step host).Answers host demand rest k' v := by
  refine h.answers.step ?_
  have hcaller := h.caller
  rintro (⟨u, w⟩ | ⟨f, w⟩)
  · obtain ⟨pending, use⟩ := demand
    cases pending with
    | nil => cases hcaller
    | cons p pending =>
      have hlonger : pending = p :: pending := congrArg (·.1.pending) (Option.some.inj hcaller)
      exact absurd hlonger (List.cons_ne_self p pending).symm
  · cases hcaller

/-- A call that enters a function, and completes, has run its body. -/
theorem runs (h : s.Yields host demand rest k v)
    (hs : s.step host = enterFunction host closure arguments paren demand rest w) :
    s.Runs host closure demand rest k v := by
  obtain ⟨k', rfl, hanswers⟩ := h.step
  rw [hs] at hanswers
  unfold enterFunction at hs hanswers
  split at hs
  · next hfull =>
    rw [if_pos hfull] at hanswers
    exact absurd hanswers Answers.not_fail
  · next hroom =>
    rw [if_neg hroom] at hanswers
    have hstack : .call closure demand :: rest <:+ (s.step host).waiting := by
      rw [hs]
      exact List.suffix_cons _ _
    rw [← hs] at hanswers
    obtain ⟨j, f, w', rfl, hrun, hv, hactive⟩ := hanswers.exists_return hstack
    refine ⟨⟨_, _, hs⟩, fun m hm => ?_, j + 1, f, w', rfl, run_succ.trans hrun, hv⟩
    cases m with
    | zero =>
      rw [run_zero, waiting_of_caller? h.caller]
      exact ⟨fun hle => absurd hle.length_le (Nat.not_succ_le_self _),
        fun hlt => absurd hlt.1 (Nat.lt_irrefl 0)⟩
    | succ m =>
      refine ⟨fun hle => ⟨Nat.succ_pos m, Nat.lt_of_le_of_ne hm ?_⟩, fun hlt => ?_⟩
      · intro heq
        obtain ⟨w'', hw⟩ := h.answers.result
        rw [heq, hw] at hle
        exact not_answered_of_suffix hle (.value v w'')
      · rw [run_succ]
        exact hactive m (Nat.le_of_lt_succ (Nat.lt_of_succ_lt_succ hlt.2))

end Yields

end State

end Lox
