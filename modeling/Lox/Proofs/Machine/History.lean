import Lox.Proofs.Machine.Agreement
import Lox.Proofs.Machine.Initializers

/-!
# Where sealed frames come from

Every frame of a session that is opened for a receiver or for a superclass was created by a step of
the session, with the receiver or the superclass that this step found, and it is still as it was
created.
-/

namespace Lox

namespace State

variable {host : Host} {globals : FrameId} {s t : State} {e : FrameId} {held : Seal}

/-- A session with a host and its globals comes to a state: it has run sources that were accepted,
and runs another one. -/
inductive InSession : Host → FrameId → State → Prop
  | mk {i : Interpreter} {sources : List Text} {origins : List Origin} {source : Text}
      {program : Program Address} (n : Nat) : i.Reachable sources origins →
      Program.ofSource source = .ok program → InSession i.host i.globals (i.stateAt program n)

/-- A session comes to a state, takes a step and comes to another one, at once or later. -/
structure Precedes (host : Host) (globals : FrameId) (s t : State) : Prop where
  inSession : s.InSession host globals
  follows : (s.step host).Follows host globals t

/-- An earlier step of the session has created a sealed frame. -/
def Created (host : Host) (globals : FrameId) (t : State) (e : FrameId) (held : Seal) : Prop :=
  ∃ s : State, s.Precedes host globals t ∧ s.seals? = some held ∧ s.world.store.frames.size = e

/-! ### Frames of a run -/

theorem opens_of_isFinal (h : s.isFinal = true) : s.opens host = [] := by
  cases s with
  | flow f rest w | fail f rest w => rfl
  | _ => cases h

theorem opened_succ (n : Nat) :
    s.opened host (n + 1) = s.opened host n ++ (s.run host n).opens host := by
  induction n generalizing s with
  | zero =>
    unfold State.opened
    split
    · next h => rw [run_zero, opens_of_isFinal h]; rfl
    · exact List.append_nil _
  | succ n ih =>
    by_cases h : s.isFinal = true
    · rw [run_of_isFinal h, opens_of_isFinal h, List.append_nil]
      simp [State.opened, h]
    · have hnext : ∀ m, s.opened host (m + 1) = s.opens host ++ (s.step host).opened host m :=
        fun m => by rw [State.opened, if_neg h]
      rw [hnext, ih, hnext, run_succ, List.append_assoc]

end State

/-! ### Sessions -/

theorem Program.scanned_of_ofSource {source : Text} {program : Program Address}
    (h : Program.ofSource source = .ok program) : program.Scanned :=
  ⟨source, Program.reads_of_ofSourceWith h⟩

namespace Interpreter

variable {i : Interpreter} {sources : List Text} {origins : List Origin} {source : Text}
  {program : Program Address}

theorem Reachable.arises (h : i.Reachable sources origins) : i.Arises Program.Scanned origins := by
  induction h with
  | new host input echo => exact .new host input echo
  | execute n _ hp ih => exact .execute n ih (Program.scanned_of_ofSource hp)
  | read input _ ih => exact .read input ih

theorem Reachable.sealed (h : i.Reachable sources origins) : i.Sealed origins :=
  h.arises.sealed fun _ => Program.Scanned.spelled

theorem opened_succ (i : Interpreter) (program : Program Address) (n : Nat) :
    i.opened program (n + 1) = i.opened program n ++ (i.stateAt program n).opens i.host :=
  State.opened_succ n

/-- Each sealed frame of an interpreter was created by a step of the session, which has left the
world of the interpreter behind. -/
def Recalls (i : Interpreter) (origins : List Origin) : Prop :=
  ∀ (e : FrameId) o, origins[e]? = some o → o.isSealed = true →
    ∃ t held, State.Created i.host i.globals t e held ∧ held.origin = o ∧
      i.world = { t.world with events := [], input := i.world.input }

/-- The frames that a program creates are recalled with those that were there. -/
theorem Recalls.created (h : i.Recalls origins) (hi : i.Reachable sources origins)
    (hp : Program.ofSource source = .ok program) (n : Nat) {e : FrameId} {o : Origin}
    (ho : (origins ++ i.opened program n)[e]? = some o) (hs : o.isSealed = true) :
    ∃ held, (i.stateAt program n).Created i.host i.globals e held ∧ held.origin = o := by
  induction n with
  | zero =>
    rw [Interpreter.opened, State.opened, List.append_nil] at ho
    obtain ⟨t, held, ⟨s, ⟨hs, hfollows⟩, hseals, hsize⟩, horigin, hworld⟩ := h e o ho hs
    have hstart := hfollows.start i.world.input (Program.scanned_of_ofSource hp)
    rw [← hworld] at hstart
    exact ⟨held, ⟨s, ⟨hs, hstart⟩, hseals, hsize⟩, horigin⟩
  | succ n ih =>
    have hstep : i.stateAt program (n + 1) = (i.stateAt program n).step i.host :=
      State.run_succ_eq_step
    rw [opened_succ, ← List.append_assoc] at ho
    by_cases hlt : e < (origins ++ i.opened program n).length
    · rw [List.getElem?_append_left hlt] at ho
      obtain ⟨held, ⟨s, hprecedes, hseals, hsize⟩, horigin⟩ := ih ho
      rw [hstep]
      exact ⟨held, ⟨s, ⟨hprecedes.inSession, hprecedes.follows.step⟩, hseals, hsize⟩, horigin⟩
    · -- the frame is new, so it is the one that this very step creates
      rw [List.getElem?_append_right (Nat.le_of_not_lt hlt)] at ho
      obtain ⟨hfirst, held, hheld, rfl⟩ := (State.opens_eq i.host _).eq_zero ho hs
      have hcount := (hi.sealed.stateAt (Program.scanned_of_ofSource hp).spelled n).count
      refine ⟨held, ⟨i.stateAt program n, ⟨.mk n hi hp, hstep ▸ .refl⟩, hheld, ?_⟩, rfl⟩
      rw [← hcount]
      exact Nat.le_antisymm (Nat.le_of_not_lt hlt) (Nat.le_of_sub_eq_zero hfirst)

theorem Reachable.recalls (h : i.Reachable sources origins) : i.Recalls origins := by
  induction h with
  | new host input echo =>
    intro e o ho hs
    cases e with
    | zero =>
      cases ho
      cases hs
    | succ e => cases ho
  | @execute i sources origins source program n hi hp ih =>
    intro e o ho hs
    obtain ⟨held, hcreated, horigin⟩ := ih.created hi hp n ho hs
    exact ⟨i.stateAt program n, held, hcreated, horigin, rfl⟩
  | read input _ ih =>
    intro e o ho hs
    obtain ⟨t, held, hcreated, horigin, hworld⟩ := ih e o ho hs
    exact ⟨t, held, hcreated, horigin, by rw [hworld]⟩

/-- Every frame for a receiver or a superclass was created by an earlier step of the session. -/
theorem Reachable.created (h : i.Reachable sources origins)
    (hp : Program.ofSource source = .ok program) (n : Nat) {e : FrameId} {o : Origin}
    (ho : (origins ++ i.opened program n)[e]? = some o) (hs : o.isSealed = true) :
    ∃ held, (i.stateAt program n).Created i.host i.globals e held ∧ held.origin = o :=
  h.recalls.created h hp n ho hs

end Interpreter

namespace State

variable {host : Host} {globals : FrameId} {s t : State} {e : FrameId} {held : Seal}

theorem InSession.sealed (h : s.InSession host globals) :
    ∃ d origins, s.Sealed d origins ∧ ∃ o, origins[globals]? = some o ∧ o.isSealed = false := by
  obtain ⟨n, hi, hp⟩ := h
  have hsealed := hi.sealed
  obtain ⟨o, ho, hfree⟩ := hsealed.globals
  exact ⟨_, _, hsealed.stateAt (Program.scanned_of_ofSource hp).spelled n, o,
    Origin.getElem?_append ho _, hfree⟩

/-- What a sealed frame was created with is in it still. -/
theorem Created.frame (h : t.Created host globals e held) :
    t.world.store.frames[e]? = some held.frame := by
  obtain ⟨s, ⟨hs, hfollows⟩, hseals, rfl⟩ := h
  obtain ⟨d, origins, hsealed, hg⟩ := hs.sealed
  exact hsealed.frames_follows hg hseals hfollows

end State

end Lox
