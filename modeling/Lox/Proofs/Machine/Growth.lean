import Lox.Proofs.Machine.Completion
import Lox.Proofs.Machine.Moves

/-!
# What a step does to the world

No step takes anything out of the store: frames stay where they are and keep the names they bind.
And a step counts at most one more active call or import, and none if there is no room for it.
-/

namespace Lox

/-- What a step may do to a world: the store grows, and one more call or import becomes active only
if there is room for it. -/
structure World.LeadsTo (host : Host) (w w' : World) : Prop where
  store : w.store.Extends w'.store
  depth : w'.depth ≤ w.depth ∨ w'.depth = w.depth + 1 ∧ w.isFull host = false

namespace World.LeadsTo

variable {host : Host} {w w' : World}

theorem of_store (hs : w.store.Extends w'.store) (hd : w'.depth = w.depth) : w.LeadsTo host w' :=
  ⟨hs, .inl (Nat.le_of_eq hd)⟩

theorem of_eq (hs : w'.store = w.store) (hd : w'.depth = w.depth) : w.LeadsTo host w' :=
  .of_store (hs ▸ .refl _) hd

theorem refl (w : World) : w.LeadsTo host w := .of_eq rfl rfl

theorem define (w : World) (e : FrameId) (x : Text) (v : Value) :
    w.LeadsTo host (w.define e x v) :=
  .of_store (.define _ _ _ _) rfl

end World.LeadsTo

namespace State

variable {host : Host} {s : State} {n : Nat}

theorem extends_initialized (s : Store) (c : ClassId) (method : Closure) :
    s.Extends (initialized s c method) := by
  have hnew : s.Extends (s.newInstance c).2 := .of_frames_eq rfl
  exact hnew.trans (.newFrameWith _ _ _)

theorem extends_classFrame (w : World) (name : Mark) (env : FrameId) (c? : Option ClassId) :
    w.store.Extends (classFrame w name env c?).2.store := by
  refine (Store.Extends.define w.store env name.lexeme .nil).trans ?_
  cases c? with
  | none => exact .refl _
  | some c => exact .newFrameWith _ _ _

theorem depth_classFrame (w : World) (name : Mark) (env : FrameId) (c? : Option ClassId) :
    (classFrame w name env c?).2.depth = w.depth := by
  cases c? <;> rfl

/-- What a step does to the world. -/
theorem leadsTo_step (host : Host) (s : State) : s.world.LeadsTo host (s.step host).world := by
  have hmove := moves_step host s
  generalize s.opens host = opened, s.step host = s' at hmove
  cases hmove with
  | assign | defined | bind => exact .define _ _ _ _
  | setClass | setInstance | newInstance => exact .of_store (.of_frames_eq rfl) rfl
  | clock | readInput | noInput | noLoad => exact .of_eq rfl rfl
  | shown _ hw => rcases hw with rfl | rfl <;> exact .of_eq rfl rfl
  | inherited | method => exact .of_store (.newFrameWith _ _ _) rfl
  | block => exact .of_store (.newFrame _ _) rfl
  | call _ _ hfull | load _ hfull => exact ⟨.newFrameWith _ _ _, .inr ⟨rfl, hfull⟩⟩
  | construct _ _ _ hfull =>
    exact ⟨(extends_initialized _ _ _).trans (.newFrameWith _ _ _), .inr ⟨rfl, hfull⟩⟩
  | constructOverflow => exact .of_store (extends_initialized _ _ _) rfl
  | @declareClass name superclass methods env rest w c? table =>
    have hframe := extends_classFrame w name env c?
    have hclass := hframe.trans (.of_frames_eq (Store.frames_newClass _ name.lexeme c? table))
    exact .of_store (hclass.trans (.define _ _ _ _)) (depth_classFrame w name env c?)
  | repeatMethod => exact .of_store (extends_classFrame _ _ _ _) (depth_classFrame _ _ _ _)
  | answer => exact ⟨.refl _, .inl (Nat.sub_le _ _)⟩
  | imported => exact ⟨.define _ _ _ _, .inl (Nat.sub_le _ _)⟩
  | @unwind f r => cases r <;> exact ⟨.refl _, .inl (by simp [failStep, State.world, World.leave])⟩
  | _ => exact .refl _

/-! ### Runs -/

/-- A run takes nothing out of the store. -/
theorem extends_run : s.world.store.Extends (s.run host n).world.store := by
  induction n generalizing s with
  | zero => exact .refl _
  | succ n ih =>
    rw [run_succ]
    exact (leadsTo_step host s).store.trans ih

/-- One more call or import is counted only within the limit. -/
theorem depth_step_le (h : s.world.depth ≤ host.limit) :
    (s.step host).world.depth ≤ host.limit := by
  rcases (leadsTo_step host s).depth with hd | ⟨hd, hfull⟩
  · exact Nat.le_trans hd h
  · have hroom : s.world.depth + 1 ≤ host.limit := by simpa [World.isFull] using hfull
    omega

/-- A run that starts within the limit stays there. -/
theorem depth_run_le (h : s.world.depth ≤ host.limit) :
    (s.run host n).world.depth ≤ host.limit := by
  induction n generalizing s with
  | zero => exact h
  | succ n ih =>
    rw [run_succ]
    exact ih (depth_step_le h)

end State

end Lox
