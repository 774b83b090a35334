import Lox.Machine.Step

/-!
# Runs

A run repeats the step of the machine until it ends. The number of steps is bounded, and reaching
the bound is an ending of its own.
-/

namespace Lox

/-- Steps until the run has ended, at most `n` times. -/
def State.run (host : Host) : (n : Nat) → State → State
  | 0, s => s
  | n + 1, s => if s.isFinal then s else State.run host n (s.step host)

/-- How a run ends. -/
inductive Ending where
  | finished
  | failed (f : Failure)
  /-- The bound on the number of steps was reached. -/
  | outOfSteps

/-- How a run that is at a given point ends, if it has ended there. -/
def State.ending : State → Ending
  | flow _ [] _ => .finished
  | fail f [] _ => .failed f
  | _ => .outOfSteps

/-- Runs a program in a frame of globals for at most `n` steps. -/
def World.run (w : World) (host : Host) (n : Nat) (program : Program Address) (globals : FrameId) :
    Ending × World :=
  let s := State.run host n (.start program globals w)
  (s.ending, s.world)

end Lox
