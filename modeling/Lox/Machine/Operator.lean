import Lox.Fault
import Lox.Number.Remainder
import Lox.Store

/-!
# Operators

What the operators do with the values of their operands.

## Design notes

Every binary operator but `+` and the sequence takes numbers only, equality included.
-/

namespace Lox

/-- The result of an operator on one operand. -/
def UnaryOp.apply : UnaryOp → Value → Except Fault Value
  | .not, v => .ok (.bool !v.isTruthy)
  | .negate, .number x => .ok (.number (-x))
  | .negate, _ => .error .operandNotNumber

namespace BinaryOp

/-- The result of an operator on two numbers. -/
def onNumbers (op : BinaryOp) (x y : Float) : Except Fault Value :=
  match op with
  | sequence => .ok (.number y)
  | equal => .ok (.bool (x == y))
  | notEqual => .ok (.bool (x != y))
  | greater => .ok (.bool (y < x))
  | greaterEqual => .ok (.bool (y ≤ x))
  | less => .ok (.bool (x < y))
  | lessEqual => .ok (.bool (x ≤ y))
  | plus => .ok (.number (x + y))
  | minus => .ok (.number (x - y))
  | times => .ok (.number (x * y))
  | divide => if y == 0 then .error .divisionByZero else .ok (.number (x / y))
  | modulo => if y == 0 then .error .divisionByZero else .ok (.number (Number.remainder x y))

/-- The result of an operator on two values: `+` also joins texts if one operand is a string. -/
def apply (s : Store) (op : BinaryOp) (left right : Value) : Except Fault Value :=
  match op, left, right with
  | sequence, _, _ => .ok right
  | op, .number x, .number y => op.onNumbers x y
  | plus, _, _ =>
    if left.kind = .string || right.kind = .string then
      .ok (.string (s.render left ++ s.render right))
    else .error .operandsNotAddable
  | _, _, _ => .error .operandsNotNumbers

end BinaryOp

/-- Whether the left operand is already the result. -/
def LogicalOp.decides : LogicalOp → Value → Bool
  | .or, v => v.isTruthy
  | .and, v => !v.isTruthy

end Lox
