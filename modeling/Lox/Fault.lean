import Lox.Source

/-!
# Run-time failures

What can go wrong while a program runs. A run-time error can be reported and the session goes on;
exceeding the limit of nested calls ends it.
-/

namespace Lox

/-- Why a module could not be loaded. -/
inductive ImportFault where
  | unavailable
  | missing (reason : Text)
  | unreadable (reason : Text)
  | rejected (rejection : Rejection)

/-- The reason in words. -/
def ImportFault.text : ImportFault → Text
  | unavailable => "module imports are not available"
  | missing reason => reason
  | unreadable reason => reason
  | rejected rejection => rejection.text

/-- What can go wrong while a program runs. -/
inductive Fault where
  | undefinedVariable (x : Text)
  | undefinedProperty (x : Text)
  | alreadyDefined (x : Text)
  | operandNotNumber
  | operandsNotNumbers
  | operandsNotAddable
  | divisionByZero
  | notCallable
  | wrongArity (expected got : Nat)
  | noProperties
  | noFields
  | superclassNotClass
  | superOutsideClass
  | duplicateMethod
  | importFailed (path : Text) (why : ImportFault)
  | inputFailed (reason : Text)
  | inputNotNumber (reason : Text)

namespace Fault

/-- The wording of a fault. -/
def message : Fault → Text
  | undefinedVariable x => "Undefined variable '" ++ x ++ "'."
  | undefinedProperty x => "Undefined property '" ++ x ++ "'."
  | alreadyDefined x => "Variable '" ++ x ++ "' already exist in scope."
  | operandNotNumber => "Operand must be a number."
  | operandsNotNumbers => "Operands must be numbers."
  | operandsNotAddable => "Operands must be two numbers or two strings."
  | divisionByZero => "Division by zero."
  | notCallable => "Can only call functions and classes."
  | wrongArity expected got =>
    "Expected " ++ Text.ofNat expected ++ " arguments but got " ++ Text.ofNat got ++ "."
  | noProperties => "Only instances have properties."
  | noFields => "Only instances have fields."
  | superclassNotClass => "Superclass must be a class."
  | superOutsideClass => "Can't use 'super' outside of a class."
  | duplicateMethod => "Methods must have different names."
  | importFailed path _ => "Error accessing module '" ++ path ++ "'."
  | inputFailed reason => reason
  | inputNotNumber _ => "Cannot convert input to a number."

/-- The wording of what lies behind a fault. -/
def cause? : Fault → Option Text
  | importFailed _ why => some why.text
  | inputFailed reason => some reason
  | inputNotNumber reason => some reason
  | _ => none

end Fault

/-- How a run fails: by an error at a place in the source, or by exceeding the call depth there. -/
inductive Failure where
  | runtime (mark : Mark) (fault : Fault)
  | overflow (mark : Mark)

namespace Failure

/-- Where a run failed. -/
def mark : Failure → Mark
  | runtime mark _ => mark
  | overflow mark => mark

/-- The wording of a failure. -/
def message : Failure → Text
  | runtime _ fault => fault.message
  | overflow _ => "Stack overflow."

/-- The wording of what lies behind a failure. -/
def cause? : Failure → Option Text
  | runtime _ fault => fault.cause?
  | overflow _ => none

/-- Whether the failure ends a session. -/
def isFatal : Failure → Bool
  | runtime _ _ => false
  | overflow _ => true

/-- The line shown for a failure. -/
def text (f : Failure) : Text := Diagnostic.heading f.mark.line ++ ": " ++ f.message

end Failure

end Lox
