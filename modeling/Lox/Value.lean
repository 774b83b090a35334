import Lox.Diagnostic
import Lox.Tree.Basic

/-!
# Values

What expressions evaluate to. Frames, classes and instances live in a store and are referred to by
number; everything else is plain data.
-/

namespace Lox

/-- The number of a frame in a store. -/
abbrev FrameId := Nat

/-- The number of a class in a store. -/
abbrev ClassId := Nat

/-- The number of an instance in a store. -/
abbrev InstanceId := Nat

/-- The categories of value. A host may have values of further kinds, known by a code. -/
inductive Kind where
  | nil
  | bool
  | number
  | string
  | function
  | nativeFunction
  | classKind
  | instanceKind
  | moduleKind
  | unknown (code : Int)
  deriving DecidableEq, Repr

namespace Kind

/-- The kind with a code. -/
def ofCode : Int → Kind
  | 0 => nil
  | 1 => bool
  | 2 => number
  | 3 => string
  | 4 => function
  | 5 => nativeFunction
  | 6 => classKind
  | 7 => instanceKind
  | 8 => moduleKind
  | code => unknown code

/-- The name of a kind. -/
def name : Kind → Text
  | nil => "nil"
  | bool => "bool"
  | number => "number"
  | string => "string"
  | function => "function"
  | nativeFunction => "native_function"
  | classKind => "class"
  | instanceKind => "instance"
  | moduleKind => "module"
  | unknown code => "unknown_kind_" ++ Text.ofInt code

end Kind

/-- The functions that every program finds among its globals. None takes arguments. -/
inductive NativeFunction where
  | clock
  | read
  | readNumber
  deriving DecidableEq, Repr

namespace NativeFunction

/-- The global name of a native function. -/
def name : NativeFunction → Text
  | clock => "clock"
  | read => "read"
  | readNumber => "readNumber"

/-- Every native function. -/
def all : List NativeFunction := [clock, read, readNumber]

end NativeFunction

/-- A function together with the frame it was created in. The name is empty for an anonymous
function. -/
structure Closure where
  name : Text
  kind : FunctionKind
  fn : Function Address
  frame : FrameId
  initializer : Bool := false

/-- An imported module: the name it is bound to, its file and the frame of its globals. -/
structure Module where
  name : Text
  file : Text
  globals : FrameId
  deriving DecidableEq, Repr

/-- A value. A `foreign` value belongs to a host and is known only by the code of its kind. -/
inductive Value where
  | nil
  | bool (b : Bool)
  | number (x : Float)
  | string (t : Text)
  | function (closure : Closure)
  | native (fn : NativeFunction)
  | classRef (id : ClassId)
  | instanceRef (id : InstanceId)
  | moduleRef (m : Module)
  | foreign (code : Int)

namespace Value

/-- The kind of a value. -/
def kind : Value → Kind
  | nil => .nil
  | bool _ => .bool
  | number _ => .number
  | string _ => .string
  | function _ => .function
  | native _ => .nativeFunction
  | classRef _ => .classKind
  | instanceRef _ => .instanceKind
  | moduleRef _ => .moduleKind
  | foreign code => .ofCode code

/-- Whether a value counts as true in a condition: all do but `nil` and `false`. -/
def isTruthy : Value → Bool
  | nil => false
  | bool b => b
  | _ => true

/-- The value that a literal denotes. -/
def ofLiteral : Literal → Value
  | .nil => nil
  | .bool b => bool b
  | .number x => number x
  | .string t => string t

end Value

end Lox
