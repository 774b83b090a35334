import Lox.Table
import Lox.Value

/-!
# Stores

A store holds the frames, classes and instances that a run has created. Nothing is ever removed,
and whatever refers to something older refers to it by its number.

A frame binds names and has a parent, except for frames of globals. Looking a name up either starts
at a frame and goes outward or goes to the frame at an exact distance.

## Design notes

A parent is created before its children, so the number of a frame bounds the length of its chain;
likewise for classes. These numbers serve as bounds for the searches. The static methods of a class
are the methods of its metaclass, whose superclass is the metaclass of the class's superclass.
-/

namespace Lox

/-- The names bound in one scope, and the frame around it. -/
structure Frame where
  parent : Option FrameId
  bindings : Table Value := ∅

/-- A class. Its static methods are the methods of its metaclass. -/
structure ClassInfo where
  name : Text
  superclass : Option ClassId
  methods : Table Closure
  metaclass : Option ClassId
  fields : Table Value := ∅

/-- An instance of a class. -/
structure InstanceInfo where
  classId : ClassId
  fields : Table Value := ∅

/-- Everything a run has created. -/
structure Store where
  frames : Array Frame := #[]
  classes : Array ClassInfo := #[]
  instances : Array InstanceInfo := #[]

namespace Store

/-! ### Frames -/

/-- A new frame inside `parent`, or on its own. -/
def newFrame (s : Store) (parent : Option FrameId) : FrameId × Store :=
  (s.frames.size, { s with frames := s.frames.push { parent } })

/-- The frame around a frame. -/
def parent? (s : Store) (e : FrameId) : Option FrameId := s.frames[e]?.bind Frame.parent

/-- The value that a frame itself gives to a name. -/
def lookup (s : Store) (e : FrameId) (x : Text) : Option Value :=
  s.frames[e]?.bind (·.bindings.find? x)

/-- Whether a frame itself binds a name. -/
def binds (s : Store) (e : FrameId) (x : Text) : Bool := (s.lookup e x).isSome

/-- Binds a name in a frame, whether or not it was bound there. -/
def define (s : Store) (e : FrameId) (x : Text) (v : Value) : Store :=
  { s with frames := s.frames.modify e fun f => { f with bindings := f.bindings.insert x v } }

/-- Binds names in a frame one after the other. -/
def defineAll (s : Store) (e : FrameId) : List (Text × Value) → Store
  | [] => s
  | (x, v) :: rest => (s.define e x v).defineAll e rest

/-- A new frame that binds names from the start; of two equal names the later counts. -/
def newFrameWith (s : Store) (parent : Option FrameId) (bindings : List (Text × Value)) :
    FrameId × Store :=
  let (e, s) := s.newFrame parent
  (e, s.defineAll e bindings)

/-- The names that a frame itself binds, in byte order. -/
def names (s : Store) (e : FrameId) : List Text :=
  (s.frames[e]?.map (·.bindings.sortedKeys)).getD []

/-- The frame `d` steps outward. -/
def ancestor (s : Store) (e : FrameId) : (d : Nat) → Option FrameId
  | 0 => some e
  | d + 1 => (s.parent? e).bind (s.ancestor · d)

/-- A frame and the frames around it, innermost first, up to `bound` steps outward. -/
def chainFrom (s : Store) : (bound : Nat) → FrameId → List FrameId
  | 0, e => [e]
  | bound + 1, e =>
    match s.parent? e with
    | some p => e :: s.chainFrom bound p
    | none => [e]

/-- A frame and the frames around it, innermost first. -/
def chain (s : Store) (e : FrameId) : List FrameId := s.chainFrom e e

/-- The last frame within `bound` steps outward. -/
def rootFrom (s : Store) : (bound : Nat) → FrameId → FrameId
  | 0, e => e
  | bound + 1, e =>
    match s.parent? e with
    | some p => s.rootFrom bound p
    | none => e

/-- The outermost frame around a frame: the globals of its program or module. -/
def root (s : Store) (e : FrameId) : FrameId := s.rootFrom e e

/-- The value of a name in the nearest frame that binds it. -/
def get (s : Store) (e : FrameId) (x : Text) : Option Value :=
  (s.chain e).findSome? (s.lookup · x)

/-- The value of a name in the frame `d` steps outward. -/
def getAt (s : Store) (e : FrameId) (d : Nat) (x : Text) : Option Value :=
  (s.ancestor e d).bind (s.lookup · x)

/-- The nearest frame that binds a name. -/
def holder (s : Store) (e : FrameId) (x : Text) : Option FrameId :=
  (s.chain e).find? (s.binds · x)

/-- The frame `d` steps outward, if it binds a name. -/
def holderAt (s : Store) (e : FrameId) (d : Nat) (x : Text) : Option FrameId :=
  (s.ancestor e d).filter (s.binds · x)

/-- Gives a new value to a name in the nearest frame that binds it. -/
def assign (s : Store) (e : FrameId) (x : Text) (v : Value) : Option Store :=
  (s.holder e x).map (s.define · x v)

/-- Gives a new value to a name that the frame `d` steps outward binds. -/
def assignAt (s : Store) (e : FrameId) (d : Nat) (x : Text) (v : Value) : Option Store :=
  (s.holderAt e d x).map (s.define · x v)

/-- The value that a reference stands for: at its address, or else among the globals. -/
def read (s : Store) (e : FrameId) (ref : Address) (x : Text) : Option Value :=
  match ref with
  | some d => s.getAt e d x
  | none => s.get (s.root e) x

/-- The frame that an assignment to a reference changes: at its address, or else the globals. -/
def writable (s : Store) (e : FrameId) (ref : Address) (x : Text) : Option FrameId :=
  match ref with
  | some d => s.holderAt e d x
  | none => s.holder (s.root e) x

/-- A distance given as an integer; a negative one stays at the frame itself. -/
def distance (d : Int) : Nat := d.toNat

/-- A frame of globals with the native functions. -/
def newGlobals (s : Store) : FrameId × Store :=
  s.newFrameWith none (NativeFunction.all.map fun fn => (fn.name, .native fn))

/-! ### Classes and instances -/

/-- The methods of a kind among the declared ones. -/
def methodsWhere (p : Closure → Bool) (methods : Table Closure) : Table Closure :=
  ⟨methods.entries.filter fun (_, c) => p c⟩

/-- Whether a declared method belongs to the class itself. -/
def isStatic (c : Closure) : Bool := c.kind = .staticMethod

/-- A new class. There is a metaclass if the class has static methods or inherits a metaclass. -/
def newClass (s : Store) (name : Text) (superclass : Option ClassId) (methods : Table Closure) :
    ClassId × Store :=
  let statics := methodsWhere isStatic methods
  let own := methodsWhere (fun c => !isStatic c) methods
  let superMeta := (superclass.bind (s.classes[·]?)).bind ClassInfo.metaclass
  if statics.entries.isEmpty && superMeta.isNone then
    (s.classes.size,
      { s with classes := s.classes.push { name, superclass, methods := own, metaclass := none } })
  else
    let metaId := s.classes.size
    let metaInfo : ClassInfo :=
      { name := name ++ " meta", superclass := superMeta, methods := statics, metaclass := none }
    let info : ClassInfo := { name, superclass, methods := own, metaclass := some metaId }
    (metaId + 1, { s with classes := (s.classes.push metaInfo).push info })

/-- The nearest declaration of a method within `bound` steps along the superclasses. -/
def findMethodFrom (s : Store) (x : Text) : (bound : Nat) → ClassId → Option Closure
  | 0, c => s.classes[c]?.bind (·.methods.find? x)
  | bound + 1, c =>
    match s.classes[c]? with
    | none => none
    | some info =>
      match info.methods.find? x with
      | some method => some method
      | none => info.superclass.bind (s.findMethodFrom x bound ·)

/-- The method of a class with a given name: its own, or else the nearest inherited one. -/
def findMethod (s : Store) (c : ClassId) (x : Text) : Option Closure := s.findMethodFrom x c c

/-- The static method of a class with a given name. -/
def findStatic (s : Store) (c : ClassId) (x : Text) : Option Closure :=
  (s.classes[c]?.bind ClassInfo.metaclass).bind (s.findMethod · x)

/-- A new instance of a class, without fields. -/
def newInstance (s : Store) (c : ClassId) : InstanceId × Store :=
  (s.instances.size, { s with instances := s.instances.push { classId := c } })

/-- A method bound to a receiver: its frame is a new one that binds `this`. -/
def bind (s : Store) (method : Closure) (receiver : Value) : Closure × Store :=
  let (e, s) := s.newFrameWith (some method.frame) [("this", receiver)]
  ({ method with frame := e }, s)

/-- Sets a field of a class. -/
def setClassField (s : Store) (c : ClassId) (x : Text) (v : Value) : Store :=
  { s with classes := s.classes.modify c fun info => { info with fields := info.fields.insert x v } }

/-- Sets a field of an instance. -/
def setInstanceField (s : Store) (i : InstanceId) (x : Text) (v : Value) : Store :=
  { s with
    instances := s.instances.modify i fun info => { info with fields := info.fields.insert x v } }

/-- What a property is. -/
inductive Property where
  | value (v : Value)
  /-- A method, still to be bound to the object. -/
  | method (closure : Closure)
  | undefined
  | noProperties

/-- A method that may have been found. -/
def Property.ofMethod? : Option Closure → Property
  | some closure => method closure
  | none => undefined

/-- The property of an object: a global of a module, a field or else a static method of a class, a
field or else a method of an instance. -/
def property (s : Store) (object : Value) (x : Text) : Property :=
  match object with
  | .moduleRef m => ((s.lookup m.globals x).map .value).getD .undefined
  | .classRef c =>
    match s.classes[c]?.bind (·.fields.find? x) with
    | some v => .value v
    | none => .ofMethod? (s.findStatic c x)
  | .instanceRef i =>
    match s.instances[i]? with
    | none => .undefined
    | some info =>
      match info.fields.find? x with
      | some v => .value v
      | none => .ofMethod? (s.findMethod info.classId x)
  | _ => .noProperties

/-- The method that `super` finds for a receiver: a static one if the receiver is a class. -/
def inherited (s : Store) (superclass : ClassId) (receiver : Value) (x : Text) : Option Closure :=
  match receiver with
  | .classRef _ => s.findStatic superclass x
  | _ => s.findMethod superclass x

/-! ### Values seen through a store -/

/-- The name of a class. -/
def className (s : Store) (c : ClassId) : Text := (s.classes[c]?.map ClassInfo.name).getD []

/-- How many arguments a value takes when called; nothing for values that cannot be called. A
class takes those of its initializer. -/
def arity? (s : Store) : Value → Option Nat
  | .function closure => some closure.fn.arity
  | .native _ => some 0
  | .classRef c => some (((s.findMethod c "init").map (·.fn.arity)).getD 0)
  | _ => none

/-- A function as text. -/
def renderClosure (closure : Closure) : Text :=
  let name : Text := if closure.name = [] then "anonymous" else closure.name
  let label : Text := if closure.kind = .function then "fn" else closure.kind.label
  "<" ++ label ++ " " ++ name ++ ">"

/-- A value as `print` shows it. -/
def render (s : Store) : Value → Text
  | .nil => "nil"
  | .bool b => Text.ofBool b
  | .number x => Number.printed x
  | .string t => t
  | .function closure => renderClosure closure
  | .native _ => "<native fn>"
  | .classRef c => "<class " ++ s.className c ++ ">"
  | .instanceRef i =>
    "<" ++ (s.instances[i]?.map (s.className ·.classId)).getD [] ++ " instance>"
  | .moduleRef m => "<module " ++ m.name ++ ">"
  | .foreign code => "<" ++ (Kind.ofCode code).name ++ ">"

/-- The bindings of a frame that are not native functions, by name: kind and text. -/
def dump (s : Store) (e : FrameId) : List (Text × Kind × Text) :=
  (s.names e).filterMap fun x =>
    match s.lookup e x with
    | some (.native _) => none
    | some v => some (x, v.kind, s.render v)
    | none => none

end Store

end Lox
