import Lox.Machine.Operator
import Lox.Machine.State
import Lox.Tree.Import

/-!
# Machine steps

One step of the machine: the next part of an expression or statement, or what follows from a value,
a finished statement or a failure.
-/

namespace Lox

namespace State

/-- The failure of an operation at a place in the source. -/
def failAt (mark : Mark) (fault : Fault) (rest : List Resume) (w : World) : State :=
  fail (.runtime mark fault) rest w

/-- The outcome of an operation that leaves the world as it is. -/
def outcome (mark : Mark) (result : Except Fault Value) (demand : Demand) (rest : List Resume)
    (w : World) : State :=
  match result with
  | .ok v => value v demand rest w
  | .error fault => failAt mark fault rest w

/-! ### Names -/

/-- Reads a name. -/
def readName (mark : Mark) (ref : Address) (env : FrameId) (demand : Demand) (rest : List Resume)
    (w : World) : State :=
  match w.store.read env ref mark.lexeme with
  | some v => value v demand rest w
  | none => failAt mark (.undefinedVariable mark.lexeme) rest w

/-- Assigns to a name. -/
def assignName (mark : Mark) (ref : Address) (env : FrameId) (v : Value) (demand : Demand)
    (rest : List Resume) (w : World) : State :=
  match w.store.writable env ref mark.lexeme with
  | some e => value v demand rest (w.define e mark.lexeme v)
  | none => failAt mark (.undefinedVariable mark.lexeme) rest w

/-! ### Properties -/

/-- Yields a method bound to a receiver. Methods are bound anew each time. -/
def bindMethod (method : Closure) (receiver : Value) (demand : Demand) (rest : List Resume)
    (w : World) : State :=
  let (closure, w) := w.onStore (·.bind method receiver)
  value (.function closure) demand rest w

/-- Reads a property of an object. -/
def getProperty (object : Value) (property : Mark) (demand : Demand) (rest : List Resume)
    (w : World) : State :=
  match w.store.property object property.lexeme with
  | .value v => value v demand rest w
  | .method closure => bindMethod closure object demand rest w
  | .undefined => failAt property (.undefinedProperty property.lexeme) rest w
  | .noProperties => failAt property .noProperties rest w

/-- Whether an object has fields. -/
def hasFields : Value → Bool
  | .classRef _ => true
  | .instanceRef _ => true
  | _ => false

/-- Sets a field of an object. -/
def setField (object : Value) (property : Mark) (v : Value) (demand : Demand) (rest : List Resume)
    (w : World) : State :=
  match object with
  | .classRef c =>
    value v demand rest { w with store := w.store.setClassField c property.lexeme v }
  | .instanceRef i =>
    value v demand rest { w with store := w.store.setInstanceField i property.lexeme v }
  | _ => failAt property .noFields rest w

/-- Finds a method of the superclass and binds it to the current receiver: `super` lives at the
address, and `this` in the frame just inside it. -/
def getInherited (keyword method : Mark) (ref : Address) (env : FrameId) (demand : Demand)
    (rest : List Resume) (w : World) : State :=
  match ref with
  | none => failAt keyword .superOutsideClass rest w
  | some d =>
    match w.store.getAt env d "super" with
    | none => failAt keyword (.undefinedVariable "super") rest w
    | some (.classRef superclass) =>
      match w.store.getAt env (d - 1) "this" with
      | none => failAt keyword (.undefinedVariable "this") rest w
      | some receiver =>
        match w.store.inherited superclass receiver method.lexeme with
        | some closure => bindMethod closure receiver demand rest w
        | none => failAt method (.undefinedProperty method.lexeme) rest w
    | some _ => failAt keyword .superclassNotClass rest w

/-! ### Calls -/

/-- Starts the body of a function in a new frame that binds the arguments. -/
def enterFunction (host : Host) (closure : Closure) (arguments : List Value) (paren : Mark)
    (demand : Demand) (rest : List Resume) (w : World) : State :=
  if w.isFull host then fail (.overflow paren) rest w
  else
    let bindings := (closure.fn.params.map Mark.lexeme).zip arguments
    let (env, w) := w.enter.onStore (·.newFrameWith (some closure.frame) bindings)
    flow .normal (.block closure.fn.body env :: .call closure demand :: rest) w

/-- Calls a native function. -/
def callNative (fn : NativeFunction) (paren : Mark) (demand : Demand) (rest : List Resume)
    (w : World) : State :=
  match fn with
  | .clock =>
    let (time, clock) := w.clock.read
    value (.number time) demand rest { w with clock }
  | .read =>
    let (result, input) := w.input.readText
    outcome paren result demand rest { w with input }
  | .readNumber =>
    let (result, input) := w.input.readNumber
    outcome paren result demand rest { w with input }

/-- Creates an instance of a class, and calls its initializer if it has one. -/
def construct (host : Host) (c : ClassId) (arguments : List Value) (paren : Mark) (demand : Demand)
    (rest : List Resume) (w : World) : State :=
  let (i, w) := w.onStore (·.newInstance c)
  match w.store.findMethod c "init" with
  | none => value (.instanceRef i) demand rest w
  | some method =>
    let (closure, w) := w.onStore (·.bind method (.instanceRef i))
    enterFunction host closure arguments paren demand rest w

/-- Calls a value with as many arguments as it takes. -/
def call (host : Host) (callee : Value) (arguments : List Value) (paren : Mark) (demand : Demand)
    (rest : List Resume) (w : World) : State :=
  match w.store.arity? callee with
  | none => failAt paren .notCallable rest w
  | some arity =>
    if arguments.length ≠ arity then failAt paren (.wrongArity arity arguments.length) rest w
    else
      match callee with
      | .function closure => enterFunction host closure arguments paren demand rest w
      | .native fn => callNative fn paren demand rest w
      | .classRef c => construct host c arguments paren demand rest w
      | _ => failAt paren .notCallable rest w

/-- Evaluates the next argument of a call, or calls if there is none left. The arguments that are
done come latest first. -/
def nextArgument (host : Host) (callee : Value) (paren : Mark) (done : List Value)
    (arguments : List (Expr Address)) (env : FrameId) (demand : Demand) (rest : List Resume)
    (w : World) : State :=
  match arguments with
  | [] => call host callee done.reverse paren demand rest w
  | e :: more => eval e env (demand.push (.argument callee paren done more env)) rest w

/-! ### Declarations -/

/-- The closures of the methods of a class, by name, or the first name that is there twice. -/
def declareMethods (env : FrameId) (methods : List (Method Address)) (declared : Table Closure) :
    Except Mark (Table Closure) :=
  match methods with
  | [] => .ok declared
  | method :: more =>
    let x := method.name.lexeme
    if declared.contains x then .error method.name
    else
      let closure : Closure :=
        { name := x, kind := if method.static then .staticMethod else .method, fn := method.fn,
          frame := env, initializer := !method.static && x = "init" }
      declareMethods env more (declared.insert x closure)

/-- The superclass that a class declaration names. -/
def findSuperclass (store : Store) (env : FrameId) :
    Option (Mark × Address) → Except (Mark × Fault) (Option ClassId)
  | none => .ok none
  | some (mark, ref) =>
    match store.read env ref mark.lexeme with
    | none => .error (mark, .undefinedVariable mark.lexeme)
    | some (.classRef c) => .ok (some c)
    | some _ => .error (mark, .superclassNotClass)

/-- The frame in which methods are created: with a superclass, a new one that binds `super`. -/
def methodFrame (store : Store) (env : FrameId) : Option ClassId → FrameId × Store
  | none => (env, store)
  | some c =>
    store.newFrameWith (some env) [("super", .classRef c)]

/-- Declares a class. -/
def declareClass (name : Mark) (superclass : Option (Mark × Address))
    (methods : List (Method Address)) (env : FrameId) (rest : List Resume) (w : World) : State :=
  match findSuperclass w.store env superclass with
  | .error (mark, fault) => failAt mark fault rest w
  | .ok superclass =>
    let (inner, w) := (w.define env name.lexeme .nil).onStore (methodFrame · env superclass)
    match declareMethods inner methods ∅ with
    | .error mark => failAt mark .duplicateMethod rest w
    | .ok methods =>
      let (c, w) := w.onStore (·.newClass name.lexeme superclass methods)
      flow .normal rest (w.define env name.lexeme (.classRef c))

/-- Starts a module that has been found, in globals of its own. -/
def enterModule (host : Host) (path : Token) (name file source : Text) (env : FrameId)
    (rest : List Resume) (w : World) : State :=
  let w := w.log "loading module" [("module", Import.path path), ("alias", name), ("path", file)]
  if w.isFull host then fail (.overflow path.mark) rest w
  else
    match Program.ofSource source with
    | .error rejection =>
      failAt path.mark (.importFailed (Import.path path) (.rejected rejection)) rest
        (w.emit (.rejected rejection.faults))
    | .ok program =>
      let (globals, w) := w.enter.onStore Store.newGlobals
      let i : Importing :=
        { path := Import.path path, loaded := ⟨name, file, globals⟩, env, echo := w.echo }
      flow .normal (.program program globals :: .importing i :: rest) { w with echo := false }

/-- Imports a module. -/
def importModule (host : Host) (path : Token) (asName : Option Mark) (env : FrameId)
    (rest : List Resume) (w : World) : State :=
  let failed (why : ImportFault) (w : World) : State :=
    failAt path.mark (.importFailed (Import.path path) why) rest w
  match host.modules with
  | none => failed .unavailable w
  | some locate =>
    match locate (Import.path path) with
    | .missing reason =>
      failed (.missing reason)
        (w.log "module lookup failed" [("error", reason), ("module", Import.path path)])
    | .unreadable reason => failed (.unreadable reason) w
    | .found file source =>
      enterModule host path (Import.name path asName) file source env rest w

/-- Binds the module whose statements have run. -/
def bindModule (i : Importing) (rest : List Resume) (w : World) : State :=
  let bindings := (w.store.names i.loaded.globals).length
  let w := w.leave.log "module loaded"
    [("module", i.path), ("alias", i.loaded.name), ("path", i.loaded.file),
      ("bindings", Text.ofNat bindings)]
  flow .normal rest { w.define i.env i.loaded.name (.moduleRef i.loaded) with echo := i.echo }

/-! ### The steps -/

/-- Evaluates an expression, or its first part. -/
def evalStep (e : Expr Address) (env : FrameId) (demand : Demand) (rest : List Resume) (w : World) :
    State :=
  match e with
  | .literal l => value (.ofLiteral l) demand rest w
  | .group inner => eval inner env demand rest w
  | .unary op mark operand => eval operand env (demand.push (.unary op mark)) rest w
  | .binary op mark left right => eval left env (demand.push (.left op mark right env)) rest w
  | .logical op _ left right => eval left env (demand.push (.logical op right env)) rest w
  | .conditional c yes no => eval c env (demand.push (.conditional yes no env)) rest w
  | .name mark ref => readName mark ref env demand rest w
  | .assign mark ref v => eval v env (demand.push (.assign mark ref env)) rest w
  | .get object property => eval object env (demand.push (.get property)) rest w
  | .set object property v => eval object env (demand.push (.setObject property v env)) rest w
  | .call callee paren arguments => eval callee env (demand.push (.callee paren arguments env)) rest w
  | .function _ fn =>
    value (.function { name := [], kind := .function, fn, frame := env }) demand rest w
  | .receiver keyword ref => readName keyword ref env demand rest w
  | .inherited keyword method ref => getInherited keyword method ref env demand rest w

/-- Hands a value to the part of an expression that waits for it. -/
def pendingStep (host : Host) (v : Value) (p : Pending) (demand : Demand) (rest : List Resume)
    (w : World) : State :=
  match p with
  | .unary op mark => outcome mark (op.apply v) demand rest w
  | .left op mark right env => eval right env (demand.push (.right op mark v)) rest w
  | .right op mark left => outcome mark (op.apply w.store left v) demand rest w
  | .logical op right env =>
    if op.decides v then value v demand rest w else eval right env demand rest w
  | .conditional yes no env => eval (if v.isTruthy then yes else no) env demand rest w
  | .assign mark ref env => assignName mark ref env v demand rest w
  | .get property => getProperty v property demand rest w
  | .setObject property e env =>
    if hasFields v then eval e env (demand.push (.setValue v property)) rest w
    else failAt property .noFields rest w
  | .setValue object property => setField object property v demand rest w
  | .callee paren arguments env => nextArgument host v paren [] arguments env demand rest w
  | .argument callee paren done more env =>
    nextArgument host callee paren (v :: done) more env demand rest w

/-- Hands a value to the statement that waits for it. -/
def useStep (v : Value) (use : Use) (rest : List Resume) (w : World) : State :=
  match use with
  | .echo => flow .normal rest (if w.echo then w.print v else w)
  | .print => flow .normal rest (w.print v)
  | .define x env => flow .normal rest (w.define env x v)
  | .branch yes no env =>
    if v.isTruthy then exec yes env rest w
    else
      match no with
      | some s => exec s env rest w
      | none => flow .normal rest w
  | .test condition body env =>
    if v.isTruthy then exec body env (.loop condition body env :: rest) w
    else flow .normal rest w
  | .ret => flow (.returned v) rest w

/-- Hands a value to what demands it. -/
def valueStep (host : Host) (v : Value) (demand : Demand) (rest : List Resume) (w : World) : State :=
  match demand with
  | ⟨[], use⟩ => useStep v use rest w
  | ⟨p :: pending, use⟩ => pendingStep host v p ⟨pending, use⟩ rest w

/-- Executes a statement, or evaluates its expression. -/
def execStep (host : Host) (s : Stmt Address) (env : FrameId) (rest : List Resume) (w : World) :
    State :=
  match s with
  | .expression e => eval e env ⟨[], .echo⟩ rest w
  | .print e => eval e env ⟨[], .print⟩ rest w
  | .varDecl name initial =>
    if w.store.binds env name.lexeme then failAt name (.alreadyDefined name.lexeme) rest w
    else
      match initial with
      | some e => eval e env ⟨[], .define name.lexeme env⟩ rest w
      | none => flow .normal rest (w.define env name.lexeme .nil)
  | .block body =>
    let (inner, w) := w.onStore (·.newFrame (some env))
    flow .normal (.block body inner :: rest) w
  | .branch c yes no => eval c env ⟨[], .branch yes no env⟩ rest w
  | .loop c body => eval c env ⟨[], .test c body env⟩ rest w
  | .ret _ (some e) => eval e env ⟨[], .ret⟩ rest w
  | .ret _ none => flow (.returned .nil) rest w
  | .brk _ => flow .broke rest w
  | .funDecl name fn =>
    flow .normal rest
      (w.define env name.lexeme
        (.function { name := name.lexeme, kind := .function, fn, frame := env }))
  | .classDecl name superclass methods => declareClass name superclass methods env rest w
  | .importDecl path asName => importModule host path asName env rest w

/-- The result of a call whose body has finished: an initializer returns its receiver. -/
def callResult (closure : Closure) (f : Flow) (store : Store) : Value :=
  if closure.initializer then (store.lookup closure.frame "this").getD .nil
  else
    match f with
    | .returned v => v
    | _ => .nil

/-- Goes on after a statement has finished. -/
def flowStep (f : Flow) (r : Resume) (rest : List Resume) (w : World) : State :=
  match r, f with
  | .block (s :: more) env, .normal => exec s env (.block more env :: rest) w
  | .block _ _, f => flow f rest w
  | .loop condition body env, .normal => eval condition env ⟨[], .test condition body env⟩ rest w
  | .loop _ _ _, .broke => flow .normal rest w
  | .loop _ _ _, .returned v => flow (.returned v) rest w
  | .program (s :: more) env, _ => exec s env (.program more env :: rest) w
  | .program [] _, _ => flow .normal rest w
  | .call closure demand, f => value (callResult closure f w.store) demand rest w.leave
  | .importing i, _ => bindModule i rest w

/-- Ends what a failure interrupts. -/
def failStep (f : Failure) (r : Resume) (rest : List Resume) (w : World) : State :=
  match r with
  | .call _ _ => fail f rest w.leave
  | .importing i => fail f rest { w.leave with echo := i.echo }
  | _ => fail f rest w

/-- One step of a run; a run that has ended stays as it is. -/
def step (host : Host) : State → State
  | eval e env demand rest w => evalStep e env demand rest w
  | value v demand rest w => valueStep host v demand rest w
  | exec s env rest w => execStep host s env rest w
  | flow f (r :: rest) w => flowStep f r rest w
  | fail f (r :: rest) w => failStep f r rest w
  | flow f [] w => flow f [] w
  | fail f [] w => fail f [] w

end State

end Lox
