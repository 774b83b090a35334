import Lox.Diagnostic
import Lox.Table
import Lox.Tree.Import

/-!
# Scopes

Resolution decides for every reference how many frames outward its name lives. Blocks, function
bodies with their parameters, methods (for `this`) and subclasses (for `super`) each open a scope;
top-level names are globals and are not tracked. Along the way misplaced jumps, receivers and
declarations are reported; no report stops the walk or changes an address.

## Design notes

Only statements change scopes, and only the innermost one; so a statement returns the scopes that
the statements after it see, while an expression returns none.
-/

namespace Lox

/-- The names declared so far in one scope. A name is not ready while its own initializer is being
resolved. -/
abbrev Scope := Table Bool

/-- The open local scopes, innermost first. -/
abbrev Scopes := List Scope

/-- What kind of function body a statement stands in. -/
inductive FunctionContext where
  | none
  | function
  | method
  | staticMethod
  | initializer
  deriving DecidableEq, Repr

/-- What kind of class a function stands in. -/
inductive ClassContext where
  | none
  | plain
  | derived
  deriving DecidableEq, Repr

/-- What surrounds a statement or expression. -/
structure Surroundings where
  inFunction : FunctionContext := .none
  inClass : ClassContext := .none
  inLoop : Bool := false
  deriving DecidableEq, Repr

namespace Scopes

/-- How many scopes outward the nearest declaration of a name is. -/
def address (scopes : Scopes) (x : Text) : Address := scopes.findIdx? (·.contains x)

/-- Enters a name into the innermost scope; at top level there is none. -/
def enter (scopes : Scopes) (x : Text) (ready : Bool) : Scopes :=
  match scopes with
  | [] => []
  | scope :: outer => scope.insert x ready :: outer

/-- A report if the innermost scope already has the name. -/
def redeclared (scopes : Scopes) (m : Mark) : List Diagnostic :=
  match scopes with
  | scope :: _ =>
    if scope.contains m.lexeme then [.atMark m (.scope .duplicateName)] else []
  | [] => []

/-- A report if the name is being initialized in the innermost scope. -/
def unready (scopes : Scopes) (m : Mark) : List Diagnostic :=
  match scopes with
  | scope :: _ =>
    if scope.find? m.lexeme = some false then [.atMark m (.scope .ownInitializer)] else []
  | [] => []

/-- Enters parameters one after the other. -/
def enterParams (scopes : Scopes) : List Mark → Scopes × List Diagnostic
  | [] => (scopes, [])
  | p :: ps =>
    let (after, faults) := enterParams (scopes.enter p.lexeme true) ps
    (after, scopes.redeclared p ++ faults)

end Scopes

/-- The context of a method's body. -/
def FunctionContext.ofMethod (static : Bool) (name : Text) : FunctionContext :=
  if static then .staticMethod else if name = "init" then .initializer else .method

/-- What is wrong with a `this` in the given surroundings. -/
def Surroundings.receiverProblem? (s : Surroundings) : Option ScopeProblem :=
  match s.inClass with
  | .none => some .thisOutsideClass
  | _ => none

/-- What is wrong with a `super` in the given surroundings. -/
def Surroundings.inheritedProblem? (s : Surroundings) : Option ScopeProblem :=
  match s.inClass with
  | .none => some .superOutsideClass
  | .plain => some .superWithoutSuperclass
  | .derived => none

/-- The address of a keyword's name, or a report instead. -/
def Scopes.keyword (scopes : Scopes) (problem? : Option ScopeProblem) (keyword : Mark) (x : Text) :
    Address × List Diagnostic :=
  match problem? with
  | some problem => (none, [.atMark keyword (.scope problem)])
  | none => (scopes.address x, [])

/-- What is wrong with a `return`. -/
def Surroundings.returnFaults (s : Surroundings) (keyword : Mark) (hasValue : Bool) :
    List Diagnostic :=
  match s.inFunction with
  | .none => [.atMark keyword (.scope .returnAtTopLevel)]
  | .initializer =>
    if hasValue then [.atMark keyword (.scope .returnFromInitializer)] else []
  | _ => []

mutual

/-- An expression with its references addressed, and what is wrong with it. -/
def Expr.resolve (s : Surroundings) (scopes : Scopes) : Expr Unit → Expr Address × List Diagnostic
  | .literal value => (.literal value, [])
  | .group inner =>
    let (inner, faults) := inner.resolve s scopes
    (.group inner, faults)
  | .unary op mark operand =>
    let (operand, faults) := operand.resolve s scopes
    (.unary op mark operand, faults)
  | .binary op mark left right =>
    let (left, faults₁) := left.resolve s scopes
    let (right, faults₂) := right.resolve s scopes
    (.binary op mark left right, faults₁ ++ faults₂)
  | .logical op mark left right =>
    let (left, faults₁) := left.resolve s scopes
    let (right, faults₂) := right.resolve s scopes
    (.logical op mark left right, faults₁ ++ faults₂)
  | .conditional condition yes no =>
    let (condition, faults₁) := condition.resolve s scopes
    let (yes, faults₂) := yes.resolve s scopes
    let (no, faults₃) := no.resolve s scopes
    (.conditional condition yes no, faults₁ ++ faults₂ ++ faults₃)
  | .name mark _ => (.name mark (scopes.address mark.lexeme), scopes.unready mark)
  | .assign mark _ value =>
    let (value, faults) := value.resolve s scopes
    (.assign mark (scopes.address mark.lexeme) value, faults)
  | .get object property =>
    let (object, faults) := object.resolve s scopes
    (.get object property, faults)
  | .set object property value =>
    let (value, faults₁) := value.resolve s scopes
    let (object, faults₂) := object.resolve s scopes
    (.set object property value, faults₁ ++ faults₂)
  | .call callee paren arguments =>
    let (callee, faults₁) := callee.resolve s scopes
    let (arguments, faults₂) := Expr.resolveAll s scopes arguments
    (.call callee paren arguments, faults₁ ++ faults₂)
  | .function keyword fn =>
    let (fn, faults) := fn.resolve { s with inFunction := .function } scopes
    (.function keyword fn, faults)
  | .receiver keyword _ =>
    let (ref, faults) := scopes.keyword s.receiverProblem? keyword "this"
    (.receiver keyword ref, faults)
  | .inherited keyword method _ =>
    let (ref, faults) := scopes.keyword s.inheritedProblem? keyword "super"
    (.inherited keyword method ref, faults)

/-- Expressions from left to right. -/
def Expr.resolveAll (s : Surroundings) (scopes : Scopes) :
    List (Expr Unit) → List (Expr Address) × List Diagnostic
  | [] => ([], [])
  | e :: es =>
    let (e, faults₁) := e.resolve s scopes
    let (es, faults₂) := Expr.resolveAll s scopes es
    (e :: es, faults₁ ++ faults₂)

/-- A function: its parameters and its body share a new scope, and loops around it end at it. -/
def Function.resolve (s : Surroundings) (scopes : Scopes) :
    Function Unit → Function Address × List Diagnostic
  | .mk params body =>
    let (inner, faults₁) := Scopes.enterParams (∅ :: scopes) params
    let (body, _, faults₂) := Stmt.resolveAll { s with inLoop := false } inner body
    (.mk params body, faults₁ ++ faults₂)

/-- The methods of a class, given the names of those before them. Each one sees its receiver in a
scope of its own. -/
def Method.resolveAll (s : Surroundings) (scopes : Scopes) (seen : List Text) :
    List (Method Unit) → List (Method Address) × List Diagnostic
  | [] => ([], [])
  | .mk static name fn :: methods =>
    let repeated : List Diagnostic :=
      if name.lexeme ∈ seen then [.atMark name (.scope .duplicateMethod)] else []
    let (fn, faults₁) :=
      fn.resolve { s with inFunction := .ofMethod static name.lexeme }
        (Table.single "this" true :: scopes)
    let (methods, faults₂) := Method.resolveAll s scopes (name.lexeme :: seen) methods
    (.mk static name fn :: methods, repeated ++ faults₁ ++ faults₂)

/-- A statement with its references addressed, the scopes after it, and what is wrong with it. -/
def Stmt.resolve (s : Surroundings) (scopes : Scopes) :
    Stmt Unit → Stmt Address × Scopes × List Diagnostic
  | .expression e =>
    let (e, faults) := e.resolve s scopes
    (.expression e, scopes, faults)
  | .print e =>
    let (e, faults) := e.resolve s scopes
    (.print e, scopes, faults)
  | .varDecl name none =>
    (.varDecl name none, scopes.enter name.lexeme true, scopes.redeclared name)
  | .varDecl name (some initial) =>
    let inside := scopes.enter name.lexeme false
    let (initial, faults) := initial.resolve s inside
    (.varDecl name (some initial), inside.enter name.lexeme true, scopes.redeclared name ++ faults)
  | .block body =>
    let (body, _, faults) := Stmt.resolveAll s (∅ :: scopes) body
    (.block body, scopes, faults)
  | .branch condition yes none =>
    let (condition, faults₁) := condition.resolve s scopes
    let (yes, scopes, faults₂) := yes.resolve s scopes
    (.branch condition yes none, scopes, faults₁ ++ faults₂)
  | .branch condition yes (some no) =>
    let (condition, faults₁) := condition.resolve s scopes
    let (yes, scopes, faults₂) := yes.resolve s scopes
    let (no, scopes, faults₃) := no.resolve s scopes
    (.branch condition yes (some no), scopes, faults₁ ++ faults₂ ++ faults₃)
  | .loop condition body =>
    let (condition, faults₁) := condition.resolve s scopes
    let (body, scopes, faults₂) := body.resolve { s with inLoop := true } scopes
    (.loop condition body, scopes, faults₁ ++ faults₂)
  | .ret keyword none => (.ret keyword none, scopes, s.returnFaults keyword false)
  | .ret keyword (some value) =>
    let (value, faults) := value.resolve s scopes
    (.ret keyword (some value), scopes, s.returnFaults keyword true ++ faults)
  | .brk keyword =>
    (.brk keyword, scopes,
      if s.inLoop then [] else [.atMark keyword (.scope .breakOutsideLoop)])
  | .funDecl name fn =>
    let after := scopes.enter name.lexeme true
    let (fn, faults) := fn.resolve { s with inFunction := .function } after
    (.funDecl name fn, after, scopes.redeclared name ++ faults)
  | .classDecl name none methods =>
    let after := scopes.enter name.lexeme true
    let (methods, faults) := Method.resolveAll { s with inClass := .plain } after [] methods
    (.classDecl name none methods, after, scopes.redeclared name ++ faults)
  | .classDecl name (some (super, _)) methods =>
    let after := scopes.enter name.lexeme true
    let own : List Diagnostic :=
      if super.lexeme = name.lexeme then [.atMark super (.scope .selfInheritance)] else []
    let (methods, faults) :=
      Method.resolveAll { s with inClass := .derived } (Table.single "super" true :: after) []
        methods
    (.classDecl name (some (super, after.address super.lexeme)) methods, after,
      scopes.redeclared name ++ own ++ after.unready super ++ faults)
  | .importDecl path asName =>
    let name := Import.binding path asName
    (.importDecl path asName, scopes.enter name.lexeme true, scopes.redeclared name)

/-- Statements one after the other, each seeing the declarations before it. -/
def Stmt.resolveAll (s : Surroundings) (scopes : Scopes) :
    List (Stmt Unit) → List (Stmt Address) × Scopes × List Diagnostic
  | [] => ([], scopes, [])
  | stmt :: stmts =>
    let (stmt, scopes, faults₁) := stmt.resolve s scopes
    let (stmts, scopes, faults₂) := Stmt.resolveAll s scopes stmts
    (stmt :: stmts, scopes, faults₁ ++ faults₂)

end

/-- A program with every reference addressed, and what is wrong with it. -/
structure Resolved where
  program : Program Address
  faults : List Diagnostic

/-- Resolves a program from the top level. -/
def Resolved.ofProgram (program : Program Unit) : Resolved :=
  let (program, _, faults) := Stmt.resolveAll {} [] program
  ⟨program, faults⟩

end Lox
