import Lox.Scope
import Lox.Tree.Reference

/-!
# Places in a tree

A place in a program is given by the constructs around it, innermost first: blocks, loops,
functions, methods, classes and declarations, and the statements that come before it. Everything
that the rules about names and jumps speak of can be told from this alone: which names the local
scopes around a place declare before it, the nearest function, the nearest class, and the loops
between them.

## Design notes

A place looks back to what comes before it in the text, not to what a walk through the tree has come
to: the names of a scope are read off the parameters and the earlier statements of its own body.
-/

namespace Lox

/-! ### Declarations -/

/-- The names that a statement declares in the scope it stands in, in source order. -/
def Stmt.declared {ρ : Type} : Stmt ρ → List Mark
  | .varDecl name _ => [name]
  | .funDecl name _ => [name]
  | .classDecl name _ _ => [name]
  | .importDecl path asName => [Import.binding path asName]
  | .branch _ yes none => yes.declared
  | .branch _ yes (some no) => yes.declared ++ no.declared
  | .loop _ body => body.declared
  | .expression _ => []
  | .print _ => []
  | .block _ => []
  | .ret _ _ => []
  | .brk _ => []

/-! ### Places -/

/-- A construct around a place. -/
inductive Enclosure where
  /-- Statements one after the other, by those before the place. -/
  | following (before : List (Stmt Unit))
  /-- The initializer of a variable. -/
  | initializing (name : Mark)
  /-- The rest of a declaration, after the name. -/
  | declaring (name : Mark)
  | block
  | loop
  | function (params : List Mark)
  | method (static : Bool) (name : Mark) (params : List Mark)
  /-- The methods of a class, with a superclass or without. -/
  | classBody (derived : Bool)

namespace Enclosure

/-- Whether a construct is a function or a method. -/
def isFunction : Enclosure → Bool
  | function _ => true
  | method _ _ _ => true
  | _ => false

/-- Whether a construct is a class. -/
def isClass : Enclosure → Bool
  | classBody _ => true
  | _ => false

/-- Whether a construct is a loop. -/
def isLoop : Enclosure → Bool
  | loop => true
  | _ => false

/-- The names that the local scopes around a place declare before it, innermost scope first: blocks,
functions with their parameters, the receivers of methods and the superclasses of classes. -/
def scopes : List Enclosure → List (List Text)
  | [] => []
  | following before :: around =>
    (scopes around).modifyHead (· ++ (before.flatMap Stmt.declared).map Mark.lexeme)
  | initializing name :: around => (scopes around).modifyHead (· ++ [name.lexeme])
  | declaring name :: around => (scopes around).modifyHead (· ++ [name.lexeme])
  | block :: around => [] :: scopes around
  | loop :: around => scopes around
  | function params :: around => params.map Mark.lexeme :: scopes around
  | method _ _ params :: around => params.map Mark.lexeme :: ["this"] :: scopes around
  | classBody true :: around => ["super"] :: scopes around
  | classBody false :: around => scopes around

/-- The local variable in whose initializer a place is, with no function between them. -/
def initialized? : List Enclosure → Option Text
  | initializing name :: around => if scopes around = [] then none else some name.lexeme
  | _ => none

end Enclosure

/-- What the rules about names and jumps are about. -/
inductive Subject where
  /-- A variable, parameter, function, class or import is declared. -/
  | declaration (name : Mark)
  /-- A method is declared, after methods of the same class. -/
  | method (before : List (Method Unit)) (name : Mark)
  /-- A class names its superclass. -/
  | superclass (name super : Mark)
  | read (name : Mark)
  | assignment (name : Mark)
  | receiver (keyword : Mark)
  | inherited (keyword : Mark)
  | ret (keyword : Mark) (hasValue : Bool)
  | brk (keyword : Mark)

namespace Subject

/-- The name or keyword at which a subject is reported. -/
def mark : Subject → Mark
  | declaration name => name
  | method _ name => name
  | superclass _ super => super
  | read name => name
  | assignment name => name
  | receiver keyword => keyword
  | inherited keyword => keyword
  | ret keyword _ => keyword
  | brk keyword => keyword

/-- How a subject refers to a name, if it does, and the name. -/
def reference? : Subject → Option (ReferenceKind × Text)
  | superclass _ super => some (.read, super.lexeme)
  | read name => some (.read, name.lexeme)
  | assignment name => some (.assignment, name.lexeme)
  | receiver _ => some (.receiver, "this")
  | inherited _ => some (.inherited, "super")
  | _ => none

end Subject

/-- A subject at its place. -/
structure Occurrence where
  around : List Enclosure
  subject : Subject

/-! ### Programs -/

/-- The declarations of parameters, each after those before it, in a function of some form. -/
def Mark.occurrences (form : List Mark → Enclosure) (around : List Enclosure)
    (before : List Mark) : List Mark → List Occurrence
  | [] => []
  | p :: ps =>
    ⟨form before :: around, .declaration p⟩ :: Mark.occurrences form around (before ++ [p]) ps

mutual

/-- The occurrences in an expression. -/
def Expr.occurrences (around : List Enclosure) : Expr Unit → List Occurrence
  | .literal _ => []
  | .group inner => inner.occurrences around
  | .unary _ _ operand => operand.occurrences around
  | .binary _ _ left right => left.occurrences around ++ right.occurrences around
  | .logical _ _ left right => left.occurrences around ++ right.occurrences around
  | .conditional condition yes no =>
    condition.occurrences around ++ yes.occurrences around ++ no.occurrences around
  | .name mark _ => [⟨around, .read mark⟩]
  | .assign mark _ value => ⟨around, .assignment mark⟩ :: value.occurrences around
  | .get object _ => object.occurrences around
  | .set object _ value => object.occurrences around ++ value.occurrences around
  | .call callee _ arguments => callee.occurrences around ++ Expr.occurrencesAll around arguments
  | .function _ fn => fn.occurrences .function around
  | .receiver keyword _ => [⟨around, .receiver keyword⟩]
  | .inherited keyword _ _ => [⟨around, .inherited keyword⟩]

/-- The occurrences in several expressions. -/
def Expr.occurrencesAll (around : List Enclosure) : List (Expr Unit) → List Occurrence
  | [] => []
  | e :: es => e.occurrences around ++ Expr.occurrencesAll around es

/-- The occurrences in a function of some form. -/
def Function.occurrences (form : List Mark → Enclosure) (around : List Enclosure) :
    Function Unit → List Occurrence
  | .mk params body =>
    Mark.occurrences form around [] params ++ Stmt.occurrencesAll (form params :: around) [] body

/-- The occurrences in the methods of a class, given those before them. -/
def Method.occurrencesAll (around : List Enclosure) (before : List (Method Unit)) :
    List (Method Unit) → List Occurrence
  | [] => []
  | .mk static name fn :: methods =>
    ⟨around, .method before name⟩ :: fn.occurrences (.method static name) around ++
      Method.occurrencesAll around (before ++ [.mk static name fn]) methods

/-- The occurrences in a statement. -/
def Stmt.occurrences (around : List Enclosure) : Stmt Unit → List Occurrence
  | .expression e => e.occurrences around
  | .print e => e.occurrences around
  | .varDecl name none => [⟨around, .declaration name⟩]
  | .varDecl name (some initial) =>
    ⟨around, .declaration name⟩ :: initial.occurrences (.initializing name :: around)
  | .block body => Stmt.occurrencesAll (.block :: around) [] body
  | .branch condition yes none => condition.occurrences around ++ yes.occurrences around
  | .branch condition yes (some no) =>
    condition.occurrences around ++ yes.occurrences around ++
      no.occurrences (.following [yes] :: around)
  | .loop condition body => condition.occurrences around ++ body.occurrences (.loop :: around)
  | .ret keyword none => [⟨around, .ret keyword false⟩]
  | .ret keyword (some value) => ⟨around, .ret keyword true⟩ :: value.occurrences around
  | .brk keyword => [⟨around, .brk keyword⟩]
  | .funDecl name fn =>
    ⟨around, .declaration name⟩ :: fn.occurrences .function (.declaring name :: around)
  | .classDecl name none methods =>
    ⟨around, .declaration name⟩ ::
      Method.occurrencesAll (.classBody false :: .declaring name :: around) [] methods
  | .classDecl name (some (super, _)) methods =>
    ⟨around, .declaration name⟩ :: ⟨.declaring name :: around, .superclass name super⟩ ::
      Method.occurrencesAll (.classBody true :: .declaring name :: around) [] methods
  | .importDecl path asName => [⟨around, .declaration (Import.binding path asName)⟩]

/-- The occurrences in statements, given those before them in the same list. -/
def Stmt.occurrencesAll (around : List Enclosure) (before : List (Stmt Unit)) :
    List (Stmt Unit) → List Occurrence
  | [] => []
  | s :: ss =>
    s.occurrences (.following before :: around) ++ Stmt.occurrencesAll around (before ++ [s]) ss

end

/-- All that the rules are about in a program, in source order. -/
def Program.occurrences (program : Program Unit) : List Occurrence :=
  Stmt.occurrencesAll [] [] program

/-! ### The rules -/

namespace Occurrence

/-- The names that the local scopes around an occurrence declare before it. -/
def scopes (o : Occurrence) : List (List Text) := Enclosure.scopes o.around

/-- The rule that an occurrence breaks. -/
def problem? (o : Occurrence) : Option ScopeProblem :=
  match o.subject with
  | .declaration name =>
    if ∃ names ∈ o.scopes.head?, name.lexeme ∈ names then some .duplicateName else none
  | .method before name =>
    if name.lexeme ∈ before.map (·.name.lexeme) then some .duplicateMethod else none
  | .superclass name super =>
    if super.lexeme = name.lexeme then some .selfInheritance else none
  | .read name =>
    if Enclosure.initialized? o.around = some name.lexeme then some .ownInitializer else none
  | .assignment _ => none
  | .receiver _ => if o.around.any Enclosure.isClass then none else some .thisOutsideClass
  | .inherited _ =>
    match o.around.find? Enclosure.isClass with
    | none => some .superOutsideClass
    | some (.classBody false) => some .superWithoutSuperclass
    | some _ => none
  | .ret _ hasValue =>
    match o.around.find? Enclosure.isFunction with
    | none => some .returnAtTopLevel
    | some (.method false name _) =>
      if hasValue ∧ name.lexeme = "init" then some .returnFromInitializer else none
    | some _ => none
  | .brk _ =>
    if (o.around.takeWhile (!·.isFunction)).any Enclosure.isLoop then none
    else some .breakOutsideLoop

/-- The report of the rule that an occurrence breaks. -/
def diagnostic? (o : Occurrence) : Option Diagnostic :=
  o.problem?.map fun problem => .atMark o.subject.mark (.scope problem)

/-- A receiver or a `super` that is out of place. -/
def isMisplaced (o : Occurrence) : Bool :=
  match o.subject with
  | .receiver _ => o.problem?.isSome
  | .inherited _ => o.problem?.isSome
  | _ => false

/-- How many scopes outward the nearest one is that declares a name before the occurrence. -/
def address (o : Occurrence) (x : Text) : Address := o.scopes.findIdx? (x ∈ ·)

/-- The reference that an occurrence is, with its address. -/
def reference? (o : Occurrence) : Option (Reference Address) :=
  o.subject.reference?.map fun (kind, x) =>
    ⟨kind, o.subject.mark, if o.isMisplaced then none else o.address x⟩

end Occurrence

end Lox
