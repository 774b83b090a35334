import Lox.Tree.Basic

/-!
# References

The references to names in a tree, in source order.
-/

namespace Lox

/-- How a name is mentioned. -/
inductive ReferenceKind where
  | read
  | assignment
  | receiver
  | inherited
  deriving DecidableEq, Repr

/-- One mention of a name. -/
structure Reference (ρ : Type) where
  kind : ReferenceKind
  mark : Mark
  ref : ρ

variable {ρ : Type}

mutual

/-- The references in an expression. -/
def Expr.references : Expr ρ → List (Reference ρ)
  | .literal _ => []
  | .group inner => inner.references
  | .unary _ _ operand => operand.references
  | .binary _ _ left right => left.references ++ right.references
  | .logical _ _ left right => left.references ++ right.references
  | .conditional condition yes no => condition.references ++ yes.references ++ no.references
  | .name mark ref => [⟨.read, mark, ref⟩]
  | .assign mark ref value => ⟨.assignment, mark, ref⟩ :: value.references
  | .get object _ => object.references
  | .set object _ value => object.references ++ value.references
  | .call callee _ arguments => callee.references ++ Expr.referencesAll arguments
  | .function _ fn => fn.references
  | .receiver keyword ref => [⟨.receiver, keyword, ref⟩]
  | .inherited keyword _ ref => [⟨.inherited, keyword, ref⟩]

/-- The references in several expressions. -/
def Expr.referencesAll : List (Expr ρ) → List (Reference ρ)
  | [] => []
  | e :: es => e.references ++ Expr.referencesAll es

/-- The references in a function. -/
def Function.references : Function ρ → List (Reference ρ)
  | .mk _ body => Stmt.referencesAll body

/-- The references in the methods of a class. -/
def Method.referencesAll : List (Method ρ) → List (Reference ρ)
  | [] => []
  | .mk _ _ fn :: methods => fn.references ++ Method.referencesAll methods

/-- The references in a statement. -/
def Stmt.references : Stmt ρ → List (Reference ρ)
  | .expression e => e.references
  | .print e => e.references
  | .varDecl _ none => []
  | .varDecl _ (some e) => e.references
  | .block body => Stmt.referencesAll body
  | .branch condition yes none => condition.references ++ yes.references
  | .branch condition yes (some no) => condition.references ++ yes.references ++ no.references
  | .loop condition body => condition.references ++ body.references
  | .ret _ none => []
  | .ret _ (some e) => e.references
  | .brk _ => []
  | .funDecl _ fn => fn.references
  | .classDecl _ none methods => Method.referencesAll methods
  | .classDecl _ (some (super, ref)) methods =>
    ⟨.read, super, ref⟩ :: Method.referencesAll methods
  | .importDecl _ _ => []

/-- The references in several statements. -/
def Stmt.referencesAll : List (Stmt ρ) → List (Reference ρ)
  | [] => []
  | s :: ss => s.references ++ Stmt.referencesAll ss

end

/-- The references in a program. -/
def Program.references (program : Program ρ) : List (Reference ρ) := Stmt.referencesAll program

/-- How many references of a resolved program have a local address. -/
def Program.addressed (program : Program Address) : Nat :=
  program.references.countP (·.ref.isSome)

end Lox
