import Lox.Token

/-!
# Syntax trees

Expressions and statements. A tree is generic in the type `ρ` of the annotation that every
reference to a name carries: nothing after parsing, an address once scopes have been resolved.

## Design notes

`for` loops have no node of their own: they are read as the loop they abbreviate. Names, operators
and the parenthesis that closes an argument list keep their `Mark`, because run-time errors point
at them.
-/

namespace Lox

/-- Operators on one operand. -/
inductive UnaryOp where
  | not
  | negate
  deriving DecidableEq, Repr

/-- Operators that evaluate both operands. -/
inductive BinaryOp where
  | sequence
  | equal | notEqual
  | greater | greaterEqual | less | lessEqual
  | plus | minus
  | times | divide | modulo
  deriving DecidableEq, Repr

/-- Operators that may skip their right operand. -/
inductive LogicalOp where
  | and
  | or
  deriving DecidableEq, Repr

mutual

/-- An expression. -/
inductive Expr (ρ : Type) where
  | literal (value : Literal)
  | group (inner : Expr ρ)
  | unary (op : UnaryOp) (mark : Mark) (operand : Expr ρ)
  | binary (op : BinaryOp) (mark : Mark) (left right : Expr ρ)
  | logical (op : LogicalOp) (mark : Mark) (left right : Expr ρ)
  | conditional (condition yes no : Expr ρ)
  | name (mark : Mark) (ref : ρ)
  | assign (mark : Mark) (ref : ρ) (value : Expr ρ)
  | get (object : Expr ρ) (property : Mark)
  | set (object : Expr ρ) (property : Mark) (value : Expr ρ)
  | call (callee : Expr ρ) (paren : Mark) (arguments : List (Expr ρ))
  | function (keyword : Mark) (fn : Function ρ)
  | receiver (keyword : Mark) (ref : ρ)
  | inherited (keyword method : Mark) (ref : ρ)

/-- The parameters and the body of a function. -/
inductive Function (ρ : Type) where
  | mk (params : List Mark) (body : List (Stmt ρ))

/-- A method of a class; a static one belongs to the class itself. -/
inductive Method (ρ : Type) where
  | mk (static : Bool) (name : Mark) (fn : Function ρ)

/-- A statement or declaration. -/
inductive Stmt (ρ : Type) where
  | expression (e : Expr ρ)
  | print (e : Expr ρ)
  | varDecl (name : Mark) (initial : Option (Expr ρ))
  | block (body : List (Stmt ρ))
  | branch (condition : Expr ρ) (yes : Stmt ρ) (no : Option (Stmt ρ))
  | loop (condition : Expr ρ) (body : Stmt ρ)
  | ret (keyword : Mark) (value : Option (Expr ρ))
  | brk (keyword : Mark)
  | funDecl (name : Mark) (fn : Function ρ)
  | classDecl (name : Mark) (superclass : Option (Mark × ρ)) (methods : List (Method ρ))
  | importDecl (path : Token) (asName : Option Mark)

end

namespace Function

variable {ρ : Type}

/-- The parameters of a function. -/
def params : Function ρ → List Mark
  | mk params _ => params

/-- The body of a function. -/
def body : Function ρ → List (Stmt ρ)
  | mk _ body => body

/-- How many arguments a function takes. -/
def arity (fn : Function ρ) : Nat := fn.params.length

end Function

namespace Method

variable {ρ : Type}

/-- Whether a method belongs to the class itself. -/
def static : Method ρ → Bool
  | mk static _ _ => static

/-- The name of a method. -/
def name : Method ρ → Mark
  | mk _ name _ => name

/-- The parameters and the body of a method. -/
def fn : Method ρ → Function ρ
  | mk _ _ fn => fn

end Method

/-- The statements of a source, in order. -/
abbrev Program (ρ : Type) := List (Stmt ρ)

/-- Where a reference finds its name: so many frames outward, or among the globals. -/
abbrev Address := Option Nat

end Lox
