import Lox.Tree.Basic

/-!
# Changing annotations

A function on annotations acts on whole trees and leaves everything else as it is.
-/

namespace Lox

variable {ρ σ : Type}

mutual

/-- An expression with its annotations changed. -/
def Expr.map (f : ρ → σ) : Expr ρ → Expr σ
  | .literal value => .literal value
  | .group inner => .group (inner.map f)
  | .unary op mark operand => .unary op mark (operand.map f)
  | .binary op mark left right => .binary op mark (left.map f) (right.map f)
  | .logical op mark left right => .logical op mark (left.map f) (right.map f)
  | .conditional condition yes no => .conditional (condition.map f) (yes.map f) (no.map f)
  | .name mark ref => .name mark (f ref)
  | .assign mark ref value => .assign mark (f ref) (value.map f)
  | .get object property => .get (object.map f) property
  | .set object property value => .set (object.map f) property (value.map f)
  | .call callee paren arguments => .call (callee.map f) paren (Expr.mapAll f arguments)
  | .function keyword fn => .function keyword (fn.map f)
  | .receiver keyword ref => .receiver keyword (f ref)
  | .inherited keyword method ref => .inherited keyword method (f ref)

/-- Expressions with their annotations changed. -/
def Expr.mapAll (f : ρ → σ) : List (Expr ρ) → List (Expr σ)
  | [] => []
  | e :: es => e.map f :: Expr.mapAll f es

/-- A function with its annotations changed. -/
def Function.map (f : ρ → σ) : Function ρ → Function σ
  | .mk params body => .mk params (Stmt.mapAll f body)

/-- Methods with their annotations changed. -/
def Method.mapAll (f : ρ → σ) : List (Method ρ) → List (Method σ)
  | [] => []
  | .mk static name fn :: methods => .mk static name (fn.map f) :: Method.mapAll f methods

/-- A statement with its annotations changed. -/
def Stmt.map (f : ρ → σ) : Stmt ρ → Stmt σ
  | .expression e => .expression (e.map f)
  | .print e => .print (e.map f)
  | .varDecl name none => .varDecl name none
  | .varDecl name (some e) => .varDecl name (some (e.map f))
  | .block body => .block (Stmt.mapAll f body)
  | .branch condition yes none => .branch (condition.map f) (yes.map f) none
  | .branch condition yes (some no) => .branch (condition.map f) (yes.map f) (some (no.map f))
  | .loop condition body => .loop (condition.map f) (body.map f)
  | .ret keyword none => .ret keyword none
  | .ret keyword (some e) => .ret keyword (some (e.map f))
  | .brk keyword => .brk keyword
  | .funDecl name fn => .funDecl name (fn.map f)
  | .classDecl name none methods => .classDecl name none (Method.mapAll f methods)
  | .classDecl name (some (super, ref)) methods =>
    .classDecl name (some (super, f ref)) (Method.mapAll f methods)
  | .importDecl path asName => .importDecl path asName

/-- Statements with their annotations changed. -/
def Stmt.mapAll (f : ρ → σ) : List (Stmt ρ) → List (Stmt σ)
  | [] => []
  | s :: ss => s.map f :: Stmt.mapAll f ss

end

/-- A program in which every reference is left to the globals. -/
def Program.unaddressed (program : Program ρ) : Program Address :=
  Stmt.mapAll (fun _ => none) program

end Lox
