import Lox.Text.Quoted
import Lox.Tree.Basic

/-!
# Printed trees

Every tree has a one-line form: an operator or a word in parentheses, followed by its parts. The
annotations of references are not shown.

## Design notes

`render t k` is the form of `t` followed by the text `k`. Printing into the text that follows
keeps the cost linear in the size of the tree.
-/

namespace Lox

open Text (byte)

/-- A literal in a printed tree. -/
def Literal.printed : Literal → Text
  | nil => "nil"
  | bool b => Text.ofBool b
  | number x => Number.printed x
  | string t => t.quoted

/-- An opening parenthesis and the word after it. -/
def openForm (head : Text) (k : Text) : Text := byte '(' :: head ++ k

/-- A further part of a form. -/
def nextPart (part : Text) (k : Text) : Text := byte ' ' :: part ++ k

/-- The parameter list of a function. -/
def printedParams (params : List Mark) : Text :=
  byte '(' :: Text.joinWith " " (params.map Mark.lexeme) ++ [byte ')']

variable {ρ : Type}

mutual

/-- The form of an expression followed by `k`. -/
def Expr.render : Expr ρ → Text → Text
  | .literal value, k => value.printed ++ k
  | .group inner, k => openForm "group" (byte ' ' :: inner.render (byte ')' :: k))
  | .unary _ mark operand, k => openForm mark.lexeme (byte ' ' :: operand.render (byte ')' :: k))
  | .binary _ mark left right, k =>
    openForm mark.lexeme
      (byte ' ' :: left.render (byte ' ' :: right.render (byte ')' :: k)))
  | .logical _ mark left right, k =>
    openForm mark.lexeme
      (byte ' ' :: left.render (byte ' ' :: right.render (byte ')' :: k)))
  | .conditional condition yes no, k =>
    openForm "?:" (byte ' ' :: condition.render
      (byte ' ' :: yes.render (byte ' ' :: no.render (byte ')' :: k))))
  | .name mark _, k => mark.lexeme ++ k
  | .assign mark _ value, k =>
    openForm "=" (nextPart mark.lexeme (byte ' ' :: value.render (byte ')' :: k)))
  | .get object property, k =>
    openForm "." (byte ' ' :: object.render (nextPart property.lexeme (byte ')' :: k)))
  | .set object property value, k =>
    openForm "=" (byte ' ' :: openForm "." (byte ' ' :: object.render
      (nextPart property.lexeme (byte ')' :: byte ' ' :: value.render (byte ')' :: k)))))
  | .call callee _ arguments, k =>
    openForm "call" (byte ' ' :: callee.render (Expr.renderAll arguments (byte ')' :: k)))
  | .function _ fn, k => openForm "fun" (fn.render (byte ')' :: k))
  | .receiver _ _, k => "this" ++ k
  | .inherited _ method _, k => openForm "super" (nextPart method.lexeme (byte ')' :: k))

/-- Further expressions of a form, followed by `k`. -/
def Expr.renderAll : List (Expr ρ) → Text → Text
  | [], k => k
  | e :: es, k => byte ' ' :: e.render (Expr.renderAll es k)

/-- The parameters and body of a function as parts of a form, followed by `k`. -/
def Function.render : Function ρ → Text → Text
  | .mk params body, k => nextPart (printedParams params) (Stmt.renderAll body k)

/-- A method as a part of a form, followed by `k`. -/
def Method.render : Method ρ → Text → Text
  | .mk static name fn, k =>
    byte ' ' :: openForm (if static then "static" else "method")
      (nextPart name.lexeme (fn.render (byte ')' :: k)))

/-- The methods of a class as parts of a form, followed by `k`. -/
def Method.renderAll : List (Method ρ) → Text → Text
  | [], k => k
  | m :: ms, k => m.render (Method.renderAll ms k)

/-- The form of a statement followed by `k`. -/
def Stmt.render : Stmt ρ → Text → Text
  | .expression e, k => openForm ";" (byte ' ' :: e.render (byte ')' :: k))
  | .print e, k => openForm "print" (byte ' ' :: e.render (byte ')' :: k))
  | .varDecl name none, k => openForm "var" (nextPart name.lexeme (byte ')' :: k))
  | .varDecl name (some e), k =>
    openForm "var" (nextPart name.lexeme (byte ' ' :: e.render (byte ')' :: k)))
  | .block body, k => openForm "block" (Stmt.renderAll body (byte ')' :: k))
  | .branch condition yes none, k =>
    openForm "if" (byte ' ' :: condition.render (byte ' ' :: yes.render (byte ')' :: k)))
  | .branch condition yes (some no), k =>
    openForm "if" (byte ' ' :: condition.render
      (byte ' ' :: yes.render (byte ' ' :: no.render (byte ')' :: k))))
  | .loop condition body, k =>
    openForm "while" (byte ' ' :: condition.render (byte ' ' :: body.render (byte ')' :: k)))
  | .ret _ none, k => openForm "return" (byte ')' :: k)
  | .ret _ (some e), k => openForm "return" (byte ' ' :: e.render (byte ')' :: k))
  | .brk _, k => openForm "break" (byte ')' :: k)
  | .funDecl name fn, k => openForm "fun" (nextPart name.lexeme (fn.render (byte ')' :: k)))
  | .classDecl name none methods, k =>
    openForm "class" (nextPart name.lexeme (Method.renderAll methods (byte ')' :: k)))
  | .classDecl name (some (super, _)) methods, k =>
    openForm "class" (nextPart name.lexeme (nextPart "<" (nextPart super.lexeme
      (Method.renderAll methods (byte ')' :: k)))))
  | .importDecl path none, k => openForm "import" (nextPart path.lexeme (byte ')' :: k))
  | .importDecl path (some asName), k =>
    openForm "import"
      (nextPart path.lexeme (nextPart "as" (nextPart asName.lexeme (byte ')' :: k))))

/-- Statements as parts of a form, followed by `k`. -/
def Stmt.renderAll : List (Stmt ρ) → Text → Text
  | [], k => k
  | s :: ss, k => byte ' ' :: s.render (Stmt.renderAll ss k)

end

/-- The one-line form of an expression. -/
def Expr.printed (e : Expr ρ) : Text := e.render []

/-- The one-line form of a statement. -/
def Stmt.printed (s : Stmt ρ) : Text := s.render []

/-- A program with one line for each statement. -/
def Program.printed (program : Program ρ) : Text :=
  program.flatMap fun s => s.printed ++ [byte '\n']

end Lox
