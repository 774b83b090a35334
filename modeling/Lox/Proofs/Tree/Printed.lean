import Lox.Proofs.Tree.Form
import Lox.Tree.Printer

/-!
# Printed trees are forms

What is printed of a tree, as a form. A leaf is a word or a quoted text; any other node is a list
that starts with an operator, with one of a few fixed words, or with an import and its path.
-/

namespace Lox

open Text (byte)

/-- The words at the start of lists, apart from operators and imports. -/
inductive HeadWord where
  | group | choice | assign | get | call | function | inherited
  | expression | print | varDecl | block | branch | loop | ret | brk | classDecl | static | method
  deriving DecidableEq

namespace HeadWord

/-- The word itself. -/
@[simp] def text : HeadWord → Text
  | group => "group"
  | choice => "?:"
  | assign => "="
  | get => "."
  | call => "call"
  | function => "fun"
  | inherited => "super"
  | expression => ";"
  | print => "print"
  | varDecl => "var"
  | block => "block"
  | branch => "if"
  | loop => "while"
  | ret => "return"
  | brk => "break"
  | classDecl => "class"
  | static => "static"
  | method => "method"

end HeadWord

/-- The form of a name. -/
def Mark.form (m : Mark) : Form := .word m.lexeme

/-- The form of a literal. -/
def Literal.form : Literal → Form
  | nil => .word "nil"
  | bool b => .word (Text.ofBool b)
  | number x => .word (Number.printed x)
  | string t => .quoted t

namespace Form

/-- A list that starts with a word. -/
def headed (w : Text) (parts : List Form) : Form := .list (.word w :: parts)

/-- A list that starts with one of the fixed words. -/
def node (head : HeadWord) (parts : List Form) : Form := headed head.text parts

/-- A list that starts with an import. -/
def imported (path : Text) (parts : List Form) : Form := .list (.importing path :: parts)

end Form

section

variable {ρ : Type}

mutual

/-- The form of an expression. -/
def Expr.form : Expr ρ → Form
  | .literal value => value.form
  | .group inner => .node .group [inner.form]
  | .unary _ mark operand => .headed mark.lexeme [operand.form]
  | .binary _ mark left right => .headed mark.lexeme [left.form, right.form]
  | .logical _ mark left right => .headed mark.lexeme [left.form, right.form]
  | .conditional condition yes no => .node .choice [condition.form, yes.form, no.form]
  | .name mark _ => mark.form
  | .assign mark _ value => .node .assign [mark.form, value.form]
  | .get object property => .node .get [object.form, property.form]
  | .set object property value =>
    .node .assign [.node .get [object.form, property.form], value.form]
  | .call callee _ arguments => .node .call (callee.form :: Expr.forms arguments)
  | .function _ fn => .node .function fn.forms
  | .receiver _ _ => .word "this"
  | .inherited _ method _ => .node .inherited [method.form]

/-- The forms of expressions. -/
def Expr.forms : List (Expr ρ) → List Form
  | [] => []
  | e :: es => e.form :: Expr.forms es

/-- The forms of the parameters and of the body of a function. -/
def Function.forms : Function ρ → List Form
  | .mk params body => .list (params.map Mark.form) :: Stmt.forms body

/-- The form of a method. -/
def Method.form : Method ρ → Form
  | .mk static name fn => .node (if static then .static else .method) (name.form :: fn.forms)

/-- The forms of methods. -/
def Method.forms : List (Method ρ) → List Form
  | [] => []
  | m :: ms => m.form :: Method.forms ms

/-- The form of a statement. -/
def Stmt.form : Stmt ρ → Form
  | .expression e => .node .expression [e.form]
  | .print e => .node .print [e.form]
  | .varDecl name none => .node .varDecl [name.form]
  | .varDecl name (some e) => .node .varDecl [name.form, e.form]
  | .block body => .node .block (Stmt.forms body)
  | .branch condition yes none => .node .branch [condition.form, yes.form]
  | .branch condition yes (some no) => .node .branch [condition.form, yes.form, no.form]
  | .loop condition body => .node .loop [condition.form, body.form]
  | .ret _ none => .node .ret []
  | .ret _ (some e) => .node .ret [e.form]
  | .brk _ => .node .brk []
  | .funDecl name fn => .node .function (name.form :: fn.forms)
  | .classDecl name none methods => .node .classDecl (name.form :: Method.forms methods)
  | .classDecl name (some (super, _)) methods =>
    .node .classDecl (name.form :: .word "<" :: super.form :: Method.forms methods)
  | .importDecl path none => .imported path.lexeme []
  | .importDecl path (some asName) => .imported path.lexeme [.word "as", asName.form]

/-- The forms of statements. -/
def Stmt.forms : List (Stmt ρ) → List Form
  | [] => []
  | s :: ss => s.form :: Stmt.forms ss

end

/-! ### Printing is writing down the form -/

theorem Form.renderItems_marks (ms : List Mark) :
    Form.renderItems (ms.map Mark.form) = Text.joinWith " " (ms.map Mark.lexeme) ++ [byte ')'] := by
  cases ms with
  | nil => rfl
  | cons m ms =>
    show m.lexeme ++ Form.renderRest (ms.map Mark.form) = _
    induction ms generalizing m with
    | nil => rfl
    | cons m' ms ih =>
      show m.lexeme ++ byte ' ' :: (m'.lexeme ++ Form.renderRest (ms.map Mark.form)) =
        m.lexeme ++ [byte ' '] ++ Text.joinWith " " ((m' :: ms).map Mark.lexeme) ++ [byte ')']
      rw [ih m']
      simp

@[simp] theorem Form.renderRest_nil (k : Text) : renderRest [] ++ k = byte ')' :: k := rfl

@[simp] theorem Form.renderRest_cons (f : Form) (fs : List Form) (k : Text) :
    renderRest (f :: fs) ++ k = byte ' ' :: (f.render ++ (renderRest fs ++ k)) := by
  simp only [renderRest, List.cons_append, List.append_assoc]

@[simp] theorem Form.render_headed (w : Text) (parts : List Form) (k : Text) :
    (headed w parts).render ++ k = openForm w (renderRest parts ++ k) := by
  simp only [headed, openForm, render, renderItems, List.cons_append, List.append_assoc]

@[simp] theorem Form.render_node (head : HeadWord) (parts : List Form) (k : Text) :
    (node head parts).render ++ k = openForm head.text (renderRest parts ++ k) :=
  render_headed _ parts k

@[simp] theorem Form.render_imported (path : Text) (parts : List Form) (k : Text) :
    (imported path parts).render ++ k =
      openForm "import" (nextPart path (renderRest parts ++ k)) := by
  simp only [imported, openForm, nextPart, render, renderItems, List.cons_append,
    List.append_assoc, keyword]

@[simp] theorem Mark.render_form (m : Mark) : m.form.render = m.lexeme := rfl

mutual

theorem Expr.render_eq : (e : Expr ρ) → (k : Text) → e.render k = e.form.render ++ k
  | .literal value, k => by cases value <;> rfl
  | .name _ _, _ | .receiver _ _, _ => rfl
  | .group inner, k => by simp [Expr.render, Expr.form, inner.render_eq]
  | .unary _ _ operand, k => by simp [Expr.render, Expr.form, operand.render_eq]
  | .binary _ _ left right, k | .logical _ _ left right, k => by
    simp [Expr.render, Expr.form, left.render_eq, right.render_eq]
  | .conditional condition yes no, k => by
    simp [Expr.render, Expr.form, condition.render_eq, yes.render_eq, no.render_eq]
  | .assign _ _ value, k => by simp [Expr.render, Expr.form, nextPart, value.render_eq]
  | .get object _, k => by simp [Expr.render, Expr.form, nextPart, object.render_eq]
  | .set object _ value, k => by
    simp [Expr.render, Expr.form, nextPart, object.render_eq, value.render_eq]
  | .call callee _ arguments, k => by
    simp [Expr.render, Expr.form, callee.render_eq, Expr.renderAll_eq arguments]
  | .function _ fn, k => by simp [Expr.render, Expr.form, fn.render_eq]
  | .inherited _ _ _, k => by simp [Expr.render, Expr.form, nextPart]

theorem Expr.renderAll_eq : (es : List (Expr ρ)) → (k : Text) →
    Expr.renderAll es (byte ')' :: k) = Form.renderRest (Expr.forms es) ++ k
  | [], _ => rfl
  | e :: es, k => by simp [Expr.renderAll, Expr.forms, e.render_eq, Expr.renderAll_eq es]

theorem Function.render_eq : (fn : Function ρ) → (k : Text) →
    fn.render (byte ')' :: k) = Form.renderRest fn.forms ++ k
  | .mk params body, k => by
    simp [Function.render, Function.forms, Stmt.renderAll_eq body, nextPart, printedParams,
      Form.render, Form.renderItems_marks]

theorem Method.renderAll_eq : (ms : List (Method ρ)) → (k : Text) →
    Method.renderAll ms (byte ')' :: k) = Form.renderRest (Method.forms ms) ++ k
  | [], _ => rfl
  | .mk static _ fn :: ms, k => by
    cases static <;>
      simp [Method.renderAll, Method.render, Method.forms, Method.form, nextPart, fn.render_eq,
        Method.renderAll_eq ms]

theorem Stmt.render_eq : (s : Stmt ρ) → (k : Text) → s.render k = s.form.render ++ k
  | .expression e, k | .print e, k => by simp [Stmt.render, Stmt.form, e.render_eq]
  | .varDecl _ none, k => by simp [Stmt.render, Stmt.form, nextPart]
  | .varDecl _ (some e), k => by simp [Stmt.render, Stmt.form, nextPart, e.render_eq]
  | .block body, k => by simp [Stmt.render, Stmt.form, Stmt.renderAll_eq body]
  | .branch condition yes none, k => by
    simp [Stmt.render, Stmt.form, condition.render_eq, yes.render_eq]
  | .branch condition yes (some no), k => by
    simp [Stmt.render, Stmt.form, condition.render_eq, yes.render_eq, no.render_eq]
  | .loop condition body, k => by
    simp [Stmt.render, Stmt.form, condition.render_eq, body.render_eq]
  | .ret _ none, k | .brk _, k => by simp [Stmt.render, Stmt.form]
  | .ret _ (some e), k => by simp [Stmt.render, Stmt.form, e.render_eq]
  | .funDecl _ fn, k => by simp [Stmt.render, Stmt.form, nextPart, fn.render_eq]
  | .classDecl _ none methods, k => by
    simp [Stmt.render, Stmt.form, nextPart, Method.renderAll_eq methods]
  | .classDecl _ (some (_, _)) methods, k => by
    simp [Stmt.render, Stmt.form, nextPart, Method.renderAll_eq methods, Form.render]
  | .importDecl _ none, k => by simp [Stmt.render, Stmt.form]
  | .importDecl _ (some _), k => by simp [Stmt.render, Stmt.form, nextPart, Form.render]

theorem Stmt.renderAll_eq : (ss : List (Stmt ρ)) → (k : Text) →
    Stmt.renderAll ss (byte ')' :: k) = Form.renderRest (Stmt.forms ss) ++ k
  | [], _ => rfl
  | s :: ss, k => by simp [Stmt.renderAll, Stmt.forms, s.render_eq, Stmt.renderAll_eq ss]

end

end

end Lox
