import Lox.Diagnostic
import Lox.Tree.Import

/-!
# Lines

Marks, tokens, diagnostics and trees carry line numbers, which serve for messages only. A function
on line numbers acts on all of them and leaves everything else as it is.
-/

namespace Lox

variable {ρ : Type} (f : Int → Int)

/-- A mark on another line. -/
def Mark.mapLine (m : Mark) : Mark := { m with line := f m.line }

/-- A token on another line. -/
def Token.mapLine (t : Token) : Token := { t with line := f t.line }

/-- A diagnostic about another line. -/
def Diagnostic.mapLine (d : Diagnostic) : Diagnostic := { d with line := f d.line }

section

variable {f}

@[simp] theorem Mark.lexeme_mapLine (m : Mark) : (m.mapLine f).lexeme = m.lexeme := rfl

@[simp] theorem Token.kind_mapLine (t : Token) : (t.mapLine f).kind = t.kind := rfl

@[simp] theorem Token.literal_mapLine (t : Token) : (t.mapLine f).literal = t.literal := rfl

@[simp] theorem Token.lexeme_mapLine (t : Token) : (t.mapLine f).lexeme = t.lexeme := rfl

@[simp] theorem Token.mark_mapLine (t : Token) : (t.mapLine f).mark = t.mark.mapLine f := rfl

@[simp] theorem Diagnostic.mapLine_atToken (t : Token) (p : Problem) :
    (Diagnostic.atToken t p).mapLine f = .atToken (t.mapLine f) p := rfl

@[simp] theorem Diagnostic.mapLine_atMark (m : Mark) (p : Problem) :
    (Diagnostic.atMark m p).mapLine f = .atMark (m.mapLine f) p := rfl

@[simp] theorem Import.path_mapLine (t : Token) : Import.path (t.mapLine f) = Import.path t := rfl

@[simp] theorem Import.name_mapLine (t : Token) (asName : Option Mark) :
    Import.name (t.mapLine f) (asName.map (Mark.mapLine f)) = Import.name t asName := by
  cases asName <;> rfl

@[simp] theorem Import.binding_mapLine (t : Token) (asName : Option Mark) :
    Import.binding (t.mapLine f) (asName.map (Mark.mapLine f)) =
      (Import.binding t asName).mapLine f := by
  cases asName <;> rfl

end

mutual

/-- An expression on other lines. -/
@[simp] def Expr.mapLines : Expr ρ → Expr ρ
  | .literal value => .literal value
  | .group inner => .group inner.mapLines
  | .unary op mark operand => .unary op (mark.mapLine f) operand.mapLines
  | .binary op mark left right => .binary op (mark.mapLine f) left.mapLines right.mapLines
  | .logical op mark left right => .logical op (mark.mapLine f) left.mapLines right.mapLines
  | .conditional condition yes no => .conditional condition.mapLines yes.mapLines no.mapLines
  | .name mark ref => .name (mark.mapLine f) ref
  | .assign mark ref value => .assign (mark.mapLine f) ref value.mapLines
  | .get object property => .get object.mapLines (property.mapLine f)
  | .set object property value => .set object.mapLines (property.mapLine f) value.mapLines
  | .call callee paren arguments =>
    .call callee.mapLines (paren.mapLine f) (Expr.mapLinesAll arguments)
  | .function keyword fn => .function (keyword.mapLine f) fn.mapLines
  | .receiver keyword ref => .receiver (keyword.mapLine f) ref
  | .inherited keyword method ref => .inherited (keyword.mapLine f) (method.mapLine f) ref

/-- Expressions on other lines. -/
@[simp] def Expr.mapLinesAll : List (Expr ρ) → List (Expr ρ)
  | [] => []
  | e :: es => e.mapLines :: Expr.mapLinesAll es

/-- A function on other lines. -/
@[simp] def Function.mapLines : Function ρ → Function ρ
  | .mk params body => .mk (params.map (Mark.mapLine f)) (Stmt.mapLinesAll body)

/-- A method on other lines. -/
@[simp] def Method.mapLines : Method ρ → Method ρ
  | .mk static name fn => .mk static (name.mapLine f) fn.mapLines

/-- Methods on other lines. -/
@[simp] def Method.mapLinesAll : List (Method ρ) → List (Method ρ)
  | [] => []
  | m :: ms => m.mapLines :: Method.mapLinesAll ms

/-- A statement on other lines. -/
@[simp] def Stmt.mapLines : Stmt ρ → Stmt ρ
  | .expression e => .expression e.mapLines
  | .print e => .print e.mapLines
  | .varDecl name none => .varDecl (name.mapLine f) none
  | .varDecl name (some e) => .varDecl (name.mapLine f) (some e.mapLines)
  | .block body => .block (Stmt.mapLinesAll body)
  | .branch condition yes none => .branch condition.mapLines yes.mapLines none
  | .branch condition yes (some no) => .branch condition.mapLines yes.mapLines (some no.mapLines)
  | .loop condition body => .loop condition.mapLines body.mapLines
  | .ret keyword none => .ret (keyword.mapLine f) none
  | .ret keyword (some e) => .ret (keyword.mapLine f) (some e.mapLines)
  | .brk keyword => .brk (keyword.mapLine f)
  | .funDecl name fn => .funDecl (name.mapLine f) fn.mapLines
  | .classDecl name none methods => .classDecl (name.mapLine f) none (Method.mapLinesAll methods)
  | .classDecl name (some (super, ref)) methods =>
    .classDecl (name.mapLine f) (some (super.mapLine f, ref)) (Method.mapLinesAll methods)
  | .importDecl path asName => .importDecl (path.mapLine f) (asName.map (Mark.mapLine f))

/-- Statements on other lines. -/
@[simp] def Stmt.mapLinesAll : List (Stmt ρ) → List (Stmt ρ)
  | [] => []
  | s :: ss => s.mapLines :: Stmt.mapLinesAll ss

end

/-! ### Lists of trees -/

theorem Expr.mapLinesAll_eq_map (es : List (Expr ρ)) :
    Expr.mapLinesAll f es = es.map (Expr.mapLines f) := by
  induction es with
  | nil => rfl
  | cons e es ih => simp [ih]

theorem Method.mapLinesAll_eq_map (ms : List (Method ρ)) :
    Method.mapLinesAll f ms = ms.map (Method.mapLines f) := by
  induction ms with
  | nil => rfl
  | cons m ms ih => simp [ih]

theorem Stmt.mapLinesAll_eq_map (ss : List (Stmt ρ)) :
    Stmt.mapLinesAll f ss = ss.map (Stmt.mapLines f) := by
  induction ss with
  | nil => rfl
  | cons s ss ih => simp [ih]

/-! ### No change -/

@[simp] theorem Mark.mapLine_id : Mark.mapLine id = id := rfl

@[simp] theorem Token.mapLine_id : Token.mapLine id = id := rfl

@[simp] theorem Diagnostic.mapLine_id : Diagnostic.mapLine id = id := rfl

mutual

@[simp] theorem Expr.mapLines_id : (e : Expr ρ) → e.mapLines id = e
  | .literal value => rfl
  | .group inner => by simp [inner.mapLines_id]
  | .unary op mark operand => by simp [operand.mapLines_id]
  | .binary op mark left right => by simp [left.mapLines_id, right.mapLines_id]
  | .logical op mark left right => by simp [left.mapLines_id, right.mapLines_id]
  | .conditional condition yes no => by
    simp [condition.mapLines_id, yes.mapLines_id, no.mapLines_id]
  | .name mark ref => rfl
  | .assign mark ref value => by simp [value.mapLines_id]
  | .get object property => by simp [object.mapLines_id]
  | .set object property value => by simp [object.mapLines_id, value.mapLines_id]
  | .call callee paren arguments => by
    simp [callee.mapLines_id, Expr.mapLinesAll_id arguments]
  | .function keyword fn => by simp [fn.mapLines_id]
  | .receiver keyword ref => rfl
  | .inherited keyword method ref => rfl

@[simp] theorem Expr.mapLinesAll_id : (es : List (Expr ρ)) → Expr.mapLinesAll id es = es
  | [] => rfl
  | e :: es => by simp [e.mapLines_id, Expr.mapLinesAll_id es]

@[simp] theorem Function.mapLines_id : (fn : Function ρ) → fn.mapLines id = fn
  | .mk params body => by simp [Stmt.mapLinesAll_id body]

@[simp] theorem Method.mapLines_id : (m : Method ρ) → m.mapLines id = m
  | .mk static name fn => by simp [fn.mapLines_id]

@[simp] theorem Method.mapLinesAll_id : (ms : List (Method ρ)) → Method.mapLinesAll id ms = ms
  | [] => rfl
  | m :: ms => by simp [m.mapLines_id, Method.mapLinesAll_id ms]

@[simp] theorem Stmt.mapLines_id : (s : Stmt ρ) → s.mapLines id = s
  | .expression e => by simp [e.mapLines_id]
  | .print e => by simp [e.mapLines_id]
  | .varDecl name none => rfl
  | .varDecl name (some e) => by simp [e.mapLines_id]
  | .block body => by simp [Stmt.mapLinesAll_id body]
  | .branch condition yes none => by simp [condition.mapLines_id, yes.mapLines_id]
  | .branch condition yes (some no) => by
    simp [condition.mapLines_id, yes.mapLines_id, no.mapLines_id]
  | .loop condition body => by simp [condition.mapLines_id, body.mapLines_id]
  | .ret keyword none => rfl
  | .ret keyword (some e) => by simp [e.mapLines_id]
  | .brk keyword => rfl
  | .funDecl name fn => by simp [fn.mapLines_id]
  | .classDecl name none methods => by simp [Method.mapLinesAll_id methods]
  | .classDecl name (some (super, ref)) methods => by simp [Method.mapLinesAll_id methods]
  | .importDecl path asName => by simp

@[simp] theorem Stmt.mapLinesAll_id : (ss : List (Stmt ρ)) → Stmt.mapLinesAll id ss = ss
  | [] => rfl
  | s :: ss => by simp [s.mapLines_id, Stmt.mapLinesAll_id ss]

end

/-! ### One change after another -/

section

variable {f} {g : Int → Int}

@[simp] theorem Mark.mapLine_mapLine (m : Mark) :
    (m.mapLine g).mapLine f = m.mapLine (f ∘ g) := rfl

@[simp] theorem Token.mapLine_mapLine (t : Token) :
    (t.mapLine g).mapLine f = t.mapLine (f ∘ g) := rfl

theorem Mark.mapLine_comp_mapLine : Mark.mapLine f ∘ Mark.mapLine g = Mark.mapLine (f ∘ g) := rfl

mutual

theorem Expr.mapLines_mapLines : (e : Expr ρ) → (e.mapLines g).mapLines f = e.mapLines (f ∘ g)
  | .literal value => rfl
  | .group inner => by simp [inner.mapLines_mapLines]
  | .unary op mark operand => by simp [operand.mapLines_mapLines]
  | .binary op mark left right => by simp [left.mapLines_mapLines, right.mapLines_mapLines]
  | .logical op mark left right => by simp [left.mapLines_mapLines, right.mapLines_mapLines]
  | .conditional condition yes no => by
    simp [condition.mapLines_mapLines, yes.mapLines_mapLines, no.mapLines_mapLines]
  | .name mark ref => rfl
  | .assign mark ref value => by simp [value.mapLines_mapLines]
  | .get object property => by simp [object.mapLines_mapLines]
  | .set object property value => by simp [object.mapLines_mapLines, value.mapLines_mapLines]
  | .call callee paren arguments => by
    simp [callee.mapLines_mapLines, Expr.mapLinesAll_mapLinesAll arguments]
  | .function keyword fn => by simp [fn.mapLines_mapLines]
  | .receiver keyword ref => rfl
  | .inherited keyword method ref => rfl

theorem Expr.mapLinesAll_mapLinesAll : (es : List (Expr ρ)) →
    Expr.mapLinesAll f (Expr.mapLinesAll g es) = Expr.mapLinesAll (f ∘ g) es
  | [] => rfl
  | e :: es => by simp [e.mapLines_mapLines, Expr.mapLinesAll_mapLinesAll es]

theorem Function.mapLines_mapLines : (fn : Function ρ) →
    (fn.mapLines g).mapLines f = fn.mapLines (f ∘ g)
  | .mk params body => by
    simp [Stmt.mapLinesAll_mapLinesAll body, Mark.mapLine_comp_mapLine]

theorem Method.mapLines_mapLines : (m : Method ρ) →
    (m.mapLines g).mapLines f = m.mapLines (f ∘ g)
  | .mk static name fn => by simp [fn.mapLines_mapLines]

theorem Method.mapLinesAll_mapLinesAll : (ms : List (Method ρ)) →
    Method.mapLinesAll f (Method.mapLinesAll g ms) = Method.mapLinesAll (f ∘ g) ms
  | [] => rfl
  | m :: ms => by simp [m.mapLines_mapLines, Method.mapLinesAll_mapLinesAll ms]

theorem Stmt.mapLines_mapLines : (s : Stmt ρ) → (s.mapLines g).mapLines f = s.mapLines (f ∘ g)
  | .expression e => by simp [e.mapLines_mapLines]
  | .print e => by simp [e.mapLines_mapLines]
  | .varDecl name none => rfl
  | .varDecl name (some e) => by simp [e.mapLines_mapLines]
  | .block body => by simp [Stmt.mapLinesAll_mapLinesAll body]
  | .branch condition yes none => by simp [condition.mapLines_mapLines, yes.mapLines_mapLines]
  | .branch condition yes (some no) => by
    simp [condition.mapLines_mapLines, yes.mapLines_mapLines, no.mapLines_mapLines]
  | .loop condition body => by simp [condition.mapLines_mapLines, body.mapLines_mapLines]
  | .ret keyword none => rfl
  | .ret keyword (some e) => by simp [e.mapLines_mapLines]
  | .brk keyword => rfl
  | .funDecl name fn => by simp [fn.mapLines_mapLines]
  | .classDecl name none methods => by simp [Method.mapLinesAll_mapLinesAll methods]
  | .classDecl name (some (super, ref)) methods => by
    simp [Method.mapLinesAll_mapLinesAll methods]
  | .importDecl path asName => by simp [Mark.mapLine_comp_mapLine]

theorem Stmt.mapLinesAll_mapLinesAll : (ss : List (Stmt ρ)) →
    Stmt.mapLinesAll f (Stmt.mapLinesAll g ss) = Stmt.mapLinesAll (f ∘ g) ss
  | [] => rfl
  | s :: ss => by simp [s.mapLines_mapLines, Stmt.mapLinesAll_mapLinesAll ss]

end

end

end Lox
