import Lox.Proofs.Scope.Walk
import Lox.Proofs.Tree.Lines

/-!
# Resolution and lines

The resolver looks at no line number: a program on other lines gets the same addresses, and the same
problems are reported on the other lines. At top level no scope is open, so the statements of a
program are resolved independently of each other.
-/

namespace Lox

variable {s : Surroundings} {scopes : Scopes} (f : Int → Int)

/-! ### Scopes -/

@[simp] theorem Scopes.redeclared_mapLine (m : Mark) :
    scopes.redeclared (m.mapLine f) = (scopes.redeclared m).map (Diagnostic.mapLine f) := by
  unfold Scopes.redeclared
  split
  · rw [Mark.lexeme_mapLine]
    split <;> rfl
  · rfl

@[simp] theorem Scopes.unready_mapLine (m : Mark) :
    scopes.unready (m.mapLine f) = (scopes.unready m).map (Diagnostic.mapLine f) := by
  unfold Scopes.unready
  split
  · rw [Mark.lexeme_mapLine]
    split <;> rfl
  · rfl

@[simp] theorem Scopes.enterParams_mapLine (scopes : Scopes) (ps : List Mark) :
    scopes.enterParams (ps.map (Mark.mapLine f)) =
      ((scopes.enterParams ps).1, (scopes.enterParams ps).2.map (Diagnostic.mapLine f)) := by
  induction ps generalizing scopes with
  | nil => rfl
  | cons p ps ih => simp [Scopes.enterParams, ih]

@[simp] theorem Scopes.keyword_mapLine (problem? : Option ScopeProblem) (m : Mark) (x : Text) :
    scopes.keyword problem? (m.mapLine f) x =
      ((scopes.keyword problem? m x).1,
        (scopes.keyword problem? m x).2.map (Diagnostic.mapLine f)) := by
  cases problem? <;> rfl

@[simp] theorem Surroundings.returnFaults_mapLine (m : Mark) (hasValue : Bool) :
    s.returnFaults (m.mapLine f) hasValue =
      (s.returnFaults m hasValue).map (Diagnostic.mapLine f) := by
  unfold Surroundings.returnFaults
  split
  · rfl
  · split <;> rfl
  · rfl

/-! ### Trees -/

mutual

/-- An expression on other lines gets the same addresses. -/
theorem Expr.resolve_mapLines (s : Surroundings) (scopes : Scopes) : (e : Expr Unit) →
    (e.mapLines f).resolve s scopes =
      ((e.resolve s scopes).1.mapLines f, (e.resolve s scopes).2.map (Diagnostic.mapLine f))
  | .literal value => rfl
  | .group inner => by simp [inner.resolve_mapLines s scopes]
  | .unary op mark operand => by simp [operand.resolve_mapLines s scopes]
  | .binary op mark left right => by
    simp [left.resolve_mapLines s scopes, right.resolve_mapLines s scopes]
  | .logical op mark left right => by
    simp [left.resolve_mapLines s scopes, right.resolve_mapLines s scopes]
  | .conditional condition yes no => by
    simp [condition.resolve_mapLines s scopes, yes.resolve_mapLines s scopes,
      no.resolve_mapLines s scopes]
  | .name mark ref => by simp
  | .assign mark ref value => by simp [value.resolve_mapLines s scopes]
  | .get object property => by simp [object.resolve_mapLines s scopes]
  | .set object property value => by
    simp [object.resolve_mapLines s scopes, value.resolve_mapLines s scopes]
  | .call callee paren arguments => by
    simp [callee.resolve_mapLines s scopes, Expr.resolveAll_mapLines s scopes arguments]
  | .function keyword fn => by simp [fn.resolve_mapLines _ scopes]
  | .receiver keyword ref => by simp
  | .inherited keyword method ref => by simp

theorem Expr.resolveAll_mapLines (s : Surroundings) (scopes : Scopes) : (es : List (Expr Unit)) →
    Expr.resolveAll s scopes (Expr.mapLinesAll f es) =
      (Expr.mapLinesAll f (Expr.resolveAll s scopes es).1,
        (Expr.resolveAll s scopes es).2.map (Diagnostic.mapLine f))
  | [] => rfl
  | e :: es => by simp [e.resolve_mapLines s scopes, Expr.resolveAll_mapLines s scopes es]

theorem Function.resolve_mapLines (s : Surroundings) (scopes : Scopes) : (fn : Function Unit) →
    (fn.mapLines f).resolve s scopes =
      ((fn.resolve s scopes).1.mapLines f, (fn.resolve s scopes).2.map (Diagnostic.mapLine f))
  | .mk params body => by simp [Stmt.resolveAll_mapLines _ _ body]

theorem Method.resolveAll_mapLines (s : Surroundings) (scopes : Scopes) (seen : List Text) :
    (ms : List (Method Unit)) →
    Method.resolveAll s scopes seen (Method.mapLinesAll f ms) =
      (Method.mapLinesAll f (Method.resolveAll s scopes seen ms).1,
        (Method.resolveAll s scopes seen ms).2.map (Diagnostic.mapLine f))
  | [] => rfl
  | .mk static name fn :: ms => by
    by_cases h : name.lexeme ∈ seen <;>
      simp [h, fn.resolve_mapLines, Method.resolveAll_mapLines s scopes _ ms]

/-- A statement on other lines gets the same addresses and declares the same names. -/
theorem Stmt.resolve_mapLines (s : Surroundings) (scopes : Scopes) : (stmt : Stmt Unit) →
    (stmt.mapLines f).resolve s scopes =
      ((stmt.resolve s scopes).1.mapLines f, (stmt.resolve s scopes).2.1,
        (stmt.resolve s scopes).2.2.map (Diagnostic.mapLine f))
  | .expression e => by simp [e.resolve_mapLines s scopes]
  | .print e => by simp [e.resolve_mapLines s scopes]
  | .varDecl name none => by simp
  | .varDecl name (some initial) => by simp [initial.resolve_mapLines]
  | .block body => by simp [Stmt.resolveAll_mapLines _ _ body]
  | .branch condition yes none => by
    simp [condition.resolve_mapLines s scopes, yes.resolve_mapLines]
  | .branch condition yes (some no) => by
    simp [condition.resolve_mapLines s scopes, yes.resolve_mapLines, no.resolve_mapLines]
  | .loop condition body => by simp [condition.resolve_mapLines s scopes, body.resolve_mapLines]
  | .ret keyword none => by simp
  | .ret keyword (some value) => by simp [value.resolve_mapLines]
  | .brk keyword => by
    by_cases h : s.inLoop <;> simp [h]
  | .funDecl name fn => by simp [fn.resolve_mapLines]
  | .classDecl name none methods => by simp [Method.resolveAll_mapLines _ _ _ methods]
  | .classDecl name (some (super, ref)) methods => by
    by_cases h : super.lexeme = name.lexeme <;> simp [h, Method.resolveAll_mapLines _ _ _ methods]
  | .importDecl path asName => by simp

theorem Stmt.resolveAll_mapLines (s : Surroundings) (scopes : Scopes) :
    (ss : List (Stmt Unit)) →
    Stmt.resolveAll s scopes (Stmt.mapLinesAll f ss) =
      (Stmt.mapLinesAll f (Stmt.resolveAll s scopes ss).1, (Stmt.resolveAll s scopes ss).2.1,
        (Stmt.resolveAll s scopes ss).2.2.map (Diagnostic.mapLine f))
  | [] => rfl
  | stmt :: ss => by simp [stmt.resolve_mapLines, Stmt.resolveAll_mapLines _ _ ss]

end

/-! ### Programs -/

/-- No statement at top level opens a scope for those after it. -/
theorem Stmt.resolve_top (s : Surroundings) : (stmt : Stmt Unit) → (stmt.resolve s []).2.1 = []
  | .expression _ | .print _ | .varDecl _ none | .varDecl _ (some _) | .block _ | .ret _ none
  | .ret _ (some _) | .brk _ | .funDecl _ _ | .classDecl _ none _ | .classDecl _ (some _) _
  | .importDecl _ _ => rfl
  | .branch _ yes none => yes.resolve_top s
  | .branch _ yes (some no) => by
    simp only [Stmt.resolve, yes.resolve_top s]
    exact no.resolve_top s
  | .loop _ body => body.resolve_top _

theorem Stmt.resolveAll_top (s : Surroundings) (ss : List (Stmt Unit)) :
    (Stmt.resolveAll s [] ss).2.1 = [] := by
  induction ss with
  | nil => rfl
  | cons stmt ss ih => simpa [stmt.resolve_top s] using ih

theorem Stmt.resolveAll_append (s : Surroundings) (scopes : Scopes) (ss more : List (Stmt Unit)) :
    Stmt.resolveAll s scopes (ss ++ more) =
      let first := Stmt.resolveAll s scopes ss
      let second := Stmt.resolveAll s first.2.1 more
      (first.1 ++ second.1, second.2.1, first.2.2 ++ second.2.2) := by
  induction ss generalizing scopes with
  | nil => rfl
  | cons stmt ss ih => simp [ih]

/-- The resolution of two programs, the second one on other lines. -/
theorem Resolved.ofProgram_append_mapLines (program more : Program Unit) :
    Resolved.ofProgram (program ++ Stmt.mapLinesAll f more) =
      { program := (Resolved.ofProgram program).program ++
          Stmt.mapLinesAll f (Resolved.ofProgram more).program
        faults := (Resolved.ofProgram program).faults ++
          (Resolved.ofProgram more).faults.map (Diagnostic.mapLine f) } := by
  unfold Resolved.ofProgram
  simp only [Stmt.resolveAll_append, Stmt.resolveAll_top, Stmt.resolveAll_mapLines]

end Lox
