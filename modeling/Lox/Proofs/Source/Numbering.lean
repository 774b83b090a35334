import Lox.Proofs.Scope.Erasure
import Lox.Proofs.Source.Concatenation

/-!
# Line numbers

Lines are counted from one. So raising every line number to at least one changes nothing about the
tokens of a source, nothing about the tree that they are parsed to, and nothing about a program that
differs from this tree in addresses only.
-/

namespace Lox

/-- The least line number from one on that is not smaller. -/
def raise (line : Int) : Int := max 1 line

theorem raise_eq_self_iff {line : Int} : raise line = line ↔ 1 ≤ line := by
  unfold raise
  omega

/-! ### Trees -/

section Map

variable {ρ σ : Type} (f : Int → Int) (g : ρ → σ)

mutual

/-- Whether a change of lines changes anything has nothing to do with annotations. -/
theorem Expr.mapLines_map_iff :
    (e : Expr ρ) → ((e.map g).mapLines f = e.map g ↔ e.mapLines f = e)
  | .literal value => by simp
  | .group inner => by simp [inner.mapLines_map_iff]
  | .unary op mark operand => by simp [operand.mapLines_map_iff]
  | .binary op mark left right => by simp [left.mapLines_map_iff, right.mapLines_map_iff]
  | .logical op mark left right => by simp [left.mapLines_map_iff, right.mapLines_map_iff]
  | .conditional condition yes no => by
    simp [condition.mapLines_map_iff, yes.mapLines_map_iff, no.mapLines_map_iff]
  | .name mark ref => by simp
  | .assign mark ref value => by simp [value.mapLines_map_iff]
  | .get object property => by simp [object.mapLines_map_iff]
  | .set object property value => by simp [object.mapLines_map_iff, value.mapLines_map_iff]
  | .call callee paren arguments => by
    simp [callee.mapLines_map_iff, Expr.mapLinesAll_mapAll_iff arguments]
  | .function keyword fn => by simp [fn.mapLines_map_iff]
  | .receiver keyword ref => by simp
  | .inherited keyword method ref => by simp

theorem Expr.mapLinesAll_mapAll_iff : (es : List (Expr ρ)) →
    (Expr.mapLinesAll f (Expr.mapAll g es) = Expr.mapAll g es ↔ Expr.mapLinesAll f es = es)
  | [] => by simp
  | e :: es => by simp [e.mapLines_map_iff, Expr.mapLinesAll_mapAll_iff es]

theorem Function.mapLines_map_iff :
    (fn : Function ρ) → ((fn.map g).mapLines f = fn.map g ↔ fn.mapLines f = fn)
  | .mk params body => by simp [Stmt.mapLinesAll_mapAll_iff body]

theorem Method.mapLinesAll_mapAll_iff : (ms : List (Method ρ)) →
    (Method.mapLinesAll f (Method.mapAll g ms) = Method.mapAll g ms ↔
      Method.mapLinesAll f ms = ms)
  | [] => by simp
  | .mk static name fn :: ms => by
    simp [fn.mapLines_map_iff, Method.mapLinesAll_mapAll_iff ms]

theorem Stmt.mapLines_map_iff :
    (s : Stmt ρ) → ((s.map g).mapLines f = s.map g ↔ s.mapLines f = s)
  | .expression e => by simp [e.mapLines_map_iff]
  | .print e => by simp [e.mapLines_map_iff]
  | .varDecl name none => by simp
  | .varDecl name (some e) => by simp [e.mapLines_map_iff]
  | .block body => by simp [Stmt.mapLinesAll_mapAll_iff body]
  | .branch condition yes none => by simp [condition.mapLines_map_iff, yes.mapLines_map_iff]
  | .branch condition yes (some no) => by
    simp [condition.mapLines_map_iff, yes.mapLines_map_iff, no.mapLines_map_iff]
  | .loop condition body => by simp [condition.mapLines_map_iff, body.mapLines_map_iff]
  | .ret keyword none => by simp
  | .ret keyword (some e) => by simp [e.mapLines_map_iff]
  | .brk keyword => by simp
  | .funDecl name fn => by simp [fn.mapLines_map_iff]
  | .classDecl name none methods => by simp [Method.mapLinesAll_mapAll_iff methods]
  | .classDecl name (some (super, ref)) methods => by
    simp [Method.mapLinesAll_mapAll_iff methods]
  | .importDecl path asName => by simp

theorem Stmt.mapLinesAll_mapAll_iff : (ss : List (Stmt ρ)) →
    (Stmt.mapLinesAll f (Stmt.mapAll g ss) = Stmt.mapAll g ss ↔ Stmt.mapLinesAll f ss = ss)
  | [] => by simp
  | s :: ss => by simp [s.mapLines_map_iff, Stmt.mapLinesAll_mapAll_iff ss]

end

end Map

/-! ### Sources -/

/-- The tokens of a source start on line one or below. -/
theorem Scan.map_raise_tokensFrom {line : Nat} (h : 1 ≤ line) (pieces : List Piece) :
    (Scan.tokensFrom line pieces).map (Token.mapLine raise) = Scan.tokensFrom line pieces := by
  induction pieces generalizing line with
  | nil =>
    have hline : raise (line : Int) = line := raise_eq_self_iff.mpr (by omega)
    simp [Scan.tokensFrom, Token.mapLine, hline]
  | cons piece pieces ih =>
    have hle : 1 ≤ line + piece.text.newlines := Nat.le_add_right_of_le h
    have hline : raise ((line + piece.text.newlines : Nat) : Int) =
        (line + piece.text.newlines : Nat) := raise_eq_self_iff.mpr (by omega)
    unfold Scan.tokensFrom
    dsimp only
    split
    · rw [List.map_cons, ih hle]
      simp only [Token.mapLine, hline]
    · exact ih hle

/-- A tree has no other lines than its tokens. -/
theorem Parsed.mapLinesAll_of_tokens {f : Int → Int} {tokens : List Token} {tree : Program Unit}
    (h : Parsed.ofTokens tokens = ⟨tree, []⟩) (hne : tokens ≠ [])
    (hf : tokens.map (Token.mapLine f) = tokens) : Stmt.mapLinesAll f tree = tree := by
  -- the tokens on other lines are parsed to the tree on other lines, and they are the same tokens
  have happend := Parsed.ofTokens_append_of_eq f (rfl : Parsed.ofTokens [] = ⟨[], []⟩) h hne
  rw [hf] at happend
  change Parsed.ofTokens tokens = ⟨Stmt.mapLinesAll f tree, []⟩ at happend
  rw [h] at happend
  exact (congrArg Parsed.program happend).symm

namespace Program

/-- A program is the tree of a source that can be parsed, with whatever addresses. -/
def Reads (source : Text) (program : Program Address) : Prop :=
  Parsed.ofTokens (Scan.ofSource source).tokens = ⟨program.erase, []⟩

variable {source : Text} {program : Program Address}

/-- However much is asked of the scopes of a source, its program is its tree. -/
theorem reads_of_ofSourceWith {checking : Checking}
    (h : Program.ofSourceWith checking source = .ok program) : Reads source program := by
  unfold Program.ofSourceWith at h
  dsimp only at h
  split at h
  · next hfaults =>
    have hparsed : (Parsed.ofTokens (Scan.ofSource source).tokens).faults = [] :=
      (List.append_eq_nil_iff.mp hfaults).2
    have herase : program.erase = (Parsed.ofTokens (Scan.ofSource source).tokens).program := by
      unfold Program.address at h
      cases checking with
      | none => rw [← Except.ok.inj h, erase_unaddressed]
      | addressesOnly => rw [← Except.ok.inj h, Resolved.erase_ofProgram]
      | full =>
        dsimp only at h
        split at h
        · rw [← Except.ok.inj h, Resolved.erase_ofProgram]
        · cases h
    unfold Reads
    rw [herase, ← hparsed]
  · cases h

/-- Every line of a program is at least one. -/
theorem Reads.mapLinesAll_raise (h : Reads source program) :
    Stmt.mapLinesAll raise program = program := by
  have htree : Stmt.mapLinesAll raise program.erase = program.erase :=
    Parsed.mapLinesAll_of_tokens h (Scan.tokensFrom_ne_nil _ _)
      (Scan.map_raise_tokensFrom (Nat.le_refl 1) _)
  exact (Stmt.mapLinesAll_mapAll_iff raise (fun _ => ()) program).mp htree

end Program

end Lox
