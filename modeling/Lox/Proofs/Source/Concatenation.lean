import Lox.Proofs.Grammar.Concatenation
import Lox.Proofs.Scope.Accepted
import Lox.Proofs.Scope.Lines
import Lox.Proofs.Source.Pieces

/-!
# Two sources as one

Two accepted sources on successive lines are an accepted source. Its program is that of the first
source followed by that of the second one, on lines that are further below.
-/

namespace Lox

/-! ### Parsing -/

namespace Grammar

/-- No sequence of declarations starts in the middle of a statement. -/
theorem Derives.not_heads_elseKw {n : Nat} {g : Bool} {ts : List Token} {phrase : Phrase}
    (h : Derives n g .declarations ts phrase) : ¬ Token.Heads .elseKw ts := by
  generalize hs : Symbol.declarations = symbol at h
  induction h with
  | noDeclarations => exact Token.not_heads_nil _
  | @declaration _ _ ts _ ts' _ _ hd ih =>
    cases ts with
    | nil =>
      have ho := hd.opens
      rintro ⟨t, k, rfl, hk⟩
      rw [Symbol.Opens, Token.next_cons, hk] at ho
      cases ho
    | cons t ts =>
      rw [List.cons_append, Token.heads_cons]
      exact mt Token.heads_cons.mpr (ih rfl)
  | _ => cases hs

/-- Without tokens there are no declarations. -/
theorem Derives.eq_nil_of_declarations {n : Nat} {g : Bool} {ts : List Token}
    {ss : List (Stmt Unit)} (h : Derives n g .declarations ts (.stmts ss)) (ht : ts = []) :
    ss = [] := by
  cases h with
  | noDeclarations => rfl
  | declaration _ hd =>
    have ho := hd.opens
    rw [(List.append_eq_nil_iff.mp ht).2] at ho
    cases ho

end Grammar

/-- A parse depends on the tokens before the end mark and on that mark. -/
theorem Parsed.ofTokens_congr {tokens tokens' : List Token}
    (h : Token.untilEnd tokens = Token.untilEnd tokens') :
    Parsed.ofTokens tokens = Parsed.ofTokens tokens' := by
  rw [Parsed.ofTokens_eq, Parsed.ofTokens_eq, h]

/-- The parse of two programs with which nothing is wrong, the second one on other lines. -/
theorem Parsed.ofTokens_append_of_eq (f : Int → Int) {tokens second : List Token}
    {program more : Program Unit} (h : Parsed.ofTokens tokens = ⟨program, []⟩)
    (hm : Parsed.ofTokens second = ⟨more, []⟩) (hs : second ≠ []) :
    Parsed.ofTokens ((Token.untilEnd tokens).1 ++ second.map (Token.mapLine f)) =
      ⟨program ++ Stmt.mapLinesAll f more, []⟩ := by
  have hd := Grammar.Derives.of_parsed h
  have hdm := Grammar.Derives.of_parsed hm
  by_cases hn : (Token.untilEnd second).1 = []
  · -- nothing follows but the end mark, which is now the end of the first program
    obtain rfl := hdm.eq_nil_of_declarations hn
    have hstop : ((Token.untilEnd second).2.mapLine f).kind = .eof := Token.untilEnd_kind second
    have hu := Token.untilEnd_append_map f (Token.kind_ne_eof_of_untilEnd tokens) hs
    rw [hn, List.map_nil, List.append_nil,
      ← Token.untilEnd_append (Token.kind_ne_eof_of_untilEnd tokens) hstop] at hu
    rw [Parsed.ofTokens_congr hu, Parsed.ofTokens_of_derives hd hstop]
    simp
  · have he : ¬ Token.Heads .elseKw second := by
      rintro ⟨t, k, rfl, hk⟩
      refine hdm.not_heads_elseKw ⟨t, k.takeWhile (·.kind ≠ .eof), ?_, hk⟩
      rw [Token.untilEnd_fst, List.takeWhile_cons_of_pos (by simp [hk])]
    rw [Parsed.ofTokens_append_mapLine f hn he (by simp [h]) (.inl (by simp [h])), h, hm]
    rfl

/-! ### Sources -/

theorem Scan.tokensFrom_ne_nil (line : Nat) (pieces : List Piece) :
    Scan.tokensFrom line pieces ≠ [] := by
  induction pieces generalizing line with
  | nil => exact nofun
  | cons p pieces ih =>
    unfold Scan.tokensFrom
    dsimp only
    split
    · exact nofun
    · exact ih _

namespace Program

variable {a b : Text} {tree more : Program Unit}

/-- How much further below the lines of a source are that is put behind another one. -/
def shift (a : Text) (line : Int) : Int := line + (Scan.newlines a.pieces + 1 : Nat)

/-- Accepted sources on successive lines are accepted together. -/
theorem Accepted.append_newline (ha : Accepted a tree) (hb : Accepted b more) :
    Accepted (a ++ Text.newline :: b) (tree ++ Stmt.mapLinesAll (shift a) more) := by
  have hs := Scan.ofSource_append_newline ha.scanned hb.scanned
  refine ⟨by rw [hs], ?_, ?_⟩
  · rw [hs, ← Token.untilEnd_fst]
    exact Parsed.ofTokens_append_of_eq (shift a) ha.parsed hb.parsed (Scan.tokensFrom_ne_nil _ _)
  · rw [Resolved.ofProgram_append_mapLines, ha.resolved, hb.resolved]
    rfl

theorem Accepted.ofSource_eq (h : Accepted a tree) :
    Program.ofSource a = .ok (Resolved.ofProgram tree).program := by
  unfold Program.ofSource Program.ofSourceWith Program.address
  simp only [h.scanned, h.parsed, h.resolved, List.append_nil]

/-- The program of two sources on successive lines. -/
theorem ofSource_append_newline {program program' : Program Address}
    (ha : Program.ofSource a = .ok program) (hb : Program.ofSource b = .ok program') :
    Program.ofSource (a ++ Text.newline :: b) =
      .ok (program ++ Stmt.mapLinesAll (shift a) program') := by
  obtain ⟨tree, hta, rfl⟩ := Accepted.of_ofSource ha
  obtain ⟨more, htb, rfl⟩ := Accepted.of_ofSource hb
  rw [(hta.append_newline htb).ofSource_eq, Resolved.ofProgram_append_mapLines]

end Program

end Lox
