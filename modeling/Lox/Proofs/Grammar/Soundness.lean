import Lox.Proofs.Grammar.Statement

/-!
# Soundness of the parser

A sequence of tokens in which the parser finds nothing wrong is derived by the grammar, and the
statements that the parser returns are the trees of the derivation.

## Design notes

Between two tokens at most five references are followed: declaration, statement, expression,
assignment, unary. The proof climbs these five for inputs of one length and starts again with the
next length, so six references for each token are always enough.
-/

namespace Lox

open Parse (Agree)

/-- Rules with references followed to every depth: each version is made from the one before. Of
declarations and statements inside lists and groups nothing is said. -/
structure Rules.Unfolds (F : Nat → Rules) : Prop where
  unary : ∀ n, (F (n + 1)).unary = Grammar.unary (F n)
  assignment : ∀ n, (F (n + 1)).assignment = Grammar.assignment (F n)
  expression : ∀ n, (F (n + 1)).expression = Grammar.expression (F n)
  statement : ∀ n (c : Cursor), c.grouped = false →
    (F (n + 1)).statement c = Grammar.statement (F n) c
  declaration : ∀ n (c : Cursor), c.grouped = false →
    (F (n + 1)).declaration c = Grammar.declaration (F n) c

/-- Two depths that are enough for `n` tokens give rules that agree on such inputs. -/
theorem Rules.Unfolds.agree {F G : Nat → Rules} (hF : Unfolds F) (hG : Unfolds G) {n N M : Nat}
    (hN : 6 * n ≤ N) (hM : 6 * n ≤ M) : Rules.Agree n (F (N + 5)) (G (M + 5)) := by
  induction n using Nat.strongRecOn generalizing N M with
  | ind n ih =>
    -- a rule that has read a token starts over on a shorter input; one that has not needs a rule
    -- that is one deeper, and five such rules call each other before a token is read
    have hR : ∀ {N M}, 6 * n ≤ N → 6 * n ≤ M → ∀ m < n, Rules.Agree m (F N) (G M) := by
      intro N M hN hM m hm
      obtain ⟨N, rfl⟩ : ∃ N', N = N' + 5 := ⟨N - 5, by omega⟩
      obtain ⟨M, rfl⟩ : ∃ M', M = M' + 5 := ⟨M - 5, by omega⟩
      exact ih m hm (by omega) (by omega)
    have unary : ∀ {N M}, 6 * n ≤ N → 6 * n ≤ M → ∀ {c : Cursor}, c.Closed → c.rest.length ≤ n →
        Parse.Agree c (F (N + 1)).unary (G (M + 1)).unary (Grammar.ReadsAs c .unary) := by
      intro N M hN hM c hc hn
      rw [hF.unary, hG.unary]
      exact Grammar.unary_agree (hR hN hM) hc hn
    have assignment : ∀ {N M}, 6 * n ≤ N → 6 * n ≤ M → ∀ {c : Cursor}, c.Closed →
        c.rest.length ≤ n → Parse.Agree c (F (N + 2)).assignment (G (M + 2)).assignment
          (Grammar.ReadsOpen c .assignment) := by
      intro N M hN hM c hc hn
      rw [hF.assignment, hG.assignment]
      exact Grammar.assignment_agree (hR (by omega) (by omega)) (unary hN hM) hc hn
    have expression : ∀ {N M}, 6 * n ≤ N → 6 * n ≤ M → ∀ {c : Cursor}, c.Closed →
        c.rest.length ≤ n → Parse.Agree c (F (N + 3)).expression (G (M + 3)).expression
          (Grammar.ReadsExpression c) := by
      intro N M hN hM c hc hn
      rw [hF.expression, hG.expression]
      exact Grammar.expression_agree (assignment hN hM) hc hn
    have statement : ∀ {N M}, 6 * n ≤ N → 6 * n ≤ M → ∀ {c : Cursor}, c.Closed →
        c.grouped = false → c.rest.length ≤ n → Parse.Agree c (F (N + 4)).statement
          (G (M + 4)).statement (Grammar.ReadsStatement c) := by
      intro N M hN hM c hc hg hn
      rw [Parse.Agree, hF.statement _ c hg, hG.statement _ c hg]
      exact Grammar.statement_agree (hR (by omega) (by omega)) (expression hN hM) hc hg hn
    have next : ∀ {N : Nat} (k : Nat), 6 * n ≤ N → 6 * n ≤ N + k := fun k h => by omega
    refine ⟨unary (next 4 hN) (next 4 hM), assignment (next 3 hN) (next 3 hM),
      expression (next 2 hN) (next 2 hM), statement (next 1 hN) (next 1 hM), fun {c} hc hg hn => ?_⟩
    rw [Parse.Agree, hF.declaration _ c hg, hG.declaration _ c hg]
    exact Grammar.declaration_agree (hR (next 4 hN) (next 4 hM)) (statement hN hM) hc hg hn

theorem Rules.unfolds_upTo : Unfolds Rules.upTo :=
  ⟨fun _ => rfl, fun _ => rfl, fun _ => rfl, fun _ _ _ => rfl, fun _ _ _ => rfl⟩

theorem Rules.upTo_agree {n N M : Nat} (hN : 6 * n ≤ N) (hM : 6 * n ≤ M) :
    Rules.Agree n (Rules.upTo (N + 5)) (Rules.upTo (M + 5)) :=
  unfolds_upTo.agree unfolds_upTo hN hM

/-- The depth used for an input is deep enough for it. -/
theorem Rules.depthFor_agree (n : Nat) :
    Rules.Agree n (Rules.upTo (Rules.depthFor n)) (Rules.upTo (Rules.depthFor n)) := by
  have h : Rules.depthFor n = 6 * n + 7 + 5 := by
    unfold Rules.depthFor
    omega
  rw [h]
  exact Rules.upTo_agree (by omega) (by omega)

theorem Grammar.program_agree {n : Nat} {R R' : Rules} {c : Cursor} (hR : Rules.Agree n R R')
    (hc : c.Closed) (hg : c.grouped = false) (hn : c.rest.length ≤ n) :
    Agree c (Grammar.program R) (Grammar.program R') fun ts k fs ss => k = [] ∧
      (fs = [] → Derives c.room c.grouped .declarations ts (.stmts ss)) := by
  unfold Grammar.program
  refine .bind (S := fun ts k fs ss => k = [] ∧ (fs = [] →
    Derives c.room c.grouped .declarations ts (.stmts ss.reverse))) ?_ ?_
  · refine .many (fun ts _ fs ss => fs = [] →
      Derives c.room c.grouped .declarations ts (.stmts ss.reverse)) (fun _ => .noDeclarations) ?_
    intro ts k fs ss hr hI
    refine .atEnd ?_
    cases k with
    | nil =>
      refine .pure ⟨rfl, ?_⟩
      simpa using hI
    | cons t k =>
      -- a round reads one declaration, and one that is abandoned has been reported
      have hlen : (t :: k).length ≤ n := Token.length_le_of_append hr hn
      refine .bind (hR.declaration hc hg hlen) fun ts' k' fs' o _ ho => ?_
      cases o with
      | none =>
        refine .pure ⟨by simpa using ho.1, fun hfs => ?_⟩
        obtain ⟨s, h, -⟩ := ho.2 (by simp_all)
        cases h
      | some s =>
        refine .pure ⟨by simpa using ho.1, fun hfs => ?_⟩
        obtain ⟨s, h, hd⟩ := ho.2 (by simp_all)
        cases h
        simpa using (hI (by simp_all)).declaration hd
  · rintro ts k fs ss - ⟨hk, hI⟩
    refine .pure ⟨hk, fun hfs => ?_⟩
    simpa using hI (by simpa using hfs)

/-- The mark that ends the input is an end mark, also when there is none among the tokens. -/
theorem Token.untilEnd_kind (tokens : List Token) : (Token.untilEnd tokens).2.kind = .eof := by
  unfold Token.untilEnd
  dsimp only
  split
  · next stop after h =>
    have hs := List.head?_dropWhile_not (fun t : Token => decide (t.kind ≠ .eof)) tokens
    rw [h] at hs
    simpa using hs
  · rfl

/-- What stands before the end of the input are tokens of it. -/
theorem Token.untilEnd_subset (tokens : List Token) : (Token.untilEnd tokens).1 ⊆ tokens := by
  unfold Token.untilEnd
  dsimp only
  split <;> exact List.takeWhile_subset _

/-- The statements of a program with which the parser finds nothing wrong are derived. -/
theorem Grammar.Derives.of_parsed {tokens : List Token} {program : Program Unit}
    (h : Parsed.ofTokens tokens = ⟨program, []⟩) :
    Derives maxNesting false .declarations (Token.untilEnd tokens).1 (.stmts program) := by
  have hm := (Grammar.program_agree
    (c := { rest := (Token.untilEnd tokens).1, stop := (Token.untilEnd tokens).2 })
    (Rules.depthFor_agree _) (Token.untilEnd_kind tokens) rfl (Nat.le_refl _)).2
  unfold Parsed.ofTokens at h
  dsimp only at h hm
  generalize Grammar.program _ _ = o at h hm
  cases hm with
  | @ok ts k fs p hr hs =>
    obtain ⟨rfl, hd⟩ := hs
    have hr : (Token.untilEnd tokens).1 = ts := by simpa using hr
    obtain ⟨rfl, hf⟩ : p = program ∧ fs.reverse = [] := by simpa using h
    rw [hr]
    exact hd (by simpa using hf)
  | bail _ hf => simp_all
  | abort hf => simp_all

/-- If the parser reports nothing, the grammar derives the program it returns from the tokens before
the end mark. -/
theorem Parsed.derives_of_faults_eq_nil (tokens : List Token)
    (h : (Parsed.ofTokens tokens).faults = []) :
    Grammar.Derives maxNesting false .declarations (Token.untilEnd tokens).1
      (.stmts (Parsed.ofTokens tokens).program) :=
  .of_parsed (by rw [← h])

/-- A loop around a choice, with a list of arguments and tokens after the end mark. -/
theorem Parsed.derives_of_loop :
    let kinds : List TokenKind :=
      [.forKw, .leftParen, .semicolon, .semicolon, .rightParen, .ifKw, .leftParen, .identifier,
        .rightParen, .identifier, .equal, .identifier, .comma, .identifier, .leftParen, .identifier,
        .comma, .identifier, .question, .number, .colon, .identifier, .rightParen, .semicolon,
        .elseKw, .minus, .identifier, .dot, .identifier, .semicolon, .eof, .elseKw]
    let tokens := kinds.map fun kind => { kind, lexeme := [], line := 1 }
    (Parsed.ofTokens tokens).faults = [] ∧
      Grammar.Derives maxNesting false .declarations (Token.untilEnd tokens).1
        (.stmts (Parsed.ofTokens tokens).program) :=
  ⟨by decide, Parsed.derives_of_faults_eq_nil _ (by decide)⟩

end Lox
