import Lox.Proofs.Grammar.Totality

/-!
# A statement without its semicolon

What the parser makes of a program whose last `print` or expression statement lacks its semicolon
when a word that starts another statement follows. The missing semicolon is reported at that word,
and recovery drops the word itself before it looks for a boundary: reading resumes behind it, so the
statement that the word starts is lost.
-/

namespace Lox

/-- What is missing where the semicolon of a statement is left out: known for the statements that
are an expression up to their semicolon. -/
def Stmt.terminator? {ρ : Type} : Stmt ρ → Option Expected
  | .print _ => some .printEnd
  | .expression _ => some .expressionEnd
  | _ => none

/-! ### Rules that are sure to fail -/

namespace Parse

variable {α β : Type}

/-- A rule that reads `ts` and then bails out for want of `what`, before any token whose kind
satisfies `F`. -/
def Stumbles (n : Nat) (g : Bool) (p : Parse α) (ts : List Token) (what : Expected)
    (F : TokenKind → Prop) : Prop :=
  ∀ ⦃c : Cursor⦄ ⦃k : List Token⦄, c.Closed → c.grouped = g → c.depth + n ≤ maxNesting →
    c.rest = ts ++ k → F (Token.next k) → p c = fail what { c with rest := k }

namespace Stumbles

variable {n : Nat} {g : Bool} {p : Parse α} {f : α → Parse β} {a : α} {t : Token}
  {ts ts' : List Token} {what : Expected} {F F' : TokenKind → Prop}

theorem congr {q : Parse α} (h : Stumbles n g q ts what F)
    (hq : ∀ c : Cursor, c.Closed → c.grouped = g → p c = q c) : Stumbles n g p ts what F := by
  intro c k hc hg hd hr hk
  rw [hq c hc hg]
  exact h hc hg hd hr hk

/-- A rule that succeeds, then one that fails. -/
theorem bind (hp : Reads n g p ts a F') (hf : Stumbles n g (f a) ts' what F)
    (hF : ∀ k, F (Token.next k) → F' (Token.next (ts' ++ k))) :
    Stumbles n g (p >>= f) (ts ++ ts') what F := by
  intro c k hc hg hd hr hk
  have h := hp.eq_ok hc hg hd (k := ts' ++ k) (by rw [hr, List.append_assoc]) (hF k hk)
  rw [bind_apply, h]
  exact hf hc hg hd rfl hk

/-- The token that is wanted does not follow. -/
theorem consume {kind : TokenKind} {f : Token → Parse β} (hF : ∀ κ, F κ → κ ≠ kind) :
    Stumbles n g (consume kind what >>= f) [] what F := by
  intro c k hc hg hd hr hk
  obtain ⟨rest, stop, grouped, depth, faults⟩ := c
  have hr : rest = k := hr
  subst hr
  cases rest with
  | nil => rfl
  | cons t k =>
    have hne : t.kind ≠ kind := hF _ hk
    simp [Parse.consume, bind_apply, Parse.accept, hne, fail]

/-- A rule that succeeds, then a token that is wanted and does not follow. -/
theorem bind_consume {kind : TokenKind} {f : α → Token → Parse β} (hp : Reads n g p ts a F')
    (hF : ∀ κ, F κ → F' κ ∧ κ ≠ kind) :
    Stumbles n g (p >>= fun a => Parse.consume kind what >>= f a) ts what F := by
  have hc : Stumbles n g (Parse.consume kind what >>= f a) [] what F :=
    consume fun κ hκ => (hF κ hκ).2
  have h := bind (f := fun a => Parse.consume kind what >>= f a) hp hc fun k hk => (hF _ hk).1
  rwa [List.append_nil] at h

theorem peek {f : Token → Parse β} (h : Stumbles n g (f t) (t :: ts) what F) :
    Stumbles n g (peek >>= f) (t :: ts) what F := by
  intro c k hc hg hd hr hk
  change f c.peek c = _
  rw [Cursor.peek_cons hr]
  exact h hc hg hd hr hk

theorem advance {f : Unit → Parse β} (h : Stumbles n g (f ()) ts what F) :
    Stumbles n g (advance >>= f) (t :: ts) what F := by
  intro c k hc hg hd hr hk
  have hc' : Cursor.Closed { c with rest := c.rest.tail } := hc
  exact h hc' hg hd (by simp [hr]) hk

theorem checkSecond_false {kind : TokenKind} {f : Bool → Parse β} {s : Token}
    (h : Stumbles n g (f false) (t :: s :: ts) what F) (hs : s.kind ≠ kind) :
    Stumbles n g (checkSecond kind >>= f) (t :: s :: ts) what F := by
  intro c k hc hg hd hr hk
  rw [← h hc hg hd hr hk, bind_apply]
  rw [List.cons_append, List.cons_append] at hr
  simp only [Parse.checkSecond, hr, hs, decide_false]

/-- One level deeper, which takes one off the room. -/
theorem nested (h : Stumbles n g p ts what F) : Stumbles (n + 1) g (nested p) ts what F := by
  intro c k hc hg hd hr hk
  have hdepth : ¬ maxNesting ≤ c.depth := by omega
  have hc' : Cursor.Closed { c with depth := c.depth + 1 } := hc
  have := h hc' hg (by simp only; omega) hr hk
  unfold Parse.nested
  rw [if_neg hdepth, this]
  rfl

/-- Recovery after the failure: no value, and reading resumes at the next boundary. -/
theorem recovering (h : Stumbles n g p ts what F) {c : Cursor} {k : List Token} (hc : c.Closed)
    (hg : c.grouped = g) (hd : c.depth + n ≤ maxNesting) (hr : c.rest = ts ++ k)
    (hk : F (Token.next k)) :
    recovering p c = .ok none
      (Cursor.synchronize (Cursor.report { c with rest := k } (Cursor.peek { c with rest := k })
        (.expected what))) := by
  unfold Parse.recovering
  rw [h hc hg hd hr hk]
  rfl

end Stumbles

end Parse

/-! ### The last statement -/

namespace Grammar

open Parse

/-- What may follow a statement without its semicolon so that the semicolon is found missing. -/
def Interrupts (κ : TokenKind) : Prop := 10 ≤ κ.strength false ∧ κ ≠ .semicolon

theorem interrupts_of_isBoundary {t : Token} (h : Cursor.isBoundary t = true) :
    Interrupts t.kind := by
  unfold Cursor.isBoundary at h
  unfold Interrupts
  cases hk : t.kind <;> rw [hk] at h <;> first | decide | cases h

variable {n : Nat} {ts : List Token} {e : Expr Unit} {t : Token}

theorem print_stumbles (ht : t.kind = .printKw)
    (h : Reads n false Rules.full.expression ts e fun κ => 10 ≤ κ.strength false) :
    Stumbles (n + 1) false Rules.full.statement (t :: ts) .printEnd Interrupts := by
  refine .congr (.nested (.peek ?_)) fun c hc hg => Rules.full_statement hc hg
  simp only [ht]
  exact .advance (.bind_consume h fun κ hκ => hκ)

theorem simple_stumbles (ho : Opens TokenKind.startsExpression ts)
    (h : Reads n false Rules.full.expression ts e fun κ => 10 ≤ κ.strength false) :
    Stumbles (n + 1) false Rules.full.statement ts .expressionEnd Interrupts := by
  refine .congr (.nested ?_) fun c hc hg => Rules.full_statement hc hg
  obtain ⟨t, k, rfl, ht, -⟩ := ho
  refine .peek ?_
  split
  case h_8 => exact .bind_consume h fun κ hκ => hκ
  all_goals next hk => rw [hk] at ht; cases ht

/-- A statement in the place of a declaration. -/
theorem declaration_recovers {what : Expected} (ho : Opens TokenKind.startsStatement ts)
    (h : Stumbles n false Rules.full.statement ts what Interrupts) {c : Cursor} {k : List Token}
    (hc : c.Closed) (hg : c.grouped = false) (hd : c.depth + n ≤ maxNesting)
    (hr : c.rest = ts ++ k) (hk : Interrupts (Token.next k)) :
    Rules.full.declaration c = .ok none
      (Cursor.synchronize (Cursor.report { c with rest := k } (Cursor.peek { c with rest := k })
        (.expected what))) := by
  rw [Rules.full_declaration hc hg]
  refine Stumbles.recovering ?_ hc hg hd hr hk
  obtain ⟨t, k, rfl, ht, hfun⟩ := ho
  refine .peek ?_
  split
  · next hk => rw [hk] at ht; cases ht
  · next hk => rw [hk] at ht; cases ht
  · next hk => rw [hk] at ht; cases ht
  · next hk =>
    -- the word `fun` starts an expression here, so no name follows it
    cases k with
    | nil => cases hfun hk
    | cons s k =>
      have hs : s.kind = .leftParen := hfun hk
      exact .checkSecond_false h (by simp [hs])
  · exact h

/-- A statement that is an expression up to its semicolon: without the semicolon its rule fails. -/
theorem Derives.stumbles {o : Bool} {s : Stmt Unit} {what : Expected}
    (h : Derives n false (.statement o) ts (.stmt s)) (hs : s.terminator? = some what) :
    ∃ ts' semi, ts = ts' ++ [semi] ∧ Opens TokenKind.startsStatement ts' ∧
      Stumbles n false Rules.full.statement ts' what Interrupts := by
  generalize hsym : Symbol.statement o = symbol, hphrase : Phrase.stmt s = phrase at h
  cases h with
  | @expression m _ ts s' h =>
    cases hphrase
    cases h with
    | @simple _ _ ts' e semi he hsemi =>
      cases hs
      have ho : Opens TokenKind.startsExpression ts' := he.opens
      exact ⟨ts', semi, rfl, ho.mono startsStatement_of_startsExpression,
        simple_stumbles ho (Recognised.expression_reads he.recognised)⟩
  | @print m _ t ts' e semi ht he hsemi =>
    cases hphrase
    cases hs
    exact ⟨t :: ts', semi, rfl, ⟨t, ts', rfl, by rw [ht]; rfl, fun hf => by rw [ht] at hf; cases hf⟩,
      print_stumbles ht (Recognised.expression_reads he.recognised)⟩
  | @forLoop _ _ _ _ _ _ i _ _ _ _ inc =>
    cases hphrase
    cases i <;> cases inc <;> cases hs
  | block | ifThen | ifElse | whileLoop | ret | brk =>
    cases hphrase
    cases hs
  | _ => cases hsym

/-- A declaration that ends in such a statement: without the semicolon it recovers, and reading
resumes at the boundary after the token that follows. -/
theorem Derives.unterminated {s : Stmt Unit} {what : Expected}
    (h : Derives n false .declaration ts (.stmt s)) (hs : s.terminator? = some what) :
    ∃ ts' semi, ts = ts' ++ [semi] ∧ Opens TokenKind.startsStatement ts' ∧
      ∀ ⦃c : Cursor⦄ ⦃k : List Token⦄, c.Closed → c.grouped = false → c.depth + n ≤ maxNesting →
        c.rest = ts' ++ k → Interrupts (Token.next k) →
          Rules.full.declaration c = .ok none
            (Cursor.synchronize (Cursor.report { c with rest := k }
              (Cursor.peek { c with rest := k }) (.expected what))) := by
  generalize hphrase : Phrase.stmt s = phrase at h
  cases h with
  | statement h =>
    cases hphrase
    obtain ⟨ts', semi, hts, ho, hstumbles⟩ := h.stumbles hs
    exact ⟨ts', semi, hts, ho, fun c k hc hg hd hr hk =>
      declaration_recovers ho hstumbles hc hg hd hr hk⟩
  | varDecl _ h =>
    cases hphrase
    cases h <;> cases hs
  | funDecl | classDecl | subclassDecl | importDecl | importAs =>
    cases hphrase
    cases hs

/-! ### After recovery -/

/-- Once the first declaration has been given up, the rest is read as if it stood alone. -/
theorem readAll_resumes {rest k : List Token} {stop : Token} {fs : List Diagnostic}
    (hs : stop.kind = .eof) (hne : rest ≠ []) (hk : k.length < rest.length)
    (h : Rules.full.declaration { rest, stop } = .ok none { rest := k, stop, faults := fs }) :
    (readAll k stop).Matches (.after id stop fs) .loose (Stmt.mapLinesAll id · ++ [])
      { rest := k, stop } (readAll rest stop) := by
  obtain ⟨t, budget, rfl⟩ := List.exists_cons_of_ne_nil hne
  have hb : k.length ≤ budget.length := Nat.le_of_lt_succ hk
  have hdepth : Rules.depthFor k.length ≤ Rules.depthFor (t :: budget).length := by
    unfold Rules.depthFor
    omega
  have he : readAll (t :: budget) stop =
      iterate (programRound (.upTo (Rules.depthFor (t :: budget).length))) budget
        (Stmt.mapLinesAll id [] ++ [])
        ((Splice.after id stop fs).cursor { rest := k, stop }) := by
    have h : (Rules.upTo (Rules.depthFor (t :: budget).length)).declaration
        { rest := t :: budget, stop } = .ok none { rest := k, stop, faults := fs } := h
    rw [readAll, many, iterate_programRound_cons hne h]
    simp [Splice.after, Splice.cursor, Token.mapLine_id]
  rw [he]
  exact (Parse.Tracks.iterate (programRound_tracks (Rules.upTo_tracks (.after id stop fs) hdepth) [])
    hb [] { rest := k, stop } (Splice.after_admits (c := { rest := k, stop }) id fs hs)).sim

end Grammar

/-- Tokens without an end mark get one on the line of their last token. -/
theorem Token.untilEnd_eq_endMark {tokens : List Token} (h : ∀ t ∈ tokens, t.kind ≠ .eof) :
    Token.untilEnd tokens = (tokens, Token.endMark tokens) := by
  rcases Token.untilEnd_cases tokens with ⟨after, ha⟩ | ⟨-, hu⟩
  · have hmem : (Token.untilEnd tokens).2 ∈ (Token.untilEnd tokens).1 ++
        (Token.untilEnd tokens).2 :: after := List.mem_append_right _ List.mem_cons_self
    rw [← ha] at hmem
    exact absurd (Token.untilEnd_kind tokens) (h _ hmem)
  · exact hu

/-- The mark of tokens at the end of others is the mark of all of them. -/
theorem Token.endMark_of_suffix {tokens k : List Token} (hk : k <:+ tokens) (hne : k ≠ []) :
    Token.endMark k = Token.endMark tokens := by
  obtain ⟨before, rfl⟩ := hk
  obtain ⟨t, ht⟩ : ∃ t, k.getLast? = some t := Option.ne_none_iff_exists'.mp (by simpa using hne)
  unfold Token.endMark
  rw [List.getLast?_append, ht]
  rfl

/-- A parse whose first declaration was given up with one problem: the rest is parsed as if it stood
alone. -/
theorem Parsed.ofTokens_resumes {tokens k : List Token} {d : Diagnostic}
    (ht : ∀ t ∈ tokens, t.kind ≠ .eof) (hk : k <:+ tokens) (hlen : k.length < tokens.length)
    (h : Rules.full.declaration { rest := tokens, stop := Token.endMark tokens } =
      .ok none { rest := k, stop := Token.endMark tokens, faults := [d] }) :
    Parsed.ofTokens tokens =
      ⟨(Parsed.ofTokens k).program, d :: (Parsed.ofTokens k).faults⟩ := by
  have hstop : (Token.endMark tokens).kind = .eof := rfl
  have hne : tokens ≠ [] := List.ne_nil_of_length_pos (Nat.lt_of_le_of_lt (Nat.zero_le _) hlen)
  have hm := Grammar.readAll_resumes hstop hne hlen h
  have hpt := Parsed.ofTokens_eq tokens
  rw [Token.untilEnd_eq_endMark ht] at hpt
  have hpk := Parsed.ofTokens_eq k
  rw [Token.untilEnd_eq_endMark fun t hkt => ht t (hk.subset hkt)] at hpk
  dsimp only at hpt hpk
  generalize Grammar.readAll tokens (Token.endMark tokens) = o at hm hpt
  rcases Grammar.readAll_cases k hstop with ⟨ss, fs, hq, -, -⟩ | ⟨c, hq, -⟩
  · have hpk : Parsed.ofTokens k = ⟨ss.reverse, fs.reverse⟩ := by
      by_cases hk0 : k = []
      · -- no token is left, and the end mark is not read
        subst hk0
        cases hq
        rfl
      · rw [hpk, Token.endMark_of_suffix hk hk0, hq]
    rw [hq] at hm
    cases hm with
    | ok _ =>
      rw [hpt, hpk]
      simp [Splice.after, Splice.cursor]
    | early _ h0 => exact absurd rfl h0
    | lost hl => exact absurd hl Splice.not_lost_after
  · have hk0 : k ≠ [] := by
      rintro rfl
      cases hq
    rw [Token.endMark_of_suffix hk hk0, hq] at hpk
    rw [hq] at hm
    cases hm with
    | abort _ =>
      rw [hpt, hpk]
      simp [Splice.after, Splice.cursor]
    | lost hl => exact absurd hl Splice.not_lost_after

/-- A statement that lacks its semicolon before a word that starts another one: the semicolon is
reported at the word, and what follows is what is found from the next boundary on. -/
theorem Parsed.ofTokens_recovers {n : Nat} {ts more : List Token} {k : Token} {what : Expected}
    (hn : n ≤ maxNesting) (ht : ∀ t ∈ ts ++ k :: more, t.kind ≠ .eof)
    (h : ∀ ⦃c : Cursor⦄ ⦃k : List Token⦄, c.Closed → c.grouped = false →
      c.depth + n ≤ maxNesting → c.rest = ts ++ k → Grammar.Interrupts (Token.next k) →
        Rules.full.declaration c = .ok none
          (Cursor.synchronize (Cursor.report { c with rest := k }
            (Cursor.peek { c with rest := k }) (.expected what))))
    (hk : Cursor.isBoundary k = true) :
    Parsed.ofTokens (ts ++ k :: more) =
      ⟨(Parsed.ofTokens (Cursor.skipFrom k more)).program,
        .atToken k (.grammar (.expected what)) ::
          (Parsed.ofTokens (Cursor.skipFrom k more)).faults⟩ := by
  have hskip : Cursor.skipFrom k more <:+ ts ++ k :: more :=
    ((Cursor.skipFrom_suffix k more).trans (List.suffix_cons k more)).trans
      (List.suffix_append ts _)
  have hlen : (Cursor.skipFrom k more).length < (ts ++ k :: more).length := by
    have := Cursor.length_skipFrom_le k more
    rw [List.length_append, List.length_cons]
    omega
  exact Parsed.ofTokens_resumes ht hskip hlen
    (h (c := { rest := ts ++ k :: more, stop := Token.endMark (ts ++ k :: more) }) rfl rfl
      (by simpa using hn) rfl (Grammar.interrupts_of_isBoundary hk))

/-- Tokens after a program without problems: what is found in them is what is found without it. -/
theorem Parsed.ofTokens_append_of_derives {ts second : List Token} {ss : List (Stmt Unit)}
    (h : Grammar.Derives maxNesting false .declarations ts (.stmts ss))
    (hs : (Token.untilEnd second).1 ≠ []) (he : ¬ Token.Heads .elseKw second) :
    Parsed.ofTokens (ts ++ second) =
      { program := if (Parsed.ofTokens second).gaveUp then []
          else ss ++ (Parsed.ofTokens second).program
        faults := (Parsed.ofTokens second).faults } := by
  have hfirst : Parsed.ofTokens ts = ⟨ss, []⟩ := by
    rw [← Parsed.ofTokens_cut, Token.cut_eq, Token.untilEnd_eq_endMark h.kind_ne_eof]
    exact Parsed.ofTokens_of_derives h rfl
  have hnone : (Parsed.ofTokens ts).faults = [] := by rw [hfirst]
  have hall := Parsed.ofTokens_append_mapLine id hs he (by simp [hnone]) (.inl hnone)
  rw [hfirst, Token.untilEnd_of_kind_ne_eof h.kind_ne_eof] at hall
  simpa using hall

/-- A `print` or expression statement at the end of a program without problems that lacks its
semicolon, before a word that starts another statement. The missing semicolon is reported at that
word. The word is dropped with all up to the next boundary, and what is found from there on is what
is found there without the program before. -/
theorem Parsed.ofTokens_unterminated {before more : List Token} {semi k : Token} {s : Stmt Unit}
    {what : Expected} (hb : ∀ t ∈ before ++ [semi], t.kind ≠ .eof)
    (hf : (Parsed.ofTokens (before ++ [semi])).faults = [])
    (hl : (Parsed.ofTokens (before ++ [semi])).program.getLast? = some s)
    (hs : s.terminator? = some what) (hk : Cursor.isBoundary k = true)
    (hm : ∀ t ∈ k :: more, t.kind ≠ .eof) :
    (Parsed.ofTokens (before ++ k :: more)).faults =
        .atToken k (.grammar (.expected what)) ::
          (Parsed.ofTokens (Cursor.skipFrom k more)).faults ∧
      (Parsed.ofTokens (before ++ k :: more)).program =
        if (Parsed.ofTokens (Cursor.skipFrom k more)).gaveUp then []
        else (Parsed.ofTokens (before ++ [semi])).program.dropLast ++
          (Parsed.ofTokens (Cursor.skipFrom k more)).program := by
  obtain ⟨program, hprogram⟩ : ∃ program, Parsed.ofTokens (before ++ [semi]) = ⟨program, []⟩ :=
    ⟨_, by rw [← hf]⟩
  have hd := Grammar.Derives.of_parsed hprogram
  rw [Token.untilEnd_of_kind_ne_eof hb] at hd
  rw [hprogram] at hl ⊢
  generalize htokens : before ++ [semi] = tokens at hd
  cases hd with
  | noDeclarations => cases hl
  | @declaration _ _ ts ss ts' s' hds hd =>
    rw [List.getLast?_concat] at hl
    cases hl
    rw [List.dropLast_concat]
    obtain ⟨us, semi', rfl, ho, hrecovers⟩ := hd.unterminated hs
    rw [← List.append_assoc] at htokens
    obtain ⟨rfl, -⟩ := List.append_inj' htokens rfl
    have hus : ∀ t ∈ us ++ k :: more, t.kind ≠ .eof := by
      intro t ht
      rcases List.mem_append.mp ht with h | h
      · exact hb t (by simp [h])
      · exact hm t h
    have hne : (Token.untilEnd (us ++ k :: more)).1 ≠ [] := by
      simp [Token.untilEnd_of_kind_ne_eof hus]
    have helse : ¬ Token.Heads .elseKw (us ++ k :: more) := by
      obtain ⟨t, us, rfl, ht, -⟩ := ho
      rintro ⟨u, _, hu, hkind⟩
      cases hu
      rw [hkind] at ht
      cases ht
    have hproblem : (Diagnostic.atToken k (.grammar (.expected what))).problem ≠
        .grammar .tooMuchNesting := by
      intro h
      cases h
    rw [List.append_assoc, Parsed.ofTokens_append_of_derives hds hne helse,
      Parsed.ofTokens_recovers (Nat.le_refl _) hus hrecovers hk]
    simp [Parsed.gaveUp, hproblem]

/-- In `print nil print nil; print nil;` the second statement is lost and the third one kept. -/
theorem Parsed.ofTokens_unterminated_thrice :
    let token (kind : TokenKind) : Token := { kind, lexeme := [], line := 1 }
    let before := [.printKw, .nilKw].map token
    let more := [.nilKw, .semicolon, .printKw, .nilKw, .semicolon].map token
    (Cursor.skipFrom (token .printKw) more = [.printKw, .nilKw, .semicolon].map token) ∧
      (Parsed.ofTokens (before ++ token .printKw :: more)).faults =
          .atToken (token .printKw) (.grammar (.expected .printEnd)) ::
            (Parsed.ofTokens (Cursor.skipFrom (token .printKw) more)).faults ∧
        (Parsed.ofTokens (before ++ token .printKw :: more)).program =
          if (Parsed.ofTokens (Cursor.skipFrom (token .printKw) more)).gaveUp then []
          else (Parsed.ofTokens (before ++ [token .semicolon])).program.dropLast ++
            (Parsed.ofTokens (Cursor.skipFrom (token .printKw) more)).program :=
  ⟨by decide, Parsed.ofTokens_unterminated (by decide) (by decide) rfl rfl rfl (by decide)⟩

/-- In `print nil print nil;` nothing is kept, although nothing is wrong with the second
statement. -/
theorem Parsed.ofTokens_unterminated_twice :
    let token (kind : TokenKind) : Token := { kind, lexeme := [], line := 1 }
    let before := [.printKw, .nilKw].map token
    let second := [.printKw, .nilKw, .semicolon].map token
    (Parsed.ofTokens (before ++ [token .semicolon])).faults = [] ∧
      (Parsed.ofTokens second).faults = [] ∧ (Parsed.ofTokens second).program.length = 1 ∧
        (Parsed.ofTokens (before ++ second)).program = [] := by
  refine ⟨by decide, by decide, by decide, rfl⟩

end Lox
