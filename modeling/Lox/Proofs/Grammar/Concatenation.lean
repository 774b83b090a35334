import Lox.Proofs.Grammar.Completeness
import Lox.Proofs.Grammar.Transfer

/-!
# Parsing one program after another

What the parser finds in one sequence of tokens does not depend on what follows, nor on what came
before: after a program that is complete, the next one is read as if it stood alone, also where
something is wrong with either.

## Design notes

The proof reads the joined input in two comparisons. Up to the end of the first program it is
compared with the parse of that program alone; from there on with the parse of the second program
alone, whose problems are reported on top of those of the first.
-/

namespace Lox

/-! ### How programs end -/

namespace Grammar

/-- Whether the last token ends a statement or a body. -/
def Closes (ts : List Token) : Prop :=
  ∃ t ∈ ts.getLast?, t.kind = .semicolon ∨ t.kind = .rightBrace

theorem Closes.of_suffix {ts ts' : List Token} (h : Closes ts) (hs : ts <:+ ts') : Closes ts' := by
  obtain ⟨t, ht, hk⟩ := h
  obtain ⟨before, rfl⟩ := hs
  refine ⟨t, ?_, hk⟩
  rw [List.getLast?_append, ht]
  rfl

theorem closes_semicolon {t : Token} (h : t.kind = .semicolon) (before : List Token) :
    Closes (before ++ [t]) :=
  Closes.of_suffix ⟨t, rfl, .inl h⟩ (List.suffix_append before [t])

theorem closes_rightBrace {t : Token} (h : t.kind = .rightBrace) (before : List Token) :
    Closes (before ++ [t]) :=
  Closes.of_suffix ⟨t, rfl, .inr h⟩ (List.suffix_append before [t])

/-- What is known of the last token of a derivation from a symbol. -/
def Symbol.Closes : Symbol → List Token → Prop
  | .function | .variable | .simple | .statement _ | .declaration => Grammar.Closes
  | .declarations => fun ts => ts = [] ∨ Grammar.Closes ts
  | _ => fun _ => True

theorem Derives.closes {n : Nat} {g : Bool} {symbol : Symbol} {ts : List Token} {phrase : Phrase}
    (h : Derives n g symbol ts phrase) : symbol.Closes ts := by
  induction h with
  | @function _ _ ts _ r l ts' _ e _ _ _ _ he =>
    have h := closes_rightBrace he (ts ++ r :: l :: ts')
    rwa [List.append_assoc] at h
  | @unset _ _ m t _ ht => exact closes_semicolon ht [m]
  | @initialized _ _ m q ts _ t _ _ _ ht => exact closes_semicolon ht (m :: q :: ts)
  | @simple _ _ ts _ t _ ht => exact closes_semicolon ht ts
  | expression _ ih => exact ih
  | @print _ _ t ts _ r _ _ hr => exact closes_semicolon hr (t :: ts)
  | @block _ _ l ts _ r _ _ hr => exact closes_rightBrace hr (l :: ts)
  | @ifThen _ _ _ t l ts _ r _ _ _ _ _ _ _ _ ih | @whileLoop _ _ _ t l ts _ r _ _ _ _ _ _ _ _ ih =>
    exact Closes.of_suffix ih ⟨t :: l :: (ts ++ [r]), by simp⟩
  | @ifElse _ _ _ t l ts _ r ts₁ _ e _ _ _ _ _ _ _ _ _ _ _ ih =>
    exact Closes.of_suffix ih ⟨t :: l :: (ts ++ r :: (ts₁ ++ [e])), by simp⟩
  | @forLoop _ _ _ t l ts₁ _ ts₂ _ sep ts₃ _ r _ _ _ _ _ _ _ _ _ _ _ _ _ ih =>
    exact Closes.of_suffix ih ⟨t :: l :: (ts₁ ++ (ts₂ ++ sep :: (ts₃ ++ [r]))), by simp⟩
  | @ret _ _ t ts _ r _ _ hr => exact closes_semicolon hr (t :: ts)
  | @brk _ _ t r _ hr => exact closes_semicolon hr [t]
  | statement _ ih => exact ih
  | @varDecl _ _ t _ _ _ _ ih => exact Closes.of_suffix ih (List.suffix_append [t] _)
  | @funDecl _ _ t m l _ _ _ _ _ _ ih => exact Closes.of_suffix ih (List.suffix_append [t, m, l] _)
  | @classDecl _ _ t m l ts _ r _ _ _ _ hr => exact closes_rightBrace hr (t :: m :: l :: ts)
  | @subclassDecl _ _ t m less sup l ts _ r _ _ _ _ _ _ hr =>
    exact closes_rightBrace hr (t :: m :: less :: sup :: l :: ts)
  | @importDecl _ _ t path r _ _ hr => exact closes_semicolon hr [t, path]
  | @importAs _ _ t path as m r _ _ _ _ hr => exact closes_semicolon hr [t, path, as, m]
  | noDeclarations => exact .inl rfl
  | @declaration _ _ ts _ _ _ _ _ _ ih => exact .inr (Closes.of_suffix ih (List.suffix_append ts _))
  | _ => trivial

/-! ### Declarations one after another -/

open Parse (Tracks iterate)

variable {x : Splice} {R R' : Rules} {c : Cursor}

theorem iterate_programRound_nil (R : Rules) (budget : List Token) (ss : List (Stmt Unit))
    (hc : c.rest = []) : iterate (programRound R) budget ss c = .ok ss c := by
  have h : programRound R ss c = .ok none c := by
    simp [programRound, Parse.atEnd, Bind.bind, Parse.bind, Pure.pure, Parse.pure, hc]
  unfold iterate
  rw [h]

/-- Where something is left, a round reads one declaration. -/
theorem programRound_cons (R : Rules) (ss : List (Stmt Unit)) (hc : c.rest ≠ []) :
    programRound R ss c = match R.declaration c with
      | .ok o c => .ok (some (o.toList ++ ss)) c
      | .bail c => .bail c
      | .abort c => .abort c
      | .exhausted => .exhausted := by
  have he : c.rest.isEmpty = false := by simpa using hc
  simp only [programRound, declarationRound, Parse.atEnd, Bind.bind, Parse.bind, he,
    Bool.false_eq_true, if_false]
  cases R.declaration c with
  | ok o c₁ => cases o <;> rfl
  | bail c₁ => rfl
  | abort c₁ => rfl
  | exhausted => rfl

theorem iterate_programRound_of_ne (R : Rules) (budget : List Token) (ss : List (Stmt Unit))
    (hc : c.rest ≠ []) : iterate (programRound R) budget ss c = match R.declaration c with
      | .ok o c =>
        match budget with
        | [] => .exhausted
        | _ :: budget => iterate (programRound R) budget (o.toList ++ ss) c
      | .bail c => .bail c
      | .abort c => .abort c
      | .exhausted => .exhausted := by
  rw [Parse.iterate_eq]
  change Parse.bind _ _ c = _
  unfold Parse.bind
  rw [programRound_cons R ss hc]
  cases R.declaration c with
  | ok o c₁ => cases budget <;> rfl
  | bail c₁ => rfl
  | abort c₁ => rfl
  | exhausted => rfl

theorem iterate_programRound_cons {t : Token} {budget : List Token} {ss : List (Stmt Unit)}
    {o : Option (Stmt Unit)} {c₁ : Cursor} (hc : c.rest ≠ []) (h : R.declaration c = .ok o c₁) :
    iterate (programRound R) (t :: budget) ss c =
      iterate (programRound R) budget (o.toList ++ ss) c₁ := by
  rw [iterate_programRound_of_ne R _ ss hc, h]

/-- Declarations that are read to the end start with one that is read. -/
theorem exists_declaration {budget : List Token} {ss ss₁ : List (Stmt Unit)} {c₁ : Cursor}
    (hc : c.rest ≠ []) (h : iterate (programRound R) budget ss c = .ok ss₁ c₁) :
    ∃ t k o c₂, budget = t :: k ∧ R.declaration c = .ok o c₂ ∧
      iterate (programRound R) k (o.toList ++ ss) c₂ = .ok ss₁ c₁ := by
  rw [iterate_programRound_of_ne R budget ss hc] at h
  cases hd : R.declaration c with
  | ok o c₂ =>
    rw [hd] at h
    cases budget with
    | nil => cases h
    | cons t k => exact ⟨t, k, o, c₂, rfl, rfl, h⟩
  | bail c₂ => simp [hd] at h
  | abort c₂ => simp [hd] at h
  | exhausted => simp [hd] at h

theorem programRound_tracks (hR : Rules.Tracks x R R') (before ss : List (Stmt Unit)) :
    Tracks x .loose (Option.map (Stmt.mapLinesAll x.line · ++ before)) (programRound R ss)
      (programRound R' (Stmt.mapLinesAll x.line ss ++ before)) := by
  unfold programRound declarationRound
  refine .bind .atEnd fun e => ?_
  cases e with
  | true => exact .pure none
  | false =>
    refine .bind hR.declaration fun o => ?_
    cases o with
    | none => exact .pure (some ss)
    | some s => exact .pure (some (s :: ss))

/-- The first of two programs is read as if it stood alone, and the second one goes on from there
with enough of the budget left. -/
theorem iterate_splice (hR : Rules.Tracks x R R') {budget : List Token} {ss ss₁ : List (Stmt Unit)}
    {c₁ : Cursor} (hx : x.Admits c) (h : iterate (programRound R) budget ss c = .ok ss₁ c₁)
    (hl : ¬ x.Lost c₁.faults) {budget' : List Token}
    (hb : budget.length + x.more.length ≤ budget'.length) :
    ∃ k, x.more.length ≤ k.length ∧
      iterate (programRound R') budget' (Stmt.mapLinesAll x.line ss) (x.cursor c) =
        iterate (programRound R') k (Stmt.mapLinesAll x.line ss₁) (x.cursor c₁) := by
  induction budget generalizing budget' ss c with
  | nil =>
    by_cases hc : c.rest = []
    · rw [iterate_programRound_nil R [] ss hc] at h
      cases h
      exact ⟨budget', Nat.le_trans (Nat.le_add_left _ _) hb, rfl⟩
    · obtain ⟨t, k, -, -, hk, -⟩ := exists_declaration hc h
      cases hk
  | cons t budget ih =>
    by_cases hc : c.rest = []
    · rw [iterate_programRound_nil R _ ss hc] at h
      cases h
      exact ⟨budget', Nat.le_trans (Nat.le_add_left _ _) hb, rfl⟩
    · obtain ⟨t, k, o, c₂, hk, hd, h⟩ := exists_declaration hc h
      cases hk
      obtain ⟨hf, hs⟩ := hR.declaration c hx
      rw [hd] at hf hs
      -- what spoils the comparison now would spoil it at the end
      have hl₂ : ¬ x.Lost c₂.faults := by
        rintro ⟨d, hd, hsp⟩
        have hi := (Parse.Tracks.iterate (programRound_tracks (x := x) hR [])
          (Nat.le_refl budget.length) (o.toList ++ ss) c₂ (hx.leads hf)).follows
        rw [h] at hi
        rcases Outcome.Follows.mem_faults hi hd with hd | hd
        · exact hl ⟨d, hd, hsp⟩
        · cases hd
      obtain ⟨t', budget', rfl⟩ : ∃ t' b, budget' = t' :: b := by
        cases budget' with
        | nil => simp at hb
        | cons t' b => exact ⟨t', b, rfl⟩
      generalize ho' : R'.declaration (x.cursor c) = o' at hs
      cases hs with
      | ok _ =>
        have hc' : (x.cursor c).rest ≠ [] := by simp [Splice.cursor, hc]
        have hb' : budget.length + x.more.length ≤ budget'.length := by
          simp only [List.length_cons] at hb
          omega
        obtain ⟨k, hk, he⟩ := ih (hx.leads hf) h hb'
        refine ⟨k, hk, ?_⟩
        rw [iterate_programRound_cons hc' ho', ← he]
        cases o <;> rfl
      | early h0 => cases h0
      | lost hl => exact absurd hl hl₂

/-- A program is never bailed out of: every declaration recovers. -/
theorem iterate_ne_bail (N : Nat) (budget : List Token) (ss : List (Stmt Unit)) (c c₁ : Cursor) :
    iterate (programRound (.upTo N)) budget ss c ≠ .bail c₁ := by
  have hd : ∀ c c₁, (Rules.upTo N).declaration c ≠ .bail c₁ := by
    intro c c₁ h
    cases N with
    | zero => cases h
    | succ N =>
      have h : Parse.recovering _ c = .bail c₁ := h
      unfold Parse.recovering at h
      split at h <;> cases h
  induction budget generalizing ss c with
  | nil =>
    by_cases hc : c.rest = []
    · rw [iterate_programRound_nil _ _ ss hc]
      exact nofun
    · rw [iterate_programRound_of_ne _ _ ss hc]
      cases h : (Rules.upTo N).declaration c with
      | bail c₂ => exact absurd h (hd c c₂)
      | _ => exact nofun
  | cons t budget ih =>
    by_cases hc : c.rest = []
    · rw [iterate_programRound_nil _ _ ss hc]
      exact nofun
    · rw [iterate_programRound_of_ne _ _ ss hc]
      cases h : (Rules.upTo N).declaration c with
      | ok o c₂ => exact ih _ c₂
      | bail c₂ => exact absurd h (hd c c₂)
      | _ => exact nofun

end Grammar

/-! ### Whole programs -/

/-- What surrounds the second of two programs: the problems of the first one. -/
def Splice.after (f : Int → Int) (stop : Token) (faults : List Diagnostic) : Splice where
  line := f
  more := []
  stop := stop.mapLine f
  faults := faults
  Spoils := fun _ => False

theorem Splice.after_admits (f : Int → Int) (faults : List Diagnostic) {c : Cursor}
    (hc : c.Closed) : (Splice.after f c.stop faults).Admits c where
  closed := hc
  stop := fun _ => rfl
  atEnd := fun h => absurd rfl h
  nesting := fun h => absurd rfl h
  noElse := Token.not_heads_nil _
  last := fun h => absurd rfl h

theorem Splice.not_lost_after {f : Int → Int} {stop : Token} {faults ds : List Diagnostic} :
    ¬ (Splice.after f stop faults).Lost ds := by
  rintro ⟨d, -, hd⟩
  exact hd

/-- What surrounds the first of two programs: the tokens of the second one. Where it does not end in
a semicolon, it has to be without problems. -/
def Splice.before (first second : List Token) (stop : Token) : Splice where
  line := id
  more := second
  stop := stop
  faults := []
  Spoils := fun d => d.place = .atEnd ∨ d.problem = .grammar .tooMuchNesting ∨
    ¬ ∃ t ∈ first.getLast?, t.kind = .semicolon

namespace Grammar

/-- The parse of some tokens up to a mark that ends them; the statements are latest first. -/
def readAll (rest : List Token) (stop : Token) : Outcome (List (Stmt Unit)) :=
  Parse.many (programRound (.upTo (Rules.depthFor rest.length))) [] { rest, stop }

theorem program_eq_readAll (rest : List Token) (stop : Token) :
    program (.upTo (Rules.depthFor rest.length)) { rest, stop } =
      match readAll rest stop with
      | .ok ss c => .ok ss.reverse c
      | .bail c => .bail c
      | .abort c => .abort c
      | .exhausted => .exhausted := by
  rw [program_eq]
  change Parse.bind (Parse.many (programRound _) []) (fun ss => pure ss.reverse) _ = _
  unfold Parse.bind
  rw [← readAll]
  cases readAll rest stop <;> rfl

/-- A parse reads all tokens, or is given up because the nesting is too deep. -/
theorem readAll_cases (rest : List Token) {stop : Token} (hs : stop.kind = .eof) :
    (∃ ss fs, readAll rest stop = .ok ss { rest := [], stop, faults := fs } ∧
      (∀ d ∈ fs, d.problem ≠ .grammar .tooMuchNesting) ∧
      (fs = [] → Derives maxNesting false .declarations rest (.stmts ss.reverse))) ∨
    ∃ c, readAll rest stop = .abort c ∧ ∃ d ∈ c.faults, d.problem = .grammar .tooMuchNesting := by
  have hm := (program_agree (c := { rest, stop }) (Rules.depthFor_agree rest.length) hs rfl
    (Nat.le_refl _)).2
  have hf := (Parse.Tracks.many (programRound_tracks (Rules.upTo_tracks (.after id stop [])
    (Nat.le_refl (Rules.depthFor rest.length))) []) [] { rest, stop }
    (Splice.after_admits (c := { rest, stop }) id [] hs)).follows
  have hb : ∀ c₁, readAll rest stop ≠ .bail c₁ := iterate_ne_bail _ rest [] _
  change Outcome.Follows _ (readAll rest stop) at hf
  rw [program_eq_readAll] at hm
  cases h : readAll rest stop with
  | ok ss c =>
    rw [h] at hm hf
    generalize ho : Outcome.ok ss.reverse c = o at hm
    cases hm with
    | @ok ts k fs a hr hd =>
      cases ho
      obtain ⟨rfl, hd⟩ := hd
      have hr : rest = ts := by simpa using hr
      obtain ⟨fs', hfs, hn⟩ := hf.faults
      have hfs : fs = fs' := by simpa using hfs
      subst hr hfs
      exact .inl ⟨ss, fs, by simp, hn, hd⟩
  | bail c => exact absurd h (hb c)
  | abort c =>
    rw [h] at hf
    obtain ⟨c₁, -, rfl⟩ := hf
    exact .inr ⟨_, rfl, _, List.mem_cons_self, rfl⟩
  | exhausted =>
    rw [h] at hm
    cases hm

section

variable {first second : List Token} {stop₁ stop₂ : Token} {ss₁ : List (Stmt Unit)}
variable {fs₁ : List Diagnostic}

theorem before_admits (f : Int → Int) (stop₂ : Token) (h₁ : stop₁.kind = .eof) (hm : second ≠ [])
    (he : ¬ Token.Heads .elseKw second)
    (hp : readAll first stop₁ = .ok ss₁ { rest := [], stop := stop₁, faults := fs₁ })
    (hl : fs₁ = [] ∨ ∃ t ∈ first.getLast?, t.kind = .semicolon) :
    (Splice.before first (second.map (Token.mapLine f)) stop₂).Admits
      { rest := first, stop := stop₁ } where
  closed := h₁
  stop := fun h => absurd (List.map_eq_nil_iff.mp h) hm
  atEnd := fun _ p => .inl (by simp [Diagnostic.atToken, h₁])
  nesting := fun _ t => .inr (.inl rfl)
  noElse := by
    rintro ⟨t, k, ht, hk⟩
    obtain ⟨t', k', rfl, rfl, -⟩ := List.map_eq_cons_iff.mp ht
    exact he (Token.heads_cons.mpr hk)
  last := by
    intro _ t ht
    by_cases hk : t.kind = .semicolon
    · exact ⟨by simp [hk], .inl hk⟩
    · have hsemi : ¬ ∃ t ∈ first.getLast?, t.kind = .semicolon := by
        rintro ⟨t', ht', hk'⟩
        rw [Option.mem_unique ht' ht] at hk'
        exact hk hk'
      refine ⟨?_, .inr fun d => .inr (.inr hsemi)⟩
      -- nothing is wrong with these tokens, so they end in a closing brace
      have hfs : fs₁ = [] := hl.resolve_right hsemi
      rcases readAll_cases first h₁ with ⟨ss, fs, h, -, hd⟩ | ⟨c, h, -⟩
      · rw [hp] at h
        cases h
        rcases (hd hfs).closes with h0 | ⟨t', ht', hk'⟩
        · rw [h0] at ht
          cases ht
        · rw [Option.mem_unique ht' ht] at hk'
          rcases hk' with hk' | hk'
          · exact absurd hk' hk
          · simp [hk']
      · rw [hp] at h
        cases h

/-- After a program that is complete, the next one is read as if it stood alone. -/
theorem readAll_append (f : Int → Int) (h₁ : stop₁.kind = .eof) (h₂ : stop₂.kind = .eof)
    (hm : second ≠ []) (he : ¬ Token.Heads .elseKw second)
    (hp : readAll first stop₁ = .ok ss₁ { rest := [], stop := stop₁, faults := fs₁ })
    (hd : ∀ d ∈ fs₁, d.place ≠ .atEnd ∧ d.problem ≠ .grammar .tooMuchNesting)
    (hl : fs₁ = [] ∨ ∃ t ∈ first.getLast?, t.kind = .semicolon) :
    (readAll second stop₂).Matches (.after f stop₂ fs₁) .loose (Stmt.mapLinesAll f · ++ ss₁)
      { rest := second, stop := stop₂ }
      (readAll (first ++ second.map (Token.mapLine f)) (stop₂.mapLine f)) := by
  have hx := before_admits f (stop₂.mapLine f) h₁ hm he hp hl
  have hlost :
      ¬ (Splice.before first (second.map (Token.mapLine f)) (stop₂.mapLine f)).Lost fs₁ := by
    rintro ⟨d, hdm, hs | hs | hs⟩
    · exact (hd d hdm).1 hs
    · exact (hd d hdm).2 hs
    · rw [hl.resolve_right hs] at hdm
      cases hdm
  have hlen : (first ++ second.map (Token.mapLine f)).length = first.length + second.length := by
    simp
  have hdepth : ∀ {n}, n ≤ first.length + second.length →
      Rules.depthFor n ≤ Rules.depthFor (first ++ second.map (Token.mapLine f)).length := by
    intro n h
    rw [hlen]
    unfold Rules.depthFor
    omega
  -- up to the end of the first program
  have hbudget : first.length + (second.map (Token.mapLine f)).length ≤
      (first ++ second.map (Token.mapLine f)).length := Nat.le_of_eq List.length_append.symm
  obtain ⟨k, hk, heq⟩ := iterate_splice (Rules.upTo_tracks _ (hdepth (Nat.le_add_right _ _))) hx hp
    hlost hbudget
  -- and on from there
  have hk : second.length ≤ k.length := by simpa [Splice.before] using hk
  have h := (Parse.Tracks.iterate (programRound_tracks (Rules.upTo_tracks (.after f stop₂ fs₁)
    (hdepth (Nat.le_add_left _ _))) ss₁) hk [] { rest := second, stop := stop₂ }
    (Splice.after_admits (c := { rest := second, stop := stop₂ }) f fs₁ h₂)).sim
  have he : readAll (first ++ second.map (Token.mapLine f)) (stop₂.mapLine f) =
      Parse.iterate (programRound (.upTo (Rules.depthFor
        (first ++ second.map (Token.mapLine f)).length))) k (Stmt.mapLinesAll f [] ++ ss₁)
        ((Splice.after f stop₂ fs₁).cursor { rest := second, stop := stop₂ }) := by
    simpa [readAll, Parse.many, Splice.before, Splice.after, Splice.cursor] using heq
  rw [he]
  exact h

end

end Grammar

/-- Whether a parse was given up because the nesting was too deep. -/
def Parsed.gaveUp (p : Parsed) : Bool := p.faults.any (·.problem = .grammar .tooMuchNesting)

/-- A parse in terms of the outcome of reading all tokens. -/
theorem Parsed.ofTokens_eq (tokens : List Token) :
    Parsed.ofTokens tokens =
      match Grammar.readAll (Token.untilEnd tokens).1 (Token.untilEnd tokens).2 with
      | .ok ss c => ⟨ss.reverse, c.faults.reverse⟩
      | .bail c => ⟨[], c.faults.reverse⟩
      | .abort c => ⟨[], c.faults.reverse⟩
      | .exhausted => ⟨[], []⟩ := by
  unfold Parsed.ofTokens
  dsimp only
  rw [Grammar.program_eq_readAll]
  cases Grammar.readAll (Token.untilEnd tokens).1 (Token.untilEnd tokens).2 <;> rfl

/-- The end of two inputs is the end of the second one, if there is a second one. -/
theorem Token.untilEnd_append_map (f : Int → Int) {first second : List Token}
    (h : ∀ t ∈ first, t.kind ≠ .eof) (hs : second ≠ []) :
    Token.untilEnd (first ++ second.map (Token.mapLine f)) =
      (first ++ (Token.untilEnd second).1.map (Token.mapLine f),
        (Token.untilEnd second).2.mapLine f) := by
  have hk : ((fun t : Token => decide (t.kind ≠ .eof)) ∘ Token.mapLine f) =
      fun t => decide (t.kind ≠ .eof) := rfl
  have htake : (first ++ second.map (Token.mapLine f)).takeWhile (·.kind ≠ .eof) =
      first ++ (second.takeWhile (·.kind ≠ .eof)).map (Token.mapLine f) := by
    rw [List.takeWhile_append_of_pos (by simpa using h), List.takeWhile_map, hk]
  have hdrop : (first ++ second.map (Token.mapLine f)).dropWhile (·.kind ≠ .eof) =
      (second.dropWhile (·.kind ≠ .eof)).map (Token.mapLine f) := by
    rw [List.dropWhile_append_of_pos (by simpa using h), List.dropWhile_map, hk]
  unfold Token.untilEnd
  rw [htake, hdrop]
  cases hd : second.dropWhile (·.kind ≠ .eof) with
  | cons t k => rfl
  | nil =>
    obtain ⟨t, ht⟩ : ∃ t, second.getLast? = some t :=
      Option.ne_none_iff_exists'.mp (by simpa using hs)
    simp [List.getLast?_append, List.getLast?_map, ht, Token.mapLine]

theorem Token.untilEnd_fst (tokens : List Token) :
    (Token.untilEnd tokens).1 = tokens.takeWhile (·.kind ≠ .eof) := by
  unfold Token.untilEnd
  dsimp only
  split <;> rfl

theorem Token.kind_ne_eof_of_untilEnd (tokens : List Token) :
    ∀ t ∈ (Token.untilEnd tokens).1, t.kind ≠ .eof := by
  intro t ht
  rw [Token.untilEnd_fst] at ht
  simpa using List.all_eq_true.mp List.all_takeWhile t ht

theorem Token.untilEnd_of_kind_ne_eof {tokens : List Token} (h : ∀ t ∈ tokens, t.kind ≠ .eof) :
    (Token.untilEnd tokens).1 = tokens := by
  rw [Token.untilEnd_fst, ← List.append_nil tokens]
  exact List.takeWhile_append_of_pos (by simpa using h)

theorem Token.heads_of_untilEnd {kind : TokenKind} {tokens : List Token}
    (h : Token.Heads kind (Token.untilEnd tokens).1) : Token.Heads kind tokens := by
  obtain ⟨t, k, ht, hk⟩ := h
  obtain ⟨more, hmore⟩ : (Token.untilEnd tokens).1 <+: tokens := by
    rw [Token.untilEnd_fst]
    exact List.takeWhile_prefix _
  rw [ht] at hmore
  exact ⟨t, k ++ more, hmore.symm, hk⟩

/-- The parse of two programs one after the other, where the second one stands on other lines. -/
theorem Parsed.ofTokens_append_mapLine (f : Int → Int) {tokens second : List Token}
    (hm : (Token.untilEnd second).1 ≠ []) (he : ¬ Token.Heads .elseKw second)
    (hd : ∀ d ∈ (Parsed.ofTokens tokens).faults,
      d.place ≠ .atEnd ∧ d.problem ≠ .grammar .tooMuchNesting)
    (hl : (Parsed.ofTokens tokens).faults = [] ∨
      ∃ t ∈ (Token.untilEnd tokens).1.getLast?, t.kind = .semicolon) :
    Parsed.ofTokens ((Token.untilEnd tokens).1 ++ second.map (Token.mapLine f)) =
      { program :=
          if (Parsed.ofTokens second).gaveUp then []
          else (Parsed.ofTokens tokens).program ++
            Stmt.mapLinesAll f (Parsed.ofTokens second).program
        faults := (Parsed.ofTokens tokens).faults ++
          (Parsed.ofTokens second).faults.map (Diagnostic.mapLine f) } := by
  have h₁ := Token.untilEnd_kind tokens
  have h₂ := Token.untilEnd_kind second
  have hne : second ≠ [] := by
    rintro rfl
    exact hm rfl
  rw [Parsed.ofTokens_eq (_ ++ _),
    Token.untilEnd_append_map f (Token.kind_ne_eof_of_untilEnd tokens) hne]
  rcases Grammar.readAll_cases (Token.untilEnd tokens).1 h₁ with
    ⟨ss₁, fs₁, hp, -, -⟩ | ⟨c, hp, d, hdm, hdp⟩
  · have hp' := Parsed.ofTokens_eq tokens
    rw [hp] at hp'
    rw [hp'] at hd hl ⊢
    have hs := Grammar.readAll_append f h₁ h₂ hm (mt Token.heads_of_untilEnd he) hp
      (by simpa using hd) (by simpa using hl)
    have hq' := Parsed.ofTokens_eq second
    generalize Grammar.readAll (_ ++ _) _ = o' at hs ⊢
    rcases Grammar.readAll_cases (Token.untilEnd second).1 h₂ with
      ⟨ss, fs, hq, hn, -⟩ | ⟨c, hq, d, hdm, hdp⟩
    · rw [hq] at hs hq'
      have hg : (Parsed.ofTokens second).gaveUp = false := by
        simpa [Parsed.gaveUp, hq'] using hn
      cases hs with
      | ok _ =>
        rw [hg, hq']
        simp [Splice.after, Splice.cursor, Stmt.mapLinesAll_eq_map, List.map_reverse]
      | early _ h0 => exact absurd rfl h0
      | lost hl => exact absurd hl Splice.not_lost_after
    · rw [hq] at hs hq'
      have hg : (Parsed.ofTokens second).gaveUp = true := by
        simpa [Parsed.gaveUp, hq'] using ⟨d, hdm, hdp⟩
      cases hs with
      | abort _ =>
        rw [hg, hq']
        simp [Splice.after, Splice.cursor, List.map_reverse]
      | lost hl => exact absurd hl Splice.not_lost_after
  · have hp' := Parsed.ofTokens_eq tokens
    rw [hp] at hp'
    rw [hp'] at hd
    exact absurd hdp (hd d (by simpa using hdm)).2

/-- After a program that parses, or whose last token is a semicolon, and whose problems do not come
from its end or from its nesting, the parser finds the problems and statements of a second program
that it finds without the first one. -/
theorem Parsed.ofTokens_append {first second : List Token} (h₁ : ∀ t ∈ first, t.kind ≠ .eof)
    (h₂ : ∀ t ∈ second, t.kind ≠ .eof) (he : ¬ Token.Heads .elseKw second)
    (hd : ∀ d ∈ (Parsed.ofTokens first).faults,
      d.place ≠ .atEnd ∧ d.problem ≠ .grammar .tooMuchNesting)
    (hl : (Parsed.ofTokens first).faults = [] ∨ ∃ t ∈ first.getLast?, t.kind = .semicolon) :
    (Parsed.ofTokens (first ++ second)).faults =
        (Parsed.ofTokens first).faults ++ (Parsed.ofTokens second).faults ∧
      (Parsed.ofTokens (first ++ second)).program =
        if (Parsed.ofTokens second).gaveUp then []
        else (Parsed.ofTokens first).program ++ (Parsed.ofTokens second).program := by
  by_cases hs : second = []
  · subst hs
    have h0 : Parsed.ofTokens [] = ⟨[], []⟩ := rfl
    simp [h0, Parsed.gaveUp]
  · have hm : (Token.untilEnd second).1 ≠ [] := by
      rwa [Token.untilEnd_of_kind_ne_eof h₂]
    have hu := Token.untilEnd_of_kind_ne_eof h₁
    have h := Parsed.ofTokens_append_mapLine id hm he hd (by rwa [hu])
    simp only [hu, Token.mapLine_id, List.map_id_fun, id, Stmt.mapLinesAll_id,
      Diagnostic.mapLine_id] at h
    rw [h]
    exact ⟨rfl, rfl⟩

/-- The broken statement `1 + ;` before the broken declaration `var ;` and a statement. -/
theorem Parsed.ofTokens_append_broken :
    let token (kind : TokenKind) : Token := { kind, lexeme := [], line := 1 }
    let first := [.number, .plus, .semicolon].map token
    let second := [.varKw, .semicolon, .printKw, .number, .semicolon].map token
    ((Parsed.ofTokens first).faults.length = 1 ∧ (Parsed.ofTokens second).faults.length = 1) ∧
      (Parsed.ofTokens (first ++ second)).faults =
          (Parsed.ofTokens first).faults ++ (Parsed.ofTokens second).faults ∧
        (Parsed.ofTokens (first ++ second)).program =
          if (Parsed.ofTokens second).gaveUp then []
          else (Parsed.ofTokens first).program ++ (Parsed.ofTokens second).program :=
  ⟨by decide, Parsed.ofTokens_append (by decide) (by decide) (by simp [Token.heads_cons])
    (by decide) (.inr ⟨_, rfl, rfl⟩)⟩

end Lox
