import Lox.Proofs.Grammar.Derivation
import Lox.Proofs.Grammar.Reading

/-!
# What the expression rules read

Each rule for expressions, given that the rules it refers to read what the grammar derives, reads
what the grammar derives.

## Design notes

The rules that a rule refers to are only assumed to behave on inputs shorter than its own, or on its
own input where it calls them before reading anything. This is what lets the recursion be followed
to any depth that the input allows.
-/

namespace Lox

/-- How many levels of nesting are still free. -/
@[simp] def Cursor.room (c : Cursor) : Nat := maxNesting - c.depth

/-- Whether the token that ends the input is an end mark. -/
def Cursor.Closed (c : Cursor) : Prop := c.stop.kind = .eof

theorem Cursor.room_eq_succ {c : Cursor} (h : c.depth < maxNesting) :
    c.room = Cursor.room { c with depth := c.depth + 1 } + 1 := by
  simp only [Cursor.room]
  omega

theorem Cursor.peek_nil {c : Cursor} (h : c.rest = []) : c.peek = c.stop := by
  simp [Cursor.peek, h]

theorem Cursor.peek_cons {c : Cursor} {t : Token} {k : List Token} (h : c.rest = t :: k) :
    c.peek = t := by
  simp [Cursor.peek, h]

namespace Grammar

open Parse (Agree)

/-- A non-empty part of the input that can be read as `symbol` if nothing is wrong with it. -/
def ReadsAs (c : Cursor) (symbol : Symbol) : Statement (Expr Unit) := fun ts _ fs e =>
  ts ≠ [] ∧ (fs = [] → Derives c.room c.grouped symbol ts (.expr e))

/-- As `ReadsAs`; and if the expression ends in a choice, no comma that it could take follows. -/
def ReadsOpen (c : Cursor) (symbol : Symbol) : Statement (Expr Unit) := fun ts k fs e =>
  ts ≠ [] ∧ (fs = [] → Derives c.room c.grouped symbol ts (.expr e) ∧
    (c.grouped = false → e.endsOpen = true → ¬ Token.Heads .comma k))

/-- As `ReadsAs` for whole expressions, after which no comma is left that they could take. -/
def ReadsExpression (c : Cursor) : Statement (Expr Unit) := fun ts k fs e =>
  ts ≠ [] ∧ (fs = [] → Derives c.room c.grouped .expression ts (.expr e) ∧
    (c.grouped = false → ¬ Token.Heads .comma k))

/-- A statement after which no `else` is left that it could take. -/
def ReadsStatement (c : Cursor) : Statement (Stmt Unit) := fun ts k fs s =>
  ts ≠ [] ∧ (fs = [] → ∃ o, Derives c.room c.grouped (.statement o) ts (.stmt s) ∧
    (o = true → ¬ Token.Heads .elseKw k))

/-- A declaration, or something read and reported. -/
def ReadsDeclaration (c : Cursor) : Statement (Option (Stmt Unit)) := fun ts _ fs o =>
  (c.rest ≠ [] → ts ≠ []) ∧
    (fs = [] → ∃ s, o = some s ∧ Derives c.room c.grouped .declaration ts (.stmt s))

end Grammar

/-- Two versions of the rules that agree on inputs of at most `n` tokens, and read what the grammar
derives. -/
structure Rules.Agree (n : Nat) (R R' : Rules) : Prop where
  unary : ∀ {c : Cursor}, c.Closed → c.rest.length ≤ n →
    Parse.Agree c R.unary R'.unary (Grammar.ReadsAs c .unary)
  assignment : ∀ {c : Cursor}, c.Closed → c.rest.length ≤ n →
    Parse.Agree c R.assignment R'.assignment (Grammar.ReadsOpen c .assignment)
  expression : ∀ {c : Cursor}, c.Closed → c.rest.length ≤ n →
    Parse.Agree c R.expression R'.expression (Grammar.ReadsExpression c)
  statement : ∀ {c : Cursor}, c.Closed → c.grouped = false → c.rest.length ≤ n →
    Parse.Agree c R.statement R'.statement (Grammar.ReadsStatement c)
  declaration : ∀ {c : Cursor}, c.Closed → c.grouped = false → c.rest.length ≤ n →
    Parse.Agree c R.declaration R'.declaration (Grammar.ReadsDeclaration c)

namespace Grammar

open Parse (Agree)

variable {R R' : Rules} {n : Nat} {c : Cursor}

theorem parameters_agree : Agree c parameters parameters fun ts _ fs ms =>
    fs = [] → Derives c.room c.grouped .parameters ts (.names ms) := by
  unfold parameters
  refine .check (fun _ => .pure fun _ => .noParameters) fun _ => ?_
  refine .consume fun t k hr ht => .bind (S := fun ts _ fs ms => fs = [] →
    Derives c.room c.grouped .names (t :: ts) (.names ms.reverse)) ?_ ?_
  · refine .many (fun ts _ fs ms => fs = [] →
      Derives c.room c.grouped .names (t :: ts) (.names ms.reverse)) (fun _ => .firstName ht) ?_
    intro ts k fs ms hr hI
    refine .accept (fun comma k' hr' hcomma => ?_) fun _ => .pure ?_
    · dsimp only
      split
      · refine .peek (.report (.consume fun m k hr hm => .pure ?_))
        simp
      · next hlen =>
        refine .consume fun m k hr hm => .pure ⟨by simp, fun hfs => ?_⟩
        have h := Derives.nextName (hI (by simpa using hfs)) (by simpa using hlen) hcomma hm
        simpa using h
    · simpa using hI
  · intro ts k fs ms hr hI
    refine .pure fun hfs => .parameters ?_
    simpa using hI (by simpa using hfs)

theorem block_agree (hR : ∀ m < n, Rules.Agree m R R') (hc : c.Closed) (hg : c.grouped = false)
    (hn : c.rest.length < n) : Agree c (block R) (block R') fun ts _ fs ss =>
      fs = [] → ∃ ts' r, ts = ts' ++ [r] ∧ r.kind = .rightBrace ∧
        Derives c.room c.grouped .declarations ts' (.stmts ss) := by
  unfold block
  refine .bind (S := fun ts _ fs ss => fs = [] →
    Derives c.room c.grouped .declarations ts (.stmts ss.reverse)) ?_ ?_
  · refine .many (fun ts _ fs ss => fs = [] →
      Derives c.room c.grouped .declarations ts (.stmts ss.reverse)) (fun _ => .noDeclarations) ?_
    intro ts k fs ss hr hI
    refine .atEnd (.check (fun _ => ?_) fun _ => ?_)
    · simp only [Bool.or_true, if_true]
      refine .pure ?_
      simpa using hI
    · cases k with
      | nil =>
        refine .pure ?_
        simpa using hI
      | cons t k =>
        have hlen : (t :: k).length ≤ c.rest.length := by simp [hr]
        refine .bind ((hR _ (Nat.lt_of_le_of_lt hlen hn)).declaration hc hg (Nat.le_refl _)) ?_
        intro ts' k' fs' o hr' hs
        cases o with
        | none =>
          refine .pure ⟨by simpa using hs.1, fun hfs => ?_⟩
          obtain ⟨s, ho, -⟩ := hs.2 (by simp_all)
          cases ho
        | some s =>
          refine .pure ⟨by simpa using hs.1, fun hfs => ?_⟩
          obtain ⟨s, ho, hd⟩ := hs.2 (by simp_all)
          cases ho
          simpa using (hI (by simp_all)).declaration hd
  · intro ts k fs ss hr hI
    refine .consume fun r k' hr' hk => .pure fun hfs => ⟨ts, r, rfl, hk, hI (by simpa using hfs)⟩

theorem functionRest_agree (kind : FunctionKind) (hR : ∀ m < n, Rules.Agree m R R') (hc : c.Closed)
    (hn : c.rest.length ≤ n) :
    Agree c (functionRest R kind) (functionRest R' kind) fun ts _ fs fn =>
      fs = [] → Derives c.room c.grouped .function ts (.fn fn) := by
  unfold functionRest
  refine .bind parameters_agree fun ts k fs ms hr hms => ?_
  refine .consume fun r k₁ hr₁ hk₁ => .consume fun l k₂ hr₂ hk₂ => ?_
  have hlen₁ : k₁.length < n := Token.length_lt_of_append_cons hr hr₁ hn
  have hlen₂ : k₂.length < n := Token.length_lt_of_cons hr₂ (Nat.le_of_lt hlen₁)
  refine .bind (.within (block_agree hR hc rfl hlen₂)) fun ts' k' fs' ss hr' hss => .pure ?_
  intro hfs
  obtain ⟨ts', e, rfl, he, hd⟩ := hss (by simp_all)
  have h := Derives.function (hms (by simp_all)) hk₁ hk₂ hd he
  simpa using h

theorem primary_agree (hR : ∀ m < n, Rules.Agree m R R') (hc : c.Closed)
    (hn : c.rest.length ≤ n) : Agree c (primary R) (primary R') (ReadsAs c .primary) := by
  unfold primary
  refine .peek ?_
  cases hr : c.rest with
  | nil =>
    have hk : c.peek.kind = .eof := (Cursor.peek_nil hr).symm ▸ hc
    simp only [hk]
    exact .fail
  | cons t k =>
    have hlen : k.length < n := Token.length_lt_of_cons hr hn
    rw [Cursor.peek_cons hr]
    split
    · next hk => exact .advance hr (.pure ⟨by simp, fun _ => .falseLit hk⟩)
    · next hk => exact .advance hr (.pure ⟨by simp, fun _ => .trueLit hk⟩)
    · next hk => exact .advance hr (.pure ⟨by simp, fun _ => .nilLit hk⟩)
    · next hk => exact .advance hr (.pure ⟨by simp, fun _ => .numberLit hk⟩)
    · next hk => exact .advance hr (.pure ⟨by simp, fun _ => .stringLit hk⟩)
    · next hk =>
      refine .advance hr (.consume fun dot k₁ _ hd => .consume fun m k₂ _ hm => .pure ?_)
      exact ⟨by simp, fun _ => .inherited hk hd hm⟩
    · next hk => exact .advance hr (.pure ⟨by simp, fun _ => .receiver hk⟩)
    · next hk =>
      refine .advance hr (.consume fun l k₁ hr₁ hl => ?_)
      have hlen₁ : k₁.length ≤ n := Nat.le_of_lt (Token.length_lt_of_cons hr₁ (Nat.le_of_lt hlen))
      refine .bind (functionRest_agree .function hR hc hlen₁) fun ts k₂ fs fn _ hfn => .pure ?_
      refine ⟨by simp, fun hfs => ?_⟩
      simpa using Derives.anonymous hk hl (hfn (by simpa using hfs))
    · next hk => exact .advance hr (.pure ⟨by simp, fun _ => .name hk⟩)
    · next hk =>
      refine .advance hr (.within ?_)
      refine .bind ((hR _ hlen).expression hc (Nat.le_refl _)) fun ts k₁ fs e _ he => ?_
      refine .consume fun r k₂ _ hrp => .pure ⟨by simp, fun hfs => ?_⟩
      simpa using Derives.group hk (he.2 (by simpa using hfs)).1 hrp
    · exact .fail
    · exact .fail

theorem arguments_agree (hR : ∀ m < n, Rules.Agree m R R') (hc : c.Closed)
    (hn : c.rest.length < n) : Agree c (arguments R) (arguments R') fun ts _ fs es =>
      fs = [] → Derives c.room c.grouped .arguments ts (.exprs es) := by
  unfold arguments
  refine .check (fun _ => .pure fun _ => .noArguments) fun _ => ?_
  refine .bind ((hR _ hn).expression hc (Nat.le_refl _)) fun ts₀ k₀ fs₀ e₀ hr₀ he₀ => ?_
  refine .bind (S := fun ts _ fs es => fs ++ fs₀ = [] →
    Derives c.room c.grouped .list (ts₀ ++ ts) (.exprs es.reverse)) ?_ ?_
  · refine .many (fun ts _ fs es => fs ++ fs₀ = [] →
      Derives c.room c.grouped .list (ts₀ ++ ts) (.exprs es.reverse)) (fun hfs => ?_) ?_
    · simpa using Derives.firstItem (he₀.2 (by simpa using hfs)).1
    intro ts k fs es hr hI
    have hr : k₀ = ts ++ k := hr
    refine .accept (fun comma k' hr' hcomma => ?_) fun _ => .pure ?_
    · have hr' : k = comma :: k' := hr'
      have hlen : k'.length < n := 
        Token.length_lt_of_append_cons hr hr' (Token.length_le_of_append hr₀ (Nat.le_of_lt hn))
      have next : ∀ fs' : List Diagnostic, Agree
          { c with rest := k', faults := fs' ++ (fs ++ (fs₀ ++ c.faults)) }
          (do let arg ← R.expression; pure (some (arg :: es)))
          (do let arg ← R'.expression; pure (some (arg :: es)))
          fun ts' _ fs'' o => ∃ e, o = some (e :: es) ∧ (fs'' = [] →
            Derives c.room c.grouped .expression ts' (.expr e)) := by
        intro fs'
        refine .bind ((hR _ hlen).expression hc (Nat.le_refl _)) fun ts₁ k₁ fs₁ e _ he => .pure ?_
        exact ⟨e, rfl, fun hfs => by simpa using (he.2 (by simpa using hfs)).1⟩
      dsimp only
      split
      · refine .peek (.report ((next [_]).mono ?_))
        rintro ts₁ k₁ fs₁ o - ⟨e, rfl, -⟩
        simp
      · next hlt =>
        refine (next []).mono ?_
        rintro ts₁ k₁ fs₁ o - ⟨e, rfl, he⟩
        refine ⟨by simp, fun hfs => ?_⟩
        simp only [List.append_assoc, List.append_eq_nil_iff] at hfs
        have h := (hI (by simp [hfs])).nextItem (by simpa using hlt) hcomma (he hfs.1)
        simpa using h
    · simpa using hI
  · intro ts k fs es _ hI
    refine .pure fun hfs => .arguments ?_
    simpa using hI (by simpa using hfs)

theorem callRest_agree (e : Expr Unit) (hR : ∀ m < n, Rules.Agree m R R') (hc : c.Closed)
    (hn : c.rest.length < n) : Agree c (callRest R e) (callRest R' e) fun ts _ fs e' =>
      fs = [] → ∃ ts' es r, ts = ts' ++ [r] ∧ r.kind = .rightParen ∧ e' = .call e r.mark es ∧
        Derives c.room true .arguments ts' (.exprs es) := by
  unfold callRest
  refine .within (.bind (arguments_agree hR hc hn) fun ts k fs es _ hes => ?_)
  refine .consume fun r k₁ _ hr => .pure fun hfs => ?_
  exact ⟨ts, es, r, rfl, hr, rfl, hes (by simpa using hfs)⟩

theorem call_agree (hR : ∀ m < n, Rules.Agree m R R') (hc : c.Closed)
    (hn : c.rest.length ≤ n) : Agree c (call R) (call R') (ReadsAs c .call) := by
  unfold call
  refine .bind (primary_agree hR hc hn) fun ts₀ k₀ fs₀ e₀ hr₀ he₀ => ?_
  refine .many (fun ts _ fs e => fs ++ fs₀ = [] →
    Derives c.room c.grouped .call (ts₀ ++ ts) (.expr e)) (fun hfs => ?_) ?_
  · simpa using Derives.callee (he₀.2 (by simpa using hfs))
  intro ts k fs e hr hI
  refine .peek ?_
  cases k with
  | nil =>
    have hk : c.stop.kind = .eof := hc
    simp only [Cursor.peek, List.headD_nil, hk]
    refine .pure ⟨by simp [he₀.1], ?_⟩
    simpa using hI
  | cons t k =>
    have hr : k₀ = ts ++ t :: k := hr
    have hlen : k.length < n := 
      Token.length_lt_of_append_cons hr rfl (Token.length_le_of_append hr₀ hn)
    simp only [Cursor.peek, List.headD_cons]
    split
    · next hk =>
      refine .advance rfl (.bind (callRest_agree e hR hc hlen) fun ts₁ k₁ fs₁ e' _ he => .pure ?_)
      refine ⟨by simp, fun hfs => ?_⟩
      simp only [List.nil_append, List.append_assoc, List.append_eq_nil_iff] at hfs
      obtain ⟨ts', es, r, rfl, hrp, rfl, hes⟩ := he hfs.1
      simpa using (hI (by simp [hfs])).call hk hes hrp
    · next hk =>
      refine .advance rfl (.consume fun m k₁ _ hm => .pure ⟨by simp, fun hfs => ?_⟩)
      simpa using (hI (by simpa using hfs)).property hk hm
    · refine .pure ⟨by simp [he₀.1], ?_⟩
      simpa using hI

theorem unary_agree (hR : ∀ m < n, Rules.Agree m R R') (hc : c.Closed)
    (hn : c.rest.length ≤ n) : Agree c (unary R) (unary R') (ReadsAs c .unary) := by
  unfold unary
  refine (Agree.nested (S := fun ts _ fs e => ts ≠ [] ∧ (fs = [] →
    Derives (Cursor.room { c with depth := c.depth + 1 } + 1) c.grouped .unary ts (.expr e)))
    fun _ => .peek ?_).mono ?_
  · have plain : Agree { c with depth := c.depth + 1 } (call R) (call R') fun ts _ fs e =>
        ts ≠ [] ∧ (fs = [] → Derives (Cursor.room { c with depth := c.depth + 1 } + 1) c.grouped
          .unary ts (.expr e)) :=
      (call_agree (c := { c with depth := c.depth + 1 }) hR hc hn).mono
        fun ts k fs e _ he => ⟨he.1, fun hfs => .operand (he.2 hfs)⟩
    cases hr : c.rest with
    | nil =>
      have hk : c.stop.kind = .eof := hc
      simp only [Cursor.peek, List.headD_nil, hk]
      simpa only [hr] using plain
    | cons t k =>
      have hlen : k.length < n := Token.length_lt_of_cons hr hn
      simp only [Cursor.peek, List.headD_cons]
      split
      · next hk =>
        have hk : t.kind = UnaryOp.not.spelling := hk
        refine .advance rfl (.bind ((hR _ hlen).unary hc (Nat.le_refl _))
          fun ts k₁ fs e _ he => .pure ⟨by simp, fun hfs => ?_⟩)
        simpa using Derives.unary hk (he.2 (by simpa using hfs))
      · next hk =>
        have hk : t.kind = UnaryOp.negate.spelling := hk
        refine .advance rfl (.bind ((hR _ hlen).unary hc (Nat.le_refl _))
          fun ts k₁ fs e _ he => .pure ⟨by simp, fun hfs => ?_⟩)
        simpa using Derives.unary hk (he.2 (by simpa using hfs))
      · simpa only [hr] using plain
  · rintro ts k fs e - ⟨hd, hne, he⟩
    rw [ReadsAs, Cursor.room_eq_succ hd]
    exact ⟨hne, he⟩

/-! ### Levels -/

/-- The operators of a level. -/
def Level.joins : Level → Joins
  | product => productOps
  | sum => sumOps
  | comparison => comparisonOps
  | equality => equalityOps
  | conjunction => conjunctionOps
  | disjunction => disjunctionOps

/-- The rule of a level. -/
def Level.rule (R : Rules) : Level → Parse (Expr Unit)
  | product => Grammar.product R
  | sum => Grammar.sum R
  | comparison => Grammar.comparison R
  | equality => Grammar.equality R
  | conjunction => Grammar.conjunction R
  | disjunction => Grammar.disjunction R

/-- The rule of the operands of a level. -/
def Level.operandRule (R : Rules) : Level → Parse (Expr Unit)
  | product => R.unary
  | sum => Grammar.product R
  | comparison => Grammar.sum R
  | equality => Grammar.comparison R
  | conjunction => Grammar.equality R
  | disjunction => Grammar.conjunction R

theorem Level.rule_eq (ℓ : Level) (R : Rules) : ℓ.rule R = chain (ℓ.operandRule R) ℓ.joins := by
  cases ℓ <;> rfl

/-- The rule of a level is a chain of chains, at the bottom of unary expressions. -/
theorem Level.rule_of_chain {R : Rules} {P : Parse (Expr Unit) → Prop} (hunary : P R.unary)
    (hchain : ∀ operand (ℓ : Level), P operand → P (chain operand ℓ.joins)) (ℓ : Level) :
    P (ℓ.rule R) := by
  have hproduct : P (Grammar.product R) := hchain _ .product hunary
  have hsum : P (Grammar.sum R) := hchain _ .sum hproduct
  have hcomparison : P (Grammar.comparison R) := hchain _ .comparison hsum
  have hequality : P (Grammar.equality R) := hchain _ .equality hcomparison
  have hconjunction : P (Grammar.conjunction R) := hchain _ .conjunction hequality
  cases ℓ with
  | product => exact hproduct
  | sum => exact hsum
  | comparison => exact hcomparison
  | equality => exact hequality
  | conjunction => exact hconjunction
  | disjunction => exact hchain _ .disjunction hconjunction

/-- The operators of a level are those that the grammar puts there. -/
theorem Level.joins_eq_some {ℓ : Level} {t : Token} {join : Expr Unit → Expr Unit → Expr Unit} :
    ℓ.joins t = some join ↔
      (∃ op, op.level? = some ℓ ∧ t.kind = op.spelling ∧ join = .binary op t.mark) ∨
        ∃ op, op.level = ℓ ∧ t.kind = op.spelling ∧ join = .logical op t.mark := by
  constructor
  · intro h
    cases ℓ with
    | product =>
      simp only [Level.joins, productOps] at h
      split at h
      · next hk => exact .inl ⟨.divide, rfl, hk, (Option.some.inj h).symm⟩
      · next hk => exact .inl ⟨.times, rfl, hk, (Option.some.inj h).symm⟩
      · next hk => exact .inl ⟨.modulo, rfl, hk, (Option.some.inj h).symm⟩
      · cases h
    | sum =>
      simp only [Level.joins, sumOps] at h
      split at h
      · next hk => exact .inl ⟨.minus, rfl, hk, (Option.some.inj h).symm⟩
      · next hk => exact .inl ⟨.plus, rfl, hk, (Option.some.inj h).symm⟩
      · cases h
    | comparison =>
      simp only [Level.joins, comparisonOps] at h
      split at h
      · next hk => exact .inl ⟨.greater, rfl, hk, (Option.some.inj h).symm⟩
      · next hk => exact .inl ⟨.greaterEqual, rfl, hk, (Option.some.inj h).symm⟩
      · next hk => exact .inl ⟨.less, rfl, hk, (Option.some.inj h).symm⟩
      · next hk => exact .inl ⟨.lessEqual, rfl, hk, (Option.some.inj h).symm⟩
      · cases h
    | equality =>
      simp only [Level.joins, equalityOps] at h
      split at h
      · next hk => exact .inl ⟨.notEqual, rfl, hk, (Option.some.inj h).symm⟩
      · next hk => exact .inl ⟨.equal, rfl, hk, (Option.some.inj h).symm⟩
      · cases h
    | conjunction =>
      simp only [Level.joins, conjunctionOps] at h
      split at h
      · next hk => exact .inr ⟨.and, rfl, hk, (Option.some.inj h).symm⟩
      · cases h
    | disjunction =>
      simp only [Level.joins, disjunctionOps] at h
      split at h
      · next hk => exact .inr ⟨.or, rfl, hk, (Option.some.inj h).symm⟩
      · cases h
  · rintro (⟨op, hℓ, hk, rfl⟩ | ⟨op, hℓ, hk, rfl⟩)
    · cases op <;> cases hℓ <;> simp only [BinaryOp.spelling] at hk <;>
        simp only [Level.joins, productOps, sumOps, comparisonOps, equalityOps, hk, joinBinary]
    · cases op <;> cases hℓ <;> simp only [LogicalOp.spelling] at hk <;>
        simp only [LogicalOp.level, Level.joins, conjunctionOps, disjunctionOps, hk, if_true]

theorem chain_agree {operand operand' : Parse (Expr Unit)} (ℓ : Level)
    (ho : ∀ {c : Cursor}, c.Closed → c.rest.length ≤ n →
      Agree c operand operand' (ReadsAs c ℓ.operand))
    (hc : c.Closed) (hn : c.rest.length ≤ n) :
    Agree c (chain operand ℓ.joins) (chain operand' ℓ.joins) (ReadsAs c (.chain ℓ)) := by
  unfold chain
  refine .bind (ho hc hn) fun ts₀ k₀ fs₀ e₀ hr₀ he₀ => ?_
  refine .many (fun ts _ fs e => fs ++ fs₀ = [] →
    Derives c.room c.grouped (.chain ℓ) (ts₀ ++ ts) (.expr e)) (fun hfs => ?_) ?_
  · simpa using Derives.single ℓ (he₀.2 (by simpa using hfs))
  intro ts k fs e hr hI
  have hr : k₀ = ts ++ k := hr
  refine .peek ?_
  cases hj : ℓ.joins (Cursor.peek { c with rest := k, faults := fs ++ (fs₀ ++ c.faults) }) with
  | none =>
    refine .pure ⟨by simp [he₀.1], ?_⟩
    simpa using hI
  | some join =>
    cases k with
    | nil =>
      -- the end mark joins nothing
      have hk : c.stop.kind = .eof := hc
      rw [Cursor.peek, List.headD_nil, Level.joins_eq_some] at hj
      rcases hj with ⟨op, -, h, -⟩ | ⟨op, -, h, -⟩ <;> cases op <;> rw [hk] at h <;> cases h
    | cons t k =>
      have hlen : k.length ≤ n := 
        Nat.le_of_lt (Token.length_lt_of_append_cons hr rfl (Token.length_le_of_append hr₀ hn))
      rw [Cursor.peek, List.headD_cons, Level.joins_eq_some] at hj
      refine .advance rfl (.bind (ho hc hlen) fun ts₁ k₁ fs₁ e₁ _ he₁ => .pure ?_)
      refine ⟨by simp, fun hfs => ?_⟩
      simp only [List.nil_append, List.append_assoc, List.append_eq_nil_iff] at hfs
      have hl := hI (by simp [hfs])
      have hr := he₁.2 hfs.1
      rcases hj with ⟨op, hℓ, hk, rfl⟩ | ⟨op, hℓ, hk, rfl⟩
      · simpa using hl.binary hℓ hk hr
      · simpa using hl.logical hℓ hk hr

/-- Every level reads what the grammar derives there. -/
theorem Level.agree (hu : ∀ {c : Cursor}, c.Closed → c.rest.length ≤ n →
      Agree c R.unary R'.unary (ReadsAs c .unary)) (ℓ : Level) (hc : c.Closed)
    (hn : c.rest.length ≤ n) : Agree c (ℓ.rule R) (ℓ.rule R') (ReadsAs c (.chain ℓ)) := by
  have step : ∀ ℓ : Level, (∀ {c : Cursor}, c.Closed → c.rest.length ≤ n →
        Agree c (ℓ.operandRule R) (ℓ.operandRule R') (ReadsAs c ℓ.operand)) →
      ∀ {c : Cursor}, c.Closed → c.rest.length ≤ n →
        Agree c (ℓ.rule R) (ℓ.rule R') (ReadsAs c (.chain ℓ)) := by
    intro ℓ ho c hc hn
    rw [Level.rule_eq, Level.rule_eq]
    exact chain_agree ℓ ho hc hn
  have product := @step .product hu
  have sum := @step .sum product
  have comparison := @step .comparison sum
  have equality := @step .equality comparison
  have conjunction := @step .conjunction equality
  have disjunction := @step .disjunction conjunction
  cases ℓ with
  | product => exact product hc hn
  | sum => exact sum hc hn
  | comparison => exact comparison hc hn
  | equality => exact equality hc hn
  | conjunction => exact conjunction hc hn
  | disjunction => exact disjunction hc hn

/-! ### Choices, assignments and sequences -/

theorem conditional_agree (hR : ∀ m < n, Rules.Agree m R R')
    (hu : ∀ {c : Cursor}, c.Closed → c.rest.length ≤ n →
      Agree c R.unary R'.unary (ReadsAs c .unary)) (hc : c.Closed) (hn : c.rest.length ≤ n) :
    Agree c (conditional R) (conditional R') (ReadsOpen c .conditional) := by
  unfold conditional
  refine .bind (Level.agree hu .disjunction hc hn) fun ts k fs e hr he => ?_
  refine .accept (fun q k₁ hr₁ hq => ?_) fun _ => .pure ?_
  · have hr₁ : k = q :: k₁ := hr₁
    have hlen₁ : k₁.length < n := Token.length_lt_of_append_cons hr hr₁ hn
    refine .bind ((hR _ hlen₁).expression hc (Nat.le_refl _)) fun ts₂ k₂ fs₂ y hr₂ hy => ?_
    refine .consume fun colon k₃ hr₃ hcolon => ?_
    have hlen₃ : k₃.length < n := Token.length_lt_of_append_cons hr₂ hr₃ (Nat.le_of_lt hlen₁)
    refine .bind ((hR _ hlen₃).expression hc (Nat.le_refl _)) fun ts₄ k₄ fs₄ x hr₄ hx => .pure ?_
    refine ⟨by simp, fun hfs => ?_⟩
    simp only [List.nil_append, List.append_assoc, List.append_eq_nil_iff] at hfs
    obtain ⟨hx, hcomma⟩ := hx.2 (by simp [hfs])
    have h := Derives.conditional (he.2 (by simp [hfs])) hq (hy.2 (by simp [hfs])).1 hcolon hx
    exact ⟨by simpa using h, fun hg _ => hcomma hg⟩
  · refine ⟨by simp [he.1], fun hfs => ?_⟩
    have h := he.2 (by simpa using hfs)
    refine ⟨by simpa using h.disjunction, fun _ ho => ?_⟩
    rw [h.endsOpen_eq_false trivial rfl] at ho
    cases ho

theorem assignment_agree (hR : ∀ m < n, Rules.Agree m R R')
    (hu : ∀ {c : Cursor}, c.Closed → c.rest.length ≤ n →
      Agree c R.unary R'.unary (ReadsAs c .unary)) (hc : c.Closed) (hn : c.rest.length ≤ n) :
    Agree c (assignment R) (assignment R') (ReadsOpen c .assignment) := by
  unfold assignment
  refine (Agree.nested (S := fun ts k fs e => ts ≠ [] ∧ (fs = [] →
    Derives (Cursor.room { c with depth := c.depth + 1 } + 1) c.grouped .assignment ts (.expr e) ∧
      (c.grouped = false → e.endsOpen = true → ¬ Token.Heads .comma k))) fun _ => ?_).mono ?_
  · refine .bind (conditional_agree (c := { c with depth := c.depth + 1 }) hR hu hc hn)
      fun ts k fs e hr he => ?_
    have hr : c.rest = ts ++ k := hr
    refine .accept (fun q k₁ hr₁ hq => ?_) fun _ => .pure ?_
    · have hr₁ : k = q :: k₁ := hr₁
      have hlen₁ : k₁.length < n := Token.length_lt_of_append_cons hr hr₁ hn
      refine .bind ((hR _ hlen₁).assignment hc (Nat.le_refl _)) fun ts₂ k₂ fs₂ v hr₂ hv => ?_
      split
      · refine .pure ⟨by simp, fun hfs => ?_⟩
        simp only [List.nil_append, List.append_eq_nil_iff] at hfs
        obtain ⟨hv, hcomma⟩ := hv.2 hfs.1
        exact ⟨by simpa using (he.2 hfs.2).1.assign hq hv, hcomma⟩
      · refine .pure ⟨by simp, fun hfs => ?_⟩
        simp only [List.nil_append, List.append_eq_nil_iff] at hfs
        obtain ⟨hv, hcomma⟩ := hv.2 hfs.1
        exact ⟨by simpa using (he.2 hfs.2).1.set hq hv, hcomma⟩
      · refine .report (.pure ?_)
        simp
    · refine ⟨by simp [he.1], fun hfs => ?_⟩
      obtain ⟨h, hcomma⟩ := he.2 (by simpa using hfs)
      exact ⟨by simpa using h.unassigned, hcomma⟩
  · rintro ts k fs e - ⟨hd, hne, he⟩
    rw [ReadsOpen, Cursor.room_eq_succ hd]
    exact ⟨hne, he⟩

theorem expression_agree
    (ha : ∀ {c : Cursor}, c.Closed → c.rest.length ≤ n →
      Agree c R.assignment R'.assignment (ReadsOpen c .assignment)) (hc : c.Closed)
    (hn : c.rest.length ≤ n) : Agree c (expression R) (expression R') (ReadsExpression c) := by
  unfold expression
  refine .bind (ha hc hn) fun ts₀ k₀ fs₀ e₀ hr₀ he₀ => ?_
  refine .many (fun ts k fs e => ReadsOpen c .expression (ts₀ ++ ts) k (fs ++ fs₀) e) ?_ ?_
  · refine ⟨by simp [he₀.1], fun hfs => ?_⟩
    obtain ⟨h, hcomma⟩ := he₀.2 (by simpa using hfs)
    exact ⟨by simpa using h.lone, hcomma⟩
  intro ts k fs e hr hI
  have hr : k₀ = ts ++ k := hr
  refine .isGrouped ?_
  cases hg : c.grouped with
  | true =>
    refine .pure ⟨by simpa using hI.1, fun hfs => ⟨?_, fun hf => ?_⟩⟩
    · simpa using (hI.2 (by simpa using hfs)).1
    · rw [hg] at hf
      cases hf
  | false =>
    refine .accept (fun comma k₁ hr₁ hcomma => ?_) fun hno => .pure ?_
    · have hr₁ : k = comma :: k₁ := hr₁
      have hlen : k₁.length ≤ n := 
        Nat.le_of_lt (Token.length_lt_of_append_cons hr hr₁ (Token.length_le_of_append hr₀ hn))
      refine .bind (ha hc hlen) fun ts₂ k₂ fs₂ e₂ _ he₂ => .pure ⟨by simp, by simp, fun hfs => ?_⟩
      simp only [List.nil_append, List.append_assoc, List.append_eq_nil_iff] at hfs
      obtain ⟨hl, hlast⟩ := hI.2 (by simp [hfs])
      obtain ⟨h₂, hlast₂⟩ := he₂.2 hfs.1
      -- the left side would have taken this comma if it ended in a choice
      have hopen : e.endsOpen = false := by
        cases ho : e.endsOpen with
        | false => rfl
        | true => exact absurd ⟨comma, k₁, hr₁, hcomma⟩ (hlast hg ho)
      rw [hg] at hl
      have h := hl.sequence hopen hcomma h₂
      rw [hg]
      exact ⟨by simpa using h, fun _ => hlast₂ rfl⟩
    · refine ⟨by simpa using hI.1, fun hfs => ⟨?_, fun _ => hno⟩⟩
      simpa using (hI.2 (by simpa using hfs)).1

end Grammar

end Lox
