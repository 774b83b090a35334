import Lox.Proofs.Grammar.Recognition

/-!
# Completeness of the parser

Whatever the grammar derives from a sequence of tokens, the parser reads from it.

## Design notes

A rule that reads a phrase stops at a token that is too weak to extend it. Strengths turn this into
an inequality: a level of operators stops at the tokens that are stronger than its own, a choice or
an assignment that ends in a choice only at tokens that no expression takes.
-/

namespace Lox

/-- How far out of an expression a token that follows it stands: `0` for what belongs to a call, the
number of the level for an operator, `10` for what no expression takes. -/
def TokenKind.strength (grouped : Bool) : TokenKind → Nat
  | .leftParen | .dot => 0
  | .star | .slash | .percent => 1
  | .plus | .minus => 2
  | .greater | .greaterEqual | .less | .lessEqual => 3
  | .equalEqual | .bangEqual => 4
  | .andKw => 5
  | .orKw => 6
  | .question => 7
  | .equal => 8
  | .comma => if grouped then 10 else 9
  | _ => 10

namespace TokenKind

@[simp] theorem strength_question (g : Bool) : question.strength g = 7 := rfl

@[simp] theorem strength_equal (g : Bool) : equal.strength g = 8 := rfl

@[simp] theorem strength_comma (g : Bool) : comma.strength g = if g then 10 else 9 := rfl

@[simp] theorem strength_colon (g : Bool) : colon.strength g = 10 := rfl

@[simp] theorem strength_semicolon (g : Bool) : semicolon.strength g = 10 := rfl

@[simp] theorem strength_rightParen (g : Bool) : rightParen.strength g = 10 := rfl

end TokenKind

/-- Whether a kind of token can start a call. -/
def TokenKind.startsCall : TokenKind → Bool
  | .falseKw | .trueKw | .nilKw | .number | .string | .identifier | .thisKw | .superKw | .funKw
  | .leftParen => true
  | _ => false

/-- Whether a kind of token can start an expression. -/
def TokenKind.startsExpression : TokenKind → Bool
  | .bang | .minus => true
  | kind => kind.startsCall

/-- Whether a kind of token can start a statement. -/
def TokenKind.startsStatement : TokenKind → Bool
  | .printKw | .leftBrace | .ifKw | .whileKw | .forKw | .returnKw | .breakKw => true
  | kind => kind.startsExpression

/-- Whether a kind of token can start a declaration. -/
def TokenKind.startsDeclaration : TokenKind → Bool
  | .classKw | .varKw | .importKw => true
  | kind => kind.startsStatement

namespace Grammar

open Parse

theorem Level.strength_of_level? {ℓ : Level} {op : BinaryOp} (h : op.level? = some ℓ) (g : Bool) :
    op.spelling.strength g = ℓ.index := by
  cases op <;> cases h <;> rfl

theorem Level.strength_of_level (op : LogicalOp) (g : Bool) :
    op.spelling.strength g = op.level.index := by
  cases op <;> rfl

/-! ### How derivations start -/

/-- Tokens of which the first is of a kind in `starts`; after the word `fun` comes a parenthesis. -/
def Opens (starts : TokenKind → Bool) (ts : List Token) : Prop :=
  ∃ t k, ts = t :: k ∧ starts t.kind = true ∧ (t.kind = .funKw → Token.next k = .leftParen)

theorem Opens.append {starts : TokenKind → Bool} {ts : List Token} (h : Opens starts ts)
    (k : List Token) : Opens starts (ts ++ k) := by
  obtain ⟨t, ts, rfl, ht, hfun⟩ := h
  refine ⟨t, ts ++ k, rfl, ht, fun hk => ?_⟩
  cases ts with
  | nil => cases hfun hk
  | cons s ts => exact hfun hk

theorem Opens.mono {starts starts' : TokenKind → Bool} {ts : List Token} (h : Opens starts ts)
    (hs : ∀ kind, starts kind = true → starts' kind = true) : Opens starts' ts := by
  obtain ⟨t, k, hts, ht, hfun⟩ := h
  exact ⟨t, k, hts, hs _ ht, hfun⟩

theorem Opens.next {starts : TokenKind → Bool} {ts : List Token} (h : Opens starts ts)
    (k : List Token) : starts (Token.next (ts ++ k)) = true := by
  obtain ⟨t, ts, rfl, ht, -⟩ := h
  exact ht

theorem startsExpression_of_startsCall (kind : TokenKind) (h : kind.startsCall = true) :
    kind.startsExpression = true := by
  cases kind <;> first | rfl | cases h

theorem startsStatement_of_startsExpression (kind : TokenKind)
    (h : kind.startsExpression = true) : kind.startsStatement = true := by
  cases kind <;> first | rfl | cases h

theorem startsDeclaration_of_startsStatement (kind : TokenKind)
    (h : kind.startsStatement = true) : kind.startsDeclaration = true := by
  cases kind <;> first | rfl | cases h

/-- What is known of the first tokens of a derivation from a symbol. -/
def Symbol.Opens : Symbol → List Token → Prop
  | primary | call => Grammar.Opens TokenKind.startsCall
  | unary | chain _ | conditional | assignment | expression | list | simple =>
    Grammar.Opens TokenKind.startsExpression
  | names => Grammar.Opens (· = .identifier)
  | statement _ => Grammar.Opens TokenKind.startsStatement
  | declaration => fun ts => (Token.next ts).startsDeclaration = true
  | _ => fun _ => True

theorem Level.operand_opens (ℓ : Level) :
    ℓ.operand.Opens = Grammar.Opens TokenKind.startsExpression := by
  cases ℓ <;> rfl

theorem Derives.opens {n : Nat} {g : Bool} {symbol : Symbol} {ts : List Token} {phrase : Phrase}
    (h : Derives n g symbol ts phrase) : symbol.Opens ts := by
  induction h with
  | falseLit hk | trueLit hk | nilLit hk | numberLit hk | stringLit hk | name hk | receiver hk
  | inherited hk _ _ | group hk _ _ =>
    exact ⟨_, _, rfl, by rw [hk]; rfl, fun hf => by rw [hk] at hf; cases hf⟩
  | anonymous hk hl => exact ⟨_, _, rfl, by rw [hk]; rfl, fun _ => hl⟩
  | callee _ ih => exact ih
  | call _ _ _ _ ih | property _ _ _ ih => exact ih.append _
  | operand _ ih => exact ih.mono startsExpression_of_startsCall
  | @unary _ _ op _ _ _ hk =>
    refine ⟨_, _, rfl, ?_, fun hf => ?_⟩
    · rw [hk]
      cases op <;> rfl
    · rw [hk] at hf
      cases op <;> cases hf
  | single ℓ _ ih =>
    rw [Level.operand_opens] at ih
    exact ih
  | binary _ _ _ _ ih | logical _ _ _ _ ih | conditional _ _ _ _ _ ih | assign _ _ _ ih
  | set _ _ _ ih | sequence _ _ _ _ ih | nextItem _ _ _ _ ih | simple _ _ ih => exact ih.append _
  | nextName _ _ _ _ ih =>
    have ih : Grammar.Opens (· = .identifier) _ := ih
    exact ih.append _
  | firstName hk => exact ⟨_, _, rfl, by simp [hk], fun hf => by rw [hk] at hf; cases hf⟩
  | disjunction _ ih | unassigned _ ih | lone _ ih | firstItem _ ih => exact ih
  | expression _ ih => exact ih.mono startsStatement_of_startsExpression
  | print hk | block hk | ifThen hk | ifElse hk | whileLoop hk | forLoop hk | ret hk | brk hk =>
    exact ⟨_, _, rfl, by rw [hk]; rfl, fun hf => by rw [hk] at hf; cases hf⟩
  | statement _ ih =>
    have h := ih.next []
    rw [List.append_nil] at h
    exact startsDeclaration_of_startsStatement _ h
  | varDecl hk | funDecl hk | classDecl hk | subclassDecl hk | importDecl hk | importAs hk =>
    simp only [Symbol.Opens, Token.next_cons, hk]
    rfl
  | _ => trivial

/-! ### The rounds of repetitions -/

/-- A call or property after an expression. -/
def callRound (rules : Rules) (e : Expr Unit) : Parse (Option (Expr Unit)) := do
  match (← peek).kind with
  | .leftParen =>
    advance
    let called ← callRest rules e
    pure (some called)
  | .dot =>
    advance
    let property ← consume .identifier .propertyName
    pure (some (.get e property.mark))
  | _ => pure none

/-- An operator of a level and its right operand. -/
def chainRound (operand : Parse (Expr Unit)) (joins : Joins) (left : Expr Unit) :
    Parse (Option (Expr Unit)) := do
  match joins (← peek) with
  | none => pure none
  | some join =>
    advance
    let right ← operand
    pure (some (join left right))

/-- A comma and what follows it. -/
def sequenceRound (rules : Rules) (left : Expr Unit) : Parse (Option (Expr Unit)) := do
  if ← isGrouped then pure none
  else
    match ← accept .comma with
    | none => pure none
    | some comma =>
      let right ← rules.assignment
      pure (some (.binary .sequence comma.mark left right))

/-- A comma and one more parameter. -/
def parameterRound (params : List Mark) : Parse (Option (List Mark)) := do
  match ← accept .comma with
  | none => pure none
  | some _ =>
    if maxArguments ≤ params.length then report (← peek) .tooManyParameters
    let param ← consume .identifier .parameterName
    pure (some (param.mark :: params))

/-- A comma and one more argument. -/
def argumentRound (rules : Rules) (args : List (Expr Unit)) :
    Parse (Option (List (Expr Unit))) := do
  match ← accept .comma with
  | none => pure none
  | some _ =>
    if maxArguments ≤ args.length then report (← peek) .tooManyArguments
    let arg ← rules.expression
    pure (some (arg :: args))

/-- One more declaration. -/
def declarationRound (rules : Rules) (body : List (Stmt Unit)) :
    Parse (Option (List (Stmt Unit))) := do
  match ← rules.declaration with
  | some s => pure (some (s :: body))
  | none => pure (some body)

/-- One more declaration before a closing brace. -/
def bodyRound (rules : Rules) (body : List (Stmt Unit)) : Parse (Option (List (Stmt Unit))) := do
  if (← atEnd) || (← check .rightBrace) then pure none else declarationRound rules body

/-- One more method before a closing brace. -/
def methodRound (rules : Rules) (methods : List (Method Unit)) :
    Parse (Option (List (Method Unit))) := do
  if (← atEnd) || (← check .rightBrace) then pure none
  else
    let m ← method rules
    pure (some (m :: methods))

/-- One more declaration before the end of the input. -/
def programRound (rules : Rules) (program : List (Stmt Unit)) :
    Parse (Option (List (Stmt Unit))) := do
  if ← atEnd then pure none else declarationRound rules program

theorem chain_eq (operand : Parse (Expr Unit)) (joins : Joins) :
    chain operand joins = operand >>= many (chainRound operand joins) := rfl

theorem parameters_eq : parameters = (do
    if ← check .rightParen then pure []
    else
      let params ←
        (fun t => [t.mark]) <$> consume .identifier .parameterName >>= many parameterRound
      pure params.reverse) := by
  simp only [bind_map_left, bind_assoc]
  rfl

theorem arguments_eq (rules : Rules) : arguments rules = (do
    if ← check .rightParen then pure []
    else
      let args ← (fun e => [e]) <$> rules.expression >>= many (argumentRound rules)
      pure args.reverse) := by
  simp only [bind_map_left, bind_assoc]
  rfl

theorem block_eq (rules : Rules) : block rules = (do
    let body ← many (bodyRound rules) []
    let _ ← consume .rightBrace .blockClose
    pure body.reverse) := rfl

theorem classBody_eq (rules : Rules) (name : Mark) (superclass : Option (Mark × Unit)) :
    classBody rules name superclass = (do
      let _ ← consume .leftBrace .classOpen
      let methods ← many (methodRound rules) []
      let _ ← consume .rightBrace .classClose
      pure (.classDecl name superclass methods.reverse)) := rfl

theorem program_eq (rules : Rules) :
    program rules = List.reverse <$> many (programRound rules) [] := rfl

/-! ### What the rules do on derivations -/

/-- What must follow an expression of the given looseness: nothing that it could take, also at its
end. -/
def Ends (g : Bool) (e : Expr Unit) (looseness : Nat) (kind : TokenKind) : Prop :=
  (if e.endsOpen then 10 else looseness) ≤ kind.strength g

theorem Ends.mono {g : Bool} {e : Expr Unit} {l l' : Nat} {kind : TokenKind} (h : Ends g e l kind)
    (hl : l' ≤ l) : Ends g e l' kind := by
  refine Nat.le_trans ?_ h
  cases e.endsOpen
  · exact hl
  · exact Nat.le_refl _

/-- What the rule of a symbol does on the tokens of a derivation. -/
def Recognised (n : Nat) (g : Bool) : Symbol → List Token → Phrase → Prop
  | .primary, ts, .expr e => Reads n g (primary .full) ts e fun _ => True
  | .call, ts, .expr e => Reaches n g (call .full) (callRound .full) ts e fun _ => True
  | .unary, ts, .expr e => Reads n g Rules.full.unary ts e fun κ => 0 < κ.strength g
  | .chain ℓ, ts, .expr e => Reaches n g (ℓ.rule .full) (chainRound (ℓ.operandRule .full) ℓ.joins)
      ts e fun κ => ℓ.index ≤ κ.strength g
  | .conditional, ts, .expr e => Reads n g (conditional .full) ts e (Ends g e 8)
  | .assignment, ts, .expr e => Reads n g Rules.full.assignment ts e (Ends g e 9)
  | .expression, ts, .expr e =>
    Reaches n g Rules.full.expression (sequenceRound .full) ts e (Ends g e 9)
  | .list, ts, .exprs es => g = true →
      Reaches n g ((fun e => [e]) <$> Rules.full.expression >>= many (argumentRound .full))
        (argumentRound .full) ts es.reverse fun κ => 10 ≤ κ.strength g
  | .arguments, ts, .exprs es => g = true → Reads n g (arguments .full) ts es (· = .rightParen)
  | .names, ts, .names ms =>
    Reaches n g ((fun t => [t.mark]) <$> consume .identifier .parameterName >>= many parameterRound)
      parameterRound ts ms.reverse fun _ => True
  | .parameters, ts, .names ms => Reads n g parameters ts ms (· = .rightParen)
  | .function, ts, .fn fn => ∀ kind, Reads n g (functionRest .full kind) ts fn fun _ => True
  | .clause, ts, .clause o => ∀ kind, kind = .semicolon ∨ kind = .rightParen →
      Reads n g (clauseBefore kind .full) ts o (· = kind)
  | .variable, ts, .stmt s => Reads n g (varDeclaration .full) ts s fun _ => True
  | .simple, ts, .stmt s => Reads n g (expressionStatement .full) ts s fun _ => True
  | .initializer, ts, .initial i => Reads n g (forInitial .full) ts i fun _ => True
  | .methods, ts, .methods ms => Reaches n g (many (methodRound .full) []) (methodRound .full) ts
      ms.reverse fun _ => True
  | .statement o, ts, .stmt s => g = false →
      Reads n g Rules.full.statement ts s fun κ => o = true → κ ≠ .elseKw
  | .declaration, ts, .stmt s => g = false →
      Reads n g Rules.full.declaration ts (some s) (· ≠ .elseKw)
  | .declarations, ts, .stmts ss => g = false →
      ∀ round, (∀ body c, Token.next c.rest ≠ .eof → Token.next c.rest ≠ .rightBrace →
        round body c = declarationRound .full body c) →
      Reaches n g (many round []) round ts ss.reverse (· ≠ .elseKw)
  | _, _, _ => True

namespace Recognised

variable {n : Nat} {g : Bool} {ts : List Token} {e : Expr Unit}

theorem call_reads (h : Reaches n g (call .full) (callRound .full) ts e fun _ => True) :
    Reads n g (call .full) ts e fun κ => 0 < κ.strength g := by
  refine h.reads ?_ fun _ _ => trivial
  unfold callRound
  refine .peek_end fun t ht => ?_
  split
  · next hk => rw [hk] at ht; cases ht
  · next hk => rw [hk] at ht; cases ht
  · exact .pure

theorem chain_reads {ℓ : Level}
    (h : Reaches n g (ℓ.rule .full) (chainRound (ℓ.operandRule .full) ℓ.joins) ts e
      fun κ => ℓ.index ≤ κ.strength g) :
    Reads n g (ℓ.rule .full) ts e fun κ => ℓ.index < κ.strength g := by
  refine h.reads ?_ fun _ hκ => Nat.le_of_lt hκ
  unfold chainRound
  refine .peek_end fun t ht => ?_
  cases hj : ℓ.joins t with
  | none => exact .pure
  | some join =>
    -- an operator of the level is exactly as strong as the level
    rcases Level.joins_eq_some.mp hj with ⟨op, hℓ, hk, -⟩ | ⟨op, rfl, hk, -⟩
    · rw [hk, Level.strength_of_level? hℓ] at ht
      exact absurd ht (Nat.lt_irrefl _)
    · rw [hk, Level.strength_of_level] at ht
      exact absurd ht (Nat.lt_irrefl _)

theorem operand_reads {ℓ : Level} (h : Recognised n g ℓ.operand ts (.expr e)) :
    Reads n g (ℓ.operandRule .full) ts e fun κ => ℓ.index ≤ κ.strength g := by
  cases ℓ with
  | product => exact h
  | sum | comparison | equality | conjunction | disjunction => exact chain_reads h

theorem expression_reads
    (h : Reaches n g Rules.full.expression (sequenceRound .full) ts e (Ends g e 9)) :
    Reads n g Rules.full.expression ts e fun κ => 10 ≤ κ.strength g := by
  refine h.reads ?_ fun κ hκ => ?_
  · unfold sequenceRound
    refine .isGrouped ?_
    cases g with
    | true => exact .pure
    | false =>
      refine .accept_none .pure fun k hk hcomma => ?_
      rw [List.nil_append] at hcomma
      rw [hcomma] at hk
      exact absurd hk (by decide)
  · unfold Ends
    split <;> omega

/-! ### Expressions -/

variable {F : TokenKind → Prop} {t l r : Token} {ts' : List Token}

theorem group (hl : l.kind = .leftParen)
    (h : Reads n true Rules.full.expression ts e fun κ => 10 ≤ κ.strength true)
    (hr : r.kind = .rightParen) :
    Reads n g (primary .full) (l :: (ts ++ [r])) (.group e) fun _ => True := by
  unfold primary
  refine .peek ?_
  simp only [hl]
  refine .advance (.within (h.bind (.consume hr .pure) fun k _ => ?_))
  simp [hr]

theorem callee (h : Reads n g (primary .full) ts e fun _ => True) :
    Reaches n g (Grammar.call .full) (callRound .full) ts e fun _ => True :=
  .start h

theorem call {es : List (Expr Unit)}
    (h : Reaches n g (call .full) (callRound .full) ts e fun _ => True) (hl : l.kind = .leftParen)
    (ha : Reads n true (arguments .full) ts' es (· = .rightParen)) (hr : r.kind = .rightParen) :
    Reaches n g (Grammar.call .full) (callRound .full) (ts ++ l :: (ts' ++ [r]))
      (.call e r.mark es) fun _ => True := by
  refine h.step ?_ (by simp) fun _ _ => trivial
  unfold callRound
  refine .peek ?_
  simp only [hl]
  refine .advance (.bind_pure (.within (ha.bind (.consume hr .pure) fun k _ => ?_)))
  simpa using hr

theorem property {dot m : Token}
    (h : Reaches n g (Grammar.call .full) (callRound .full) ts e fun _ => True)
    (hd : dot.kind = .dot) (hm : m.kind = .identifier) :
    Reaches n g (Grammar.call .full) (callRound .full) (ts ++ [dot, m]) (.get e m.mark)
      fun _ => True := by
  refine h.step ?_ (by simp) fun _ _ => trivial
  unfold callRound
  refine .peek ?_
  simp only [hd]
  exact .advance (.consume hm .pure)

theorem operand (ho : Opens TokenKind.startsCall ts)
    (h : Reads n g (Grammar.call .full) ts e fun κ => 0 < κ.strength g) :
    Reads (n + 1) g Rules.full.unary ts e fun κ => 0 < κ.strength g := by
  refine .congr (.nested ?_) fun c hc _ => Rules.full_unary hc
  obtain ⟨t, k, rfl, ht, -⟩ := ho
  refine .peek ?_
  split
  · next hk => rw [hk] at ht; cases ht
  · next hk => rw [hk] at ht; cases ht
  · exact h

theorem unary {op : UnaryOp} (ht : t.kind = op.spelling)
    (h : Reads n g Rules.full.unary ts e fun κ => 0 < κ.strength g) :
    Reads (n + 1) g Rules.full.unary (t :: ts) (.unary op t.mark e) fun κ => 0 < κ.strength g := by
  refine .congr (.nested (.peek ?_)) fun c hc _ => Rules.full_unary hc
  cases op with
  | not =>
    have ht : t.kind = .bang := ht
    simp only [ht]
    exact .advance h.bind_pure
  | negate =>
    have ht : t.kind = .minus := ht
    simp only [ht]
    exact .advance h.bind_pure

theorem single {ℓ : Level}
    (h : Reads n g (ℓ.operandRule .full) ts e fun κ => ℓ.index ≤ κ.strength g) :
    Reaches n g (ℓ.rule .full) (chainRound (ℓ.operandRule .full) ℓ.joins) ts e
      fun κ => ℓ.index ≤ κ.strength g := by
  rw [Level.rule_eq, chain_eq]
  exact .start h

theorem join {ℓ : Level} {right : Expr Unit} {join : Expr Unit → Expr Unit → Expr Unit}
    (h : Reaches n g (ℓ.rule .full) (chainRound (ℓ.operandRule .full) ℓ.joins) ts e
      fun κ => ℓ.index ≤ κ.strength g)
    (hj : ℓ.joins t = some join) (ht : t.kind.strength g = ℓ.index)
    (hr : Reads n g (ℓ.operandRule .full) ts' right fun κ => ℓ.index ≤ κ.strength g) :
    Reaches n g (ℓ.rule .full) (chainRound (ℓ.operandRule .full) ℓ.joins) (ts ++ t :: ts')
      (join e right) fun κ => ℓ.index ≤ κ.strength g := by
  refine h.step ?_ (by simp) fun k _ => by simp [ht]
  unfold chainRound
  refine .peek ?_
  rw [hj]
  exact .advance hr.bind_pure

theorem disjunction (ho : e.endsOpen = false)
    (h : Reads n g (Grammar.disjunction .full) ts e fun κ => 6 < κ.strength g) :
    Reads n g (Grammar.conditional .full) ts e (Ends g e 8) := by
  have hends : ∀ κ, Ends g e 8 κ → 7 < κ.strength g := by
    intro κ hκ
    have : 8 ≤ κ.strength g := by simpa [Ends, ho] using hκ
    omega
  refine h.bind_nil (.accept_none .pure fun k hk hq => ?_) fun κ hκ => ?_
  · rw [List.nil_append] at hq
    have := hends _ hk
    rw [hq] at this
    exact absurd this (by simp)
  · have := hends _ hκ
    omega

theorem conditional {q colon : Token} {ts₁ ts₂ : List Token} {yes no : Expr Unit}
    (h : Reads n g (Grammar.disjunction .full) ts e fun κ => 6 < κ.strength g)
    (hq : q.kind = .question)
    (hy : Reads n g Rules.full.expression ts₁ yes fun κ => 10 ≤ κ.strength g)
    (hc : colon.kind = .colon)
    (hn : Reads n g Rules.full.expression ts₂ no fun κ => 10 ≤ κ.strength g) :
    Reads n g (Grammar.conditional .full) (ts ++ q :: (ts₁ ++ colon :: ts₂))
      (.conditional e yes no) (Ends g (.conditional e yes no) 8) := by
  refine h.bind (.accept_some hq (hy.bind (.consume hc hn.bind_pure) fun k _ => ?_)) fun k _ => ?_
  · simp [hc]
  · simp [hq]

theorem unassigned (h : Reads n g (Grammar.conditional .full) ts e (Ends g e 8)) :
    Reads (n + 1) g Rules.full.assignment ts e (Ends g e 9) := by
  refine .congr (.nested (h.bind_nil ?_ fun κ hκ => ?_)) fun c hc _ => Rules.full_assignment hc
  · refine .accept_none .pure fun k hk heq => ?_
    rw [List.nil_append] at heq
    rw [heq] at hk
    unfold Ends at hk
    split at hk <;> simp at hk
  · exact hκ.mono (by decide)

/-- An assignment to a name or property: the target is read as a choice and then replaced. -/
theorem assigned {target value replaced : Expr Unit}
    (h : Reads n g (Grammar.conditional .full) ts target (Ends g target 8)) (ht : t.kind = .equal)
    (hv : Reads n g Rules.full.assignment ts' value (Ends g value 9))
    (hreplaced : target.endsOpen = false ∧ replaced.endsOpen = value.endsOpen ∧
      ((∃ m, target = .name m () ∧ replaced = .assign m () value) ∨
        ∃ o m, target = .get o m ∧ replaced = .set o m value)) :
    Reads (n + 1) g Rules.full.assignment (ts ++ t :: ts') replaced (Ends g replaced 9) := by
  obtain ⟨hclosed, hopen, hreplaced⟩ := hreplaced
  have hv : Reads n g Rules.full.assignment ts' value (Ends g replaced 9) := by
    refine hv.mono fun κ hκ => ?_
    rw [Ends, hopen] at hκ
    exact hκ
  refine .congr (.nested ?_) fun c hc _ => Rules.full_assignment hc
  refine h.bind (.accept_some ht ?_) fun k _ => ?_
  · rcases hreplaced with ⟨m, rfl, rfl⟩ | ⟨o, m, rfl, rfl⟩
    · exact hv.bind_pure
    · exact hv.bind_pure
  · simp [Ends, hclosed, ht]

theorem lone (h : Reads n g Rules.full.assignment ts e (Ends g e 9)) :
    Reaches n g Rules.full.expression (sequenceRound .full) ts e (Ends g e 9) :=
  .congr (.start h) fun _ hc _ => Rules.full_expression hc

theorem sequence {right : Expr Unit}
    (h : Reaches n false Rules.full.expression (sequenceRound .full) ts e (Ends false e 9))
    (ho : e.endsOpen = false) (ht : t.kind = .comma)
    (hr : Reads n false Rules.full.assignment ts' right (Ends false right 9)) :
    Reaches n false Rules.full.expression (sequenceRound .full) (ts ++ t :: ts')
      (.binary .sequence t.mark e right) (Ends false (.binary .sequence t.mark e right) 9) := by
  refine h.step (.isGrouped (.accept_some ht hr.bind_pure)) (by simp) fun k _ => ?_
  simp [Ends, ho, ht]

/-! ### Lists -/

theorem firstItem (h : Reads n g Rules.full.expression ts e fun κ => 10 ≤ κ.strength g) :
    Reaches n g ((fun e => [e]) <$> Rules.full.expression >>= many (argumentRound .full))
      (argumentRound .full) ts [e] fun κ => 10 ≤ κ.strength g :=
  .start h.map

theorem nextItem {p : Parse (List (Expr Unit))} {es : List (Expr Unit)}
    (h : Reaches n true p (argumentRound .full) ts es.reverse fun κ => 10 ≤ κ.strength true)
    (hlen : es.length < maxArguments) (ht : t.kind = .comma)
    (he : Reads n true Rules.full.expression ts' e fun κ => 10 ≤ κ.strength true) :
    Reaches n true p (argumentRound .full) (ts ++ t :: ts') (es ++ [e]).reverse
      fun κ => 10 ≤ κ.strength true := by
  have hfull : ¬ maxArguments ≤ es.reverse.length := by simpa using hlen
  rw [List.reverse_append]
  refine h.step ?_ (by simp) fun k _ => by simp [ht]
  refine .accept_some ht ?_
  simp only [if_neg hfull]
  exact he.bind_pure

theorem arguments {es : List (Expr Unit)} (ho : Opens TokenKind.startsExpression ts)
    (h : Reaches n true ((fun e => [e]) <$> Rules.full.expression >>= many (argumentRound .full))
      (argumentRound .full) ts es.reverse fun κ => 10 ≤ κ.strength true) :
    Reads n true (Grammar.arguments .full) ts es (· = .rightParen) := by
  have hitems : Reads n true
      ((fun e => [e]) <$> Rules.full.expression >>= many (argumentRound .full)) ts es.reverse
      (· = .rightParen) := by
    refine h.reads (.accept_none .pure fun k hk => ?_) fun κ hκ => ?_
    · rw [List.nil_append, hk]
      decide
    · rw [hκ]
      decide
  rw [arguments_eq]
  refine .check_false ?_ fun k _ hk => ?_
  · simpa using hitems.bind_pure (h := List.reverse)
  · have := ho.next k
    rw [hk] at this
    cases this

theorem firstName {m : Token} (hm : m.kind = .identifier) :
    Reaches n g ((fun t => [t.mark]) <$> consume .identifier .parameterName >>= many parameterRound)
      parameterRound [m] [m.mark] fun _ => True := by
  have h : Reads n g (consume .identifier .parameterName >>= pure) [m] m fun _ => True :=
    .consume hm .pure
  rw [bind_pure] at h
  exact .start h.map

theorem nextName {p : Parse (List Mark)} {ms : List Mark} {m : Token}
    (h : Reaches n g p parameterRound ts ms.reverse fun _ => True)
    (hlen : ms.length < maxArguments) (ht : t.kind = .comma) (hm : m.kind = .identifier) :
    Reaches n g p parameterRound (ts ++ [t, m]) (ms ++ [m.mark]).reverse fun _ => True := by
  have hfull : ¬ maxArguments ≤ ms.reverse.length := by simpa using hlen
  rw [List.reverse_append]
  refine h.step ?_ (by simp) fun _ _ => trivial
  refine .accept_some ht ?_
  simp only [if_neg hfull]
  exact .consume hm .pure

theorem parameters {ms : List Mark} (ho : Opens (· = .identifier) ts)
    (h : Reaches n g ((fun t => [t.mark]) <$> consume .identifier .parameterName >>=
      many parameterRound) parameterRound ts ms.reverse fun _ => True) :
    Reads n g Grammar.parameters ts ms (· = .rightParen) := by
  have hnames : Reads n g ((fun t => [t.mark]) <$> consume .identifier .parameterName >>=
      many parameterRound) ts ms.reverse (· = .rightParen) := by
    refine h.reads (.accept_none .pure fun k hk => ?_) fun _ _ => trivial
    rw [List.nil_append, hk]
    decide
  rw [parameters_eq]
  refine .check_false ?_ fun k _ hk => ?_
  · simpa using hnames.bind_pure (h := List.reverse)
  · have := ho.next k
    rw [hk] at this
    cases this

/-! ### Functions and declarations -/

theorem block {ss : List (Stmt Unit)} (hr : r.kind = .rightBrace)
    (h : Reaches n false (many (bodyRound .full) []) (bodyRound .full) ts ss.reverse
      (· ≠ .elseKw)) :
    Reads n false (Grammar.block .full) (ts ++ [r]) ss fun _ => True := by
  have hbody : Reads n false (many (bodyRound .full) []) ts ss.reverse (· = .rightBrace) := by
    refine h.reads (.atEnd (.check_true .pure nofun fun k hk => hk) fun k hk => ?_) fun κ hκ => ?_
    · rw [List.nil_append, hk]
      decide
    · rw [hκ]
      decide
  rw [block_eq]
  refine hbody.bind (.consume hr ?_) fun k _ => hr
  rw [List.reverse_reverse]
  exact .pure

theorem bodyRound_eq {body : List (Stmt Unit)} {c : Cursor} (he : Token.next c.rest ≠ .eof)
    (hb : Token.next c.rest ≠ .rightBrace) :
    bodyRound .full body c = declarationRound .full body c := by
  unfold bodyRound
  cases hr : c.rest with
  | nil => simp [hr] at he
  | cons t k =>
    have hb : t.kind ≠ .rightBrace := by simpa [hr] using hb
    simp [bind, Parse.bind, atEnd, check, hr, hb]

theorem function {ms : List Mark} {ss : List (Stmt Unit)} {brace : Token}
    (h : Reads n g Grammar.parameters ts ms (· = .rightParen)) (hr : r.kind = .rightParen)
    (hl : l.kind = .leftBrace)
    (hb : Reads n false (Grammar.block .full) (ts' ++ [brace]) ss fun _ => True)
    (kind : FunctionKind) :
    Reads n g (functionRest .full kind) (ts ++ r :: l :: (ts' ++ [brace])) (.mk ms ss)
      fun _ => True :=
  h.bind (.consume hr (.consume hl hb.within.bind_pure)) fun _ _ => hr

theorem functionDeclaration {m : Token} {fn : Function Unit} {kind : FunctionKind}
    (hm : m.kind = .identifier) (hl : l.kind = .leftParen)
    (h : Reads n g (functionRest .full kind) ts fn fun _ => True) :
    Reads n g (Grammar.functionDeclaration .full kind) (m :: l :: ts) (m.mark, fn) fun _ => True :=
  .consume hm (.consume hl h.bind_pure)

theorem clause {kind : TokenKind} (hkind : kind = .semicolon ∨ kind = .rightParen)
    (ho : Opens TokenKind.startsExpression ts)
    (h : Reads n g Rules.full.expression ts e fun κ => 10 ≤ κ.strength g) :
    Reads n g (clauseBefore kind .full) ts (some e) (· = kind) := by
  refine .check_false (h.map.mono fun κ hκ => ?_) fun k _ hk => ?_
  · rcases hkind with rfl | rfl <;> simp [hκ]
  · have := ho.next k
    rw [hk] at this
    rcases hkind with rfl | rfl <;> cases this

theorem simple (h : Reads n g Rules.full.expression ts e fun κ => 10 ≤ κ.strength g)
    (ht : t.kind = .semicolon) :
    Reads n g (expressionStatement .full) (ts ++ [t]) (.expression e) fun _ => True :=
  h.bind (.consume ht .pure) fun k _ => by simp [ht]

theorem initialized {m q : Token} (hm : m.kind = .identifier) (hq : q.kind = .equal)
    (h : Reads n g Rules.full.expression ts e fun κ => 10 ≤ κ.strength g)
    (ht : t.kind = .semicolon) :
    Reads n g (varDeclaration .full) (m :: q :: (ts ++ [t])) (.varDecl m.mark (some e))
      fun _ => True := by
  refine .consume hm (.accept_some hq (h.map.bind (.consume ht .pure) fun k _ => ?_))
  simp [ht]

theorem initializer {s : Stmt Unit} (ho : Opens TokenKind.startsExpression ts)
    (h : Reads n g (expressionStatement .full) ts s fun _ => True) :
    Reads n g (forInitial .full) ts (some s) fun _ => True := by
  obtain ⟨t, k, rfl, ht, -⟩ := ho
  refine .peek ?_
  split
  · next hk => rw [hk] at ht; cases ht
  · next hk => rw [hk] at ht; cases ht
  · exact h.map

/-- A method in front of a closing brace or another method. -/
theorem method {ms : List (Method Unit)} {m : Method Unit}
    (h : Reaches n g (many (methodRound .full) []) (methodRound .full) ts ms.reverse fun _ => True)
    (hm : Reads n g (Grammar.method .full) ts' m fun _ => True)
    (hnext : ∀ k, Token.next (ts' ++ k) ≠ .eof ∧ Token.next (ts' ++ k) ≠ .rightBrace) :
    Reaches n g (many (methodRound .full) []) (methodRound .full) (ts ++ ts') (ms ++ [m]).reverse
      fun _ => True := by
  rw [List.reverse_append]
  refine h.step ?_ (fun hnil => ?_) fun _ _ => trivial
  · refine .atEnd (.check_false ?_ fun k _ => (hnext k).2) fun k _ => (hnext k).1
    exact hm.bind_pure
  · have := (hnext []).1
    rw [hnil] at this
    exact this rfl

theorem classBody {name : Mark} {superclass : Option (Mark × Unit)} {ms : List (Method Unit)}
    (hl : l.kind = .leftBrace)
    (h : Reaches n g (many (methodRound .full) []) (methodRound .full) ts ms.reverse fun _ => True)
    (hr : r.kind = .rightBrace) :
    Reads n g (Grammar.classBody .full name superclass) (l :: (ts ++ [r]))
      (.classDecl name superclass ms) fun _ => True := by
  have hms : Reads n g (many (methodRound .full) []) ts ms.reverse (· = .rightBrace) := by
    refine h.reads (.atEnd (.check_true .pure nofun fun k hk => hk) fun k hk => ?_)
      fun _ _ => trivial
    rw [List.nil_append, hk]
    decide
  rw [classBody_eq]
  refine .consume hl (hms.bind (.consume hr ?_) fun k _ => hr)
  rw [List.reverse_reverse]
  exact .pure

/-! ### Statements -/

variable {s : Stmt Unit}

theorem expression (ho : Opens TokenKind.startsExpression ts)
    (h : Reads n false (expressionStatement .full) ts s fun _ => True) :
    Reads (n + 1) false Rules.full.statement ts s F := by
  refine .congr (.nested ?_) fun c hc hg => Rules.full_statement hc hg
  obtain ⟨t, k, rfl, ht, -⟩ := ho
  refine .peek (.mono ?_ fun _ _ => trivial)
  split
  case h_8 => exact h
  all_goals next hk => rw [hk] at ht; cases ht

theorem print (ht : t.kind = .printKw)
    (h : Reads n false Rules.full.expression ts e fun κ => 10 ≤ κ.strength false)
    (hr : r.kind = .semicolon) :
    Reads (n + 1) false Rules.full.statement (t :: (ts ++ [r])) (.print e) F := by
  refine .congr (.nested (.peek ?_)) fun c hc hg => Rules.full_statement hc hg
  simp only [ht]
  exact .advance (h.bind (.consume hr .pure) fun k _ => by simp [hr])

theorem blockStatement {ss : List (Stmt Unit)} (hl : l.kind = .leftBrace)
    (h : Reads n false (Grammar.block .full) (ts ++ [r]) ss fun _ => True) :
    Reads (n + 1) false Rules.full.statement (l :: (ts ++ [r])) (.block ss) F := by
  refine .congr (.nested (.peek ?_)) fun c hc hg => Rules.full_statement hc hg
  simp only [hl]
  exact .advance (h.bind_pure.mono fun _ _ => trivial)

/-- A condition in parentheses. -/
theorem condition {β : Type} {b : β} {f : Expr Unit → Parse β} {what : Expected}
    (h : Reads n false Rules.full.expression ts e fun κ => 10 ≤ κ.strength false)
    (hr : r.kind = .rightParen) (hf : Reads n false (f e) ts' b F) :
    Reads n false (do
      let e ← Rules.full.expression
      let _ ← consume .rightParen what
      f e) (ts ++ r :: ts') b F :=
  h.bind (.consume hr hf) fun k _ => by simp [hr]

theorem ifThen {o : Bool} {y : Stmt Unit} (ht : t.kind = .ifKw) (hl : l.kind = .leftParen)
    (h : Reads n false Rules.full.expression ts e fun κ => 10 ≤ κ.strength false)
    (hr : r.kind = .rightParen)
    (hy : Reads n false Rules.full.statement ts' y fun κ => o = true → κ ≠ .elseKw) :
    Reads (n + 1) false Rules.full.statement (t :: l :: (ts ++ r :: ts')) (.branch e y none)
      (· ≠ .elseKw) := by
  refine .congr (.nested (.peek ?_)) fun c hc hg => Rules.full_statement hc hg
  simp only [ht]
  refine .advance (.consume hl (condition h hr ?_))
  exact hy.bind_nil (.accept_none .pure fun k hk => hk) fun κ hκ _ => hκ

theorem ifElse {o : Bool} {y s : Stmt Unit} {els : Token} {ts₁ ts₂ : List Token}
    (ht : t.kind = .ifKw) (hl : l.kind = .leftParen)
    (h : Reads n false Rules.full.expression ts e fun κ => 10 ≤ κ.strength false)
    (hr : r.kind = .rightParen)
    (hy : Reads n false Rules.full.statement ts₁ y fun κ => false = true → κ ≠ .elseKw)
    (he : els.kind = .elseKw)
    (hs : Reads n false Rules.full.statement ts₂ s fun κ => o = true → κ ≠ .elseKw) :
    Reads (n + 1) false Rules.full.statement (t :: l :: (ts ++ r :: (ts₁ ++ els :: ts₂)))
      (.branch e y (some s)) fun κ => o = true → κ ≠ .elseKw := by
  refine .congr (.nested (.peek ?_)) fun c hc hg => Rules.full_statement hc hg
  simp only [ht]
  refine .advance (.consume hl (condition h hr ?_))
  exact hy.bind (.accept_some he hs.bind_pure) fun k _ => nofun

theorem whileLoop {o : Bool} {b : Stmt Unit} (ht : t.kind = .whileKw) (hl : l.kind = .leftParen)
    (h : Reads n false Rules.full.expression ts e fun κ => 10 ≤ κ.strength false)
    (hr : r.kind = .rightParen)
    (hb : Reads n false Rules.full.statement ts' b fun κ => o = true → κ ≠ .elseKw) :
    Reads (n + 1) false Rules.full.statement (t :: l :: (ts ++ r :: ts')) (.loop e b)
      fun κ => o = true → κ ≠ .elseKw := by
  refine .congr (.nested (.peek ?_)) fun c hc hg => Rules.full_statement hc hg
  simp only [ht]
  exact .advance (.consume hl (condition h hr hb.bind_pure))

theorem forLoop {o : Bool} {b : Stmt Unit} {i : Option (Stmt Unit)} {cond inc : Option (Expr Unit)}
    {sep : Token} {ts₁ ts₂ ts₃ ts₄ : List Token} (ht : t.kind = .forKw) (hl : l.kind = .leftParen)
    (hi : Reads n false (forInitial .full) ts₁ i fun _ => True)
    (hc : Reads n false (clauseBefore .semicolon .full) ts₂ cond (· = .semicolon))
    (hsep : sep.kind = .semicolon)
    (hinc : Reads n false (clauseBefore .rightParen .full) ts₃ inc (· = .rightParen))
    (hr : r.kind = .rightParen)
    (hb : Reads n false Rules.full.statement ts₄ b fun κ => o = true → κ ≠ .elseKw) :
    Reads (n + 1) false Rules.full.statement
      (t :: l :: (ts₁ ++ (ts₂ ++ sep :: (ts₃ ++ r :: ts₄)))) (Grammar.forLoop i cond inc b)
      fun κ => o = true → κ ≠ .elseKw := by
  refine .congr (.nested (.peek ?_)) fun c hc hg => Rules.full_statement hc hg
  simp only [ht]
  rw [forStatement_eq]
  refine .advance (.consume hl (hi.bind ?_ fun _ _ => trivial))
  refine hc.bind (.consume hsep ?_) fun _ _ => hsep
  exact hinc.bind (.consume hr hb.bind_pure) fun _ _ => hr

theorem ret {o : Option (Expr Unit)} (ht : t.kind = .returnKw)
    (h : Reads n false (clauseBefore .semicolon .full) ts o (· = .semicolon))
    (hr : r.kind = .semicolon) :
    Reads (n + 1) false Rules.full.statement (t :: (ts ++ [r])) (.ret t.mark o) F := by
  refine .congr (.nested (.peek ?_)) fun c hc hg => Rules.full_statement hc hg
  simp only [ht]
  rw [returnStatement_eq]
  exact .advance (h.bind (.consume hr .pure) fun _ _ => hr)

theorem brk (ht : t.kind = .breakKw) (hr : r.kind = .semicolon) :
    Reads (n + 1) false Rules.full.statement [t, r] (.brk t.mark) F := by
  refine .congr (.nested (.peek ?_)) fun c hc hg => Rules.full_statement hc hg
  simp only [ht]
  exact .advance (.consume hr .pure)

/-! ### Declarations -/

theorem statement {o : Bool} (ho : Opens TokenKind.startsStatement ts)
    (h : Reads n false Rules.full.statement ts s fun κ => o = true → κ ≠ .elseKw) :
    Reads n false Rules.full.declaration ts (some s) (· ≠ .elseKw) := by
  have h : Reads n false Rules.full.statement ts s (· ≠ .elseKw) := h.mono fun κ hκ _ => hκ
  refine .congr (.recovering ?_) fun c hc hg => Rules.full_declaration hc hg
  obtain ⟨t, k, rfl, ht, hfun⟩ := ho
  refine .peek ?_
  split
  · next hk => rw [hk] at ht; cases ht
  · next hk => rw [hk] at ht; cases ht
  · next hk => rw [hk] at ht; cases ht
  · next hk =>
    -- the word `fun` starts a statement here, so no name follows it
    cases k with
    | nil => cases hfun hk
    | cons s k =>
      have hs : s.kind = .leftParen := hfun hk
      exact .checkSecond_false h (by simp [hs])
  · exact h

theorem varDecl (ht : t.kind = .varKw)
    (h : Reads n false (varDeclaration .full) ts s fun _ => True) :
    Reads n false Rules.full.declaration (t :: ts) (some s) F := by
  refine .congr (.recovering (.peek ?_)) fun c hc hg => Rules.full_declaration hc hg
  simp only [ht]
  exact .advance (h.mono fun _ _ => trivial)

theorem funDecl {m : Token} {fn : Function Unit} (ht : t.kind = .funKw) (hm : m.kind = .identifier)
    (hl : l.kind = .leftParen)
    (h : Reads n false (functionRest .full .function) ts fn fun _ => True) :
    Reads n false Rules.full.declaration (t :: m :: l :: ts) (some (.funDecl m.mark fn)) F := by
  refine .congr (.recovering (.peek ?_)) fun c hc hg => Rules.full_declaration hc hg
  simp only [ht]
  refine .checkSecond_true (.advance ?_) hm
  exact (functionDeclaration hm hl h).bind_pure.mono fun _ _ => trivial

theorem classDecl {m : Token} {ms : List (Method Unit)} (ht : t.kind = .classKw)
    (hm : m.kind = .identifier) (hl : l.kind = .leftBrace)
    (h : Reads n false (Grammar.classBody .full m.mark none) (l :: ts)
      (.classDecl m.mark none ms) fun _ => True) :
    Reads n false Rules.full.declaration (t :: m :: l :: ts) (some (.classDecl m.mark none ms))
      F := by
  refine .congr (.recovering (.peek ?_)) fun c hc hg => Rules.full_declaration hc hg
  simp only [ht, classDeclaration_eq]
  refine .advance (.consume hm (.accept_none (h.mono fun _ _ => trivial) fun k _ => ?_))
  simp [hl]

theorem subclassDecl {m less sup : Token} {ms : List (Method Unit)} (ht : t.kind = .classKw)
    (hm : m.kind = .identifier) (hless : less.kind = .less) (hsup : sup.kind = .identifier)
    (h : Reads n false (Grammar.classBody .full m.mark (some (sup.mark, ()))) ts
      (.classDecl m.mark (some (sup.mark, ())) ms) fun _ => True) :
    Reads n false Rules.full.declaration (t :: m :: less :: sup :: ts)
      (some (.classDecl m.mark (some (sup.mark, ())) ms)) F := by
  refine .congr (.recovering (.peek ?_)) fun c hc hg => Rules.full_declaration hc hg
  simp only [ht, classDeclaration_eq]
  exact .advance (.consume hm (.accept_some hless (.consume hsup (h.mono fun _ _ => trivial))))

theorem importDecl {path : Token} (ht : t.kind = .importKw) (hp : path.kind = .string)
    (hr : r.kind = .semicolon) :
    Reads n false Rules.full.declaration [t, path, r] (some (.importDecl path none)) F := by
  refine .congr (.recovering (.peek ?_)) fun c hc hg => Rules.full_declaration hc hg
  simp only [ht]
  refine .advance (.consume hp (.accept_none (.consume hr .pure) fun k _ => ?_))
  simp [hr]

theorem importAs {path as m : Token} (ht : t.kind = .importKw) (hp : path.kind = .string)
    (has : as.kind = .asKw) (hm : m.kind = .identifier) (hr : r.kind = .semicolon) :
    Reads n false Rules.full.declaration [t, path, as, m, r]
      (some (.importDecl path (some m.mark))) F := by
  refine .congr (.recovering (.peek ?_)) fun c hc hg => Rules.full_declaration hc hg
  simp only [ht]
  exact .advance (.consume hp (.accept_some has (.consume hm (.consume hr .pure))))

theorem declaration {ss : List (Stmt Unit)}
    {round : List (Stmt Unit) → Parse (Option (List (Stmt Unit)))}
    (hround : ∀ body c, Token.next c.rest ≠ .eof → Token.next c.rest ≠ .rightBrace →
      round body c = declarationRound .full body c)
    (h : Reaches n false (many round []) round ts ss.reverse (· ≠ .elseKw))
    (ho : (Token.next ts').startsDeclaration = true)
    (hs : Reads n false Rules.full.declaration ts' (some s) (· ≠ .elseKw)) :
    Reaches n false (many round []) round (ts ++ ts') (ss ++ [s]).reverse (· ≠ .elseKw) := by
  obtain ⟨t, k, rfl⟩ : ∃ t k, ts' = t :: k := by
    cases ts' with
    | nil => cases ho
    | cons t k => exact ⟨t, k, rfl⟩
  rw [List.reverse_append]
  refine h.step ?_ (by simp) fun k _ hk => ?_
  · intro c k' hc hg hr hk
    have hnext : (Token.next c.rest).startsDeclaration = true := by rwa [hr]
    rw [hround _ _ (fun he => by rw [he] at hnext; cases hnext)
      (fun he => by rw [he] at hnext; cases hnext)]
    exact hs.bind_nil (f := fun o => match o with
      | some s => Pure.pure (some (s :: ss.reverse))
      | none => Pure.pure (some ss.reverse)) .pure (fun _ hκ => hκ) hc hg hr hk
  · have hk : t.kind = .elseKw := hk
    have ho : t.kind.startsDeclaration = true := ho
    rw [hk] at ho
    cases ho

end Recognised

open Recognised (call_reads chain_reads operand_reads expression_reads)

/-- The rules follow every derivation. -/
theorem Derives.recognised {n : Nat} {g : Bool} {symbol : Symbol} {ts : List Token}
    {phrase : Phrase} (h : Derives n g symbol ts phrase) : Recognised n g symbol ts phrase := by
  induction h with
  | falseLit hk | trueLit hk | nilLit hk | numberLit hk | stringLit hk | name hk | receiver hk =>
    unfold Recognised primary
    refine .peek ?_
    simp only [hk]
    exact .advance .pure
  | inherited hk hd hm =>
    unfold Recognised primary
    refine .peek ?_
    simp only [hk]
    exact .advance (.consume hd (.consume hm .pure))
  | group hl _ hr ih => exact Recognised.group hl (expression_reads ih) hr
  | anonymous hk hl _ ih =>
    unfold Recognised primary
    refine .peek ?_
    simp only [hk]
    exact .advance (.consume hl (ih .function).bind_pure)
  | callee _ ih => exact Recognised.callee ih
  | call _ hl _ hr ih iha => exact Recognised.call ih hl (iha rfl) hr
  | property _ hd hm ih => exact Recognised.property ih hd hm
  | operand h ih => exact Recognised.operand h.opens (call_reads ih)
  | unary hk _ ih => exact Recognised.unary hk ih
  | single ℓ _ ih => exact Recognised.single (operand_reads ih)
  | binary _ hℓ hk _ ihl ihr =>
    refine Recognised.join ihl (Level.joins_eq_some.mpr (.inl ⟨_, hℓ, hk, rfl⟩)) ?_
      (operand_reads ihr)
    rw [hk, Level.strength_of_level? hℓ]
  | logical _ hℓ hk _ ihl ihr =>
    refine Recognised.join ihl (Level.joins_eq_some.mpr (.inr ⟨_, hℓ, hk, rfl⟩)) ?_
      (operand_reads ihr)
    rw [hk, Level.strength_of_level, hℓ]
  | disjunction h ih =>
    exact Recognised.disjunction (h.endsOpen_eq_false trivial rfl) (chain_reads ih)
  | conditional _ hq _ hc _ ih ihy ihn =>
    exact Recognised.conditional (chain_reads ih) hq (expression_reads ihy) hc
      (expression_reads ihn)
  | unassigned _ ih => exact Recognised.unassigned ih
  | assign _ ht _ ih ihv => exact Recognised.assigned ih ht ihv ⟨rfl, rfl, .inl ⟨_, rfl, rfl⟩⟩
  | set _ ht _ ih ihv => exact Recognised.assigned ih ht ihv ⟨rfl, rfl, .inr ⟨_, _, rfl, rfl⟩⟩
  | lone _ ih => exact Recognised.lone ih
  | sequence _ ho ht _ ihl ihr => exact Recognised.sequence ihl ho ht ihr
  | firstItem _ ih => exact fun _ => Recognised.firstItem (expression_reads ih)
  | nextItem _ hlen ht _ ih ihe =>
    rintro rfl
    exact Recognised.nextItem (ih rfl) hlen ht (expression_reads ihe)
  | noArguments =>
    rintro -
    rw [arguments_eq]
    exact .check_true .pure nofun fun _ hk => hk
  | arguments h ih =>
    rintro rfl
    exact Recognised.arguments h.opens (ih rfl)
  | firstName hk => exact Recognised.firstName hk
  | nextName _ hlen ht hm ih => exact Recognised.nextName ih hlen ht hm
  | noParameters =>
    rw [Recognised, parameters_eq]
    exact .check_true .pure nofun fun _ hk => hk
  | parameters h ih => exact Recognised.parameters h.opens ih
  | function _ hr hl _ he ihp ihb =>
    have hbody := Recognised.block he (ihb rfl _ fun _ _ => Recognised.bodyRound_eq)
    exact Recognised.function ihp hr hl hbody
  | noClause =>
    rintro kind (rfl | rfl)
    · exact .check_true .pure nofun fun _ hk => hk
    · exact .check_true .pure nofun fun _ hk => hk
  | clause h ih => exact fun kind hkind => Recognised.clause hkind h.opens (expression_reads ih)
  | unset hm ht =>
    unfold Recognised varDeclaration
    refine .consume hm (.accept_none (.consume ht .pure) fun k _ => ?_)
    simp [ht]
  | initialized hm hq _ ht ih => exact Recognised.initialized hm hq (expression_reads ih) ht
  | simple _ ht ih => exact Recognised.simple (expression_reads ih) ht
  | noInitializer ht =>
    unfold Recognised forInitial
    refine .peek ?_
    simp only [ht]
    exact .advance .pure
  | varInitializer ht _ ih =>
    unfold Recognised forInitial
    refine .peek ?_
    simp only [ht]
    exact .advance (.map ih)
  | initializer h ih => exact Recognised.initializer h.opens ih
  | noMethods =>
    unfold Recognised
    exact Reaches.init
  | method _ hm hl _ ih ihf =>
    refine Recognised.method ih (.accept_none ?_ fun k _ => by simp [hm]) fun k => by simp [hm]
    exact (Recognised.functionDeclaration hm hl (ihf _)).bind_nil .pure fun _ h => h
  | staticMethod _ ht hm hl _ ih ihf =>
    refine Recognised.method ih (.accept_some ht ?_) fun k => by simp [ht]
    exact (Recognised.functionDeclaration hm hl (ihf _)).bind_nil .pure fun _ h => h
  | expression h ih =>
    rintro rfl
    exact Recognised.expression h.opens ih
  | print ht _ hr ih =>
    rintro rfl
    exact Recognised.print ht (expression_reads ih) hr
  | block hl _ hr ih =>
    rintro rfl
    have hbody := Recognised.block hr (ih rfl _ fun _ _ => Recognised.bodyRound_eq)
    exact Recognised.blockStatement hl hbody
  | ifThen ht hl _ hr _ ihc ihy =>
    rintro rfl
    exact .mono (Recognised.ifThen ht hl (expression_reads ihc) hr (ihy rfl)) fun _ hκ => hκ rfl
  | ifElse ht hl _ hr _ he _ ihc ihy ihs =>
    rintro rfl
    exact Recognised.ifElse ht hl (expression_reads ihc) hr (ihy rfl) he (ihs rfl)
  | whileLoop ht hl _ hr _ ihc ihb =>
    rintro rfl
    exact Recognised.whileLoop ht hl (expression_reads ihc) hr (ihb rfl)
  | forLoop ht hl _ _ hsep _ hr _ ihi ihc ihinc ihb =>
    rintro rfl
    exact Recognised.forLoop ht hl ihi (ihc _ (.inl rfl)) hsep (ihinc _ (.inr rfl)) hr (ihb rfl)
  | ret ht _ hr ih =>
    rintro rfl
    exact Recognised.ret ht (ih _ (.inl rfl)) hr
  | brk ht hr =>
    rintro rfl
    exact Recognised.brk ht hr
  | statement h ih =>
    rintro rfl
    exact Recognised.statement h.opens (ih rfl)
  | varDecl ht _ ih =>
    rintro rfl
    exact Recognised.varDecl ht ih
  | funDecl ht hm hl _ ih =>
    rintro rfl
    exact Recognised.funDecl ht hm hl (ih _)
  | classDecl ht hm hl _ hr ih =>
    rintro rfl
    exact Recognised.classDecl ht hm hl (Recognised.classBody hl ih hr)
  | subclassDecl ht hm hless hsup hl _ hr ih =>
    rintro rfl
    exact Recognised.subclassDecl ht hm hless hsup (Recognised.classBody hl ih hr)
  | importDecl ht hp hr =>
    rintro rfl
    exact Recognised.importDecl ht hp hr
  | importAs ht hp has hm hr =>
    rintro rfl
    exact Recognised.importAs ht hp has hm hr
  | noDeclarations => exact fun _ _ _ => Reaches.init
  | declaration _ h ih ihs =>
    rintro rfl round hround
    exact Recognised.declaration hround (ih rfl round hround) h.opens (ihs rfl)

/-- No token of a derivation is an end mark. -/
theorem Derives.kind_ne_eof {n : Nat} {g : Bool} {symbol : Symbol} {ts : List Token}
    {phrase : Phrase} (h : Derives n g symbol ts phrase) : ∀ t ∈ ts, t.kind ≠ .eof := by
  induction h with
  | @unary _ _ op => cases op <;> simp_all [UnaryOp.spelling]
  | @binary _ _ _ op => cases op <;> simp_all [BinaryOp.spelling, or_imp]
  | @logical _ _ _ op => cases op <;> simp_all [LogicalOp.spelling, or_imp]
  | _ => simp_all [or_imp]

theorem programRound_eq {body : List (Stmt Unit)} {c : Cursor} (he : Token.next c.rest ≠ .eof) :
    programRound .full body c = declarationRound .full body c := by
  unfold programRound
  cases hr : c.rest with
  | nil => simp [hr] at he
  | cons t k => simp [bind, Parse.bind, atEnd, hr]

/-- The rule for programs reads every derivation of declarations to the end of the input, or there
is not enough room for it. -/
theorem Derives.program_eq {n : Nat} {ts : List Token} {ss : List (Stmt Unit)} {stop : Token}
    (h : Derives n false .declarations ts (.stmts ss)) (hstop : stop.kind = .eof) :
    program .full { rest := ts, stop } = .ok ss { rest := [], stop } ∨
      (program .full { rest := ts, stop }).OutOfRoom n { rest := ts, stop } := by
  have hall := h.recognised rfl (programRound .full) (fun _ _ he _ => programRound_eq he)
    (c := { rest := ts, stop }) (k := []) hstop rfl (by simp) (by simp)
  rw [Grammar.program_eq]
  rcases hall with ⟨budget, -, hp⟩ | h
  · refine .inl ?_
    change Parse.bind (many (programRound .full) []) (fun a => pure (List.reverse a)) _ = _
    unfold Parse.bind
    rw [hp]
    unfold iterate
    simp [programRound, atEnd, bind, Parse.bind, pure, Parse.pure]
  · exact .inr (h.bind _)

end Grammar

theorem Token.untilEnd_append {ts : List Token} {stop : Token} (h : ∀ t ∈ ts, t.kind ≠ .eof)
    (hstop : stop.kind = .eof) : Token.untilEnd (ts ++ [stop]) = (ts, stop) := by
  have htake : (ts ++ [stop]).takeWhile (·.kind ≠ .eof) = ts := by
    rw [List.takeWhile_append_of_pos (by simpa using h)]
    simp [hstop]
  have hdrop : (ts ++ [stop]).dropWhile (·.kind ≠ .eof) = [stop] := by
    rw [List.dropWhile_append_of_pos (by simpa using h)]
    simp [hstop]
  unfold Token.untilEnd
  rw [htake, hdrop]

/-- Whatever is derived from a sequence of tokens, the parser reads from it or gives up because it
nests too deep. -/
theorem Parsed.ofTokens_of_derives_room {n : Nat} {ts : List Token} {ss : List (Stmt Unit)}
    {stop : Token} (h : Grammar.Derives n false .declarations ts (.stmts ss))
    (hstop : stop.kind = .eof) :
    Parsed.ofTokens (ts ++ [stop]) = ⟨ss, []⟩ ∨
      maxNesting < n ∧ ∃ t, Parsed.ofTokens (ts ++ [stop]) =
        ⟨[], [.atToken t (.grammar .tooMuchNesting)]⟩ := by
  have hprogram : Grammar.program (.upTo (Rules.depthFor ts.length)) { rest := ts, stop } =
      Grammar.program .full { rest := ts, stop } := by
    rw [Rules.depthFor_eq]
    have hR : Rules.Agree ts.length (.upTo (6 * ts.length + 7 + 5)) .full :=
      Rules.upTo_agree_full (by omega)
    exact (Grammar.program_agree (c := { rest := ts, stop }) hR hstop rfl (Nat.le_refl _)).1
  unfold Parsed.ofTokens
  rw [Token.untilEnd_append h.kind_ne_eof hstop]
  dsimp only
  rw [hprogram]
  rcases h.program_eq hstop with heq | ⟨hn, t, c', heq, hf⟩
  · rw [heq]
    exact .inl rfl
  · rw [heq]
    refine .inr ⟨by simpa using hn, t, ?_⟩
    dsimp only
    rw [hf]
    rfl

/-- Whatever is derived from a sequence of tokens, the parser reads from it. -/
theorem Parsed.ofTokens_of_derives {ts : List Token} {ss : List (Stmt Unit)} {stop : Token}
    (h : Grammar.Derives maxNesting false .declarations ts (.stmts ss)) (hstop : stop.kind = .eof) :
    Parsed.ofTokens (ts ++ [stop]) = ⟨ss, []⟩ := by
  rcases Parsed.ofTokens_of_derives_room h hstop with heq | ⟨hn, -⟩
  · exact heq
  · exact absurd hn (Nat.lt_irrefl _)

end Lox
