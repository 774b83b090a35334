import Lox.Proofs.Grammar.Nesting

/-!
# The state that rules share

Rules share two things besides the tokens: whether a comma belongs to an enclosing argument list or
group, and how many levels of nesting are open. Lists, groups and function bodies change the first,
and return to what was before only where they return; recovery resets it. Neither is ever mixed up
between one level of nesting and another.

Where declarations and statements are entered is seen from outside: the rules are compared with
others that do anything at all where one is entered inside a list or a group.
-/

namespace Lox

/-- The rules, with declarations and statements that do something else inside argument lists and
groups. -/
def Rules.divergent (other : Rules) : (n : Nat) → Rules
  | 0 => Rules.upTo 0
  | n + 1 =>
    { declaration := fun c =>
        if c.grouped then other.declaration c else Grammar.declaration (Rules.divergent other n) c
      statement := fun c =>
        if c.grouped then other.statement c else Grammar.statement (Rules.divergent other n) c
      expression := fun c => Grammar.expression (Rules.divergent other n) c
      assignment := fun c => Grammar.assignment (Rules.divergent other n) c
      unary := fun c => Grammar.unary (Rules.divergent other n) c }

theorem Rules.unfolds_divergent (other : Rules) : Unfolds (Rules.divergent other) where
  unary _ := rfl
  assignment _ := rfl
  expression _ := rfl
  statement _ _ hc := by simp [Rules.divergent, hc]
  declaration _ _ hc := by simp [Rules.divergent, hc]

variable {α β : Type}

/-! ### Rules that keep the comma rule -/

/-- A rule that leaves the comma rule as it was, where it returns. -/
def Parse.KeepsCommas (p : Parse α) : Prop := ∀ ⦃c a c'⦄, p c = .ok a c' → c'.grouped = c.grouped

namespace Parse.KeepsCommas

variable {p : Parse α}

theorem pure (a : α) : KeepsCommas (Pure.pure a) := by
  rintro c a c' ⟨⟩
  rfl

theorem fail (what : Expected) : KeepsCommas (Parse.fail (α := α) what) := by
  rintro c a c' ⟨⟩

theorem exhausted : KeepsCommas (fun _ => .exhausted : Parse α) := by
  rintro c a c' ⟨⟩

theorem bind {f : α → Parse β} (hp : p.KeepsCommas) (hf : ∀ a, (f a).KeepsCommas) :
    (p >>= f).KeepsCommas := by
  intro c b c' h
  obtain ⟨a, c₁, h₁, h₂⟩ := bind_eq_ok h
  exact (hf a h₂).trans (hp h₁)

theorem map {h : α → β} (hp : p.KeepsCommas) : (h <$> p).KeepsCommas :=
  hp.bind fun a => .pure (h a)

/-- Steps that look at the next token or at the state, then what they select. -/
theorem peek {f : Token → Parse β} (hf : ∀ t, (f t).KeepsCommas) : (Parse.peek >>= f).KeepsCommas :=
  fun _ _ _ h => hf _ h

theorem check {kind : TokenKind} {f : Bool → Parse β} (hf : ∀ b, (f b).KeepsCommas) :
    (Parse.check kind >>= f).KeepsCommas :=
  fun _ _ _ h => hf _ h

theorem isGrouped {f : Bool → Parse β} (hf : ∀ b, (f b).KeepsCommas) :
    (Parse.isGrouped >>= f).KeepsCommas :=
  fun _ _ _ h => hf _ h

theorem advance {f : Unit → Parse β} (hf : (f ()).KeepsCommas) :
    (Parse.advance >>= f).KeepsCommas :=
  fun c _ _ h => hf (c := { c with rest := c.rest.tail }) h

theorem report {t : Token} {problem : GrammarProblem} {f : Unit → Parse β}
    (hf : (f ()).KeepsCommas) : (Parse.report t problem >>= f).KeepsCommas :=
  fun c _ _ h => hf (c := c.report t problem) h

theorem accept {kind : TokenKind} {f : Option Token → Parse β} (hnone : (f none).KeepsCommas)
    (hsome : ∀ t, (f (some t)).KeepsCommas) : (Parse.accept kind >>= f).KeepsCommas := by
  have haccept : (Parse.accept kind).KeepsCommas := by
    intro c a c' h
    unfold Parse.accept at h
    split at h
    · split at h <;> cases h <;> rfl
    · cases h
      rfl
  refine haccept.bind fun found => ?_
  cases found with
  | none => exact hnone
  | some t => exact hsome t

theorem consume (kind : TokenKind) (what : Expected) : (Parse.consume kind what).KeepsCommas :=
  .accept (.fail what) fun t => .pure t

theorem nested (hp : p.KeepsCommas) : (Parse.nested p).KeepsCommas := by
  intro c a c' h
  unfold Parse.nested at h
  split at h
  · cases h
  · cases hpc : p { c with depth := c.depth + 1 } with
    | ok a c₁ =>
      have hkeeps := hp hpc
      rw [hpc] at h
      cases h
      exact hkeeps
    | _ =>
      rw [hpc] at h
      cases h

/-- Under a comma rule of its own, a rule may do anything. -/
theorem within (b : Bool) (p : Parse α) : (Parse.within b p).KeepsCommas := by
  intro c a c' h
  unfold Parse.within at h
  cases hpc : p { c with grouped := b } with
  | ok a c₁ =>
    rw [hpc] at h
    cases h
    rfl
  | _ =>
    rw [hpc] at h
    cases h

theorem iterate {round : α → Parse (Option α)} (hround : ∀ a, (round a).KeepsCommas)
    (budget : List Token) (a : α) : (Parse.iterate round budget a).KeepsCommas := by
  intro c e c' h
  unfold Parse.iterate at h
  cases hr : round a c with
  | ok next c₁ =>
    have hkeeps := hround a hr
    rw [hr] at h
    cases next with
    | none =>
      cases h
      exact hkeeps
    | some a =>
      cases budget with
      | nil => cases h
      | cons t budget => exact (iterate hround budget a h).trans hkeeps
  | _ =>
    rw [hr] at h
    cases h

theorem many {round : α → Parse (Option α)} (a : α) (hround : ∀ a, (round a).KeepsCommas) :
    (Parse.many round a).KeepsCommas :=
  fun c _ _ h => iterate hround c.rest a h

end Parse.KeepsCommas

/-- Rules for expressions that leave the comma rule as it was. -/
structure Rules.KeepsCommas (R : Rules) : Prop where
  expression : R.expression.KeepsCommas
  assignment : R.assignment.KeepsCommas
  unary : R.unary.KeepsCommas

namespace Grammar

variable {R : Rules}

theorem parameters_keepsCommas : parameters.KeepsCommas := by
  refine .check fun closed => ?_
  split
  · exact .pure []
  · refine .bind (.consume _ _) fun first => .map (.many _ fun params => ?_)
    refine .accept (.pure none) fun comma => ?_
    dsimp only
    split
    · exact .peek fun t => .report (.map (.consume _ _))
    · exact .map (.consume _ _)

/-- The body of a function starts over, and what it does to the comma rule is undone. -/
theorem functionRest_keepsCommas (R : Rules) (kind : FunctionKind) :
    (functionRest R kind).KeepsCommas := by
  refine .bind parameters_keepsCommas fun params => .bind (.consume _ _) fun _ => ?_
  exact .bind (.consume _ _) fun _ => .map (.within false _)

theorem primary_keepsCommas (R : Rules) : (primary R).KeepsCommas := by
  refine .peek fun t => ?_
  split
  case h_6 => exact .advance (.bind (.consume _ _) fun _ => .map (.consume _ _))
  case h_8 => exact .advance (.bind (.consume _ _) fun _ => .map (functionRest_keepsCommas R _))
  case h_10 => exact .advance (.within true _)
  case h_11 => exact .fail _
  case h_12 => exact .fail _
  all_goals exact .advance (.pure _)

theorem arguments_keepsCommas (hR : R.KeepsCommas) : (arguments R).KeepsCommas := by
  refine .check fun closed => ?_
  split
  · exact .pure []
  · refine .bind hR.expression fun first => .map (.many _ fun args => ?_)
    refine .accept (.pure none) fun comma => ?_
    dsimp only
    split
    · exact .peek fun t => .report (.map hR.expression)
    · exact .map hR.expression

theorem call_keepsCommas (R : Rules) : (call R).KeepsCommas := by
  refine .bind (primary_keepsCommas R) fun first => .many _ fun e => .peek fun t => ?_
  split
  · exact .advance (.map (.within true _))
  · exact .advance (.map (.consume _ _))
  · exact .pure none

theorem unary_keepsCommas (hR : R.KeepsCommas) : (unary R).KeepsCommas := by
  refine .nested (.peek fun t => ?_)
  split
  · exact .advance (.map hR.unary)
  · exact .advance (.map hR.unary)
  · exact call_keepsCommas R

theorem chain_keepsCommas {operand : Parse (Expr Unit)} (joins : Joins) (h : operand.KeepsCommas) :
    (chain operand joins).KeepsCommas := by
  refine .bind h fun first => .many _ fun left => .peek fun t => ?_
  cases joins t with
  | none => exact .pure none
  | some join => exact .advance (.map h)

theorem level_keepsCommas (hR : R.KeepsCommas) (ℓ : Level) : (ℓ.rule R).KeepsCommas :=
  ℓ.rule_of_chain hR.unary fun _ ℓ => chain_keepsCommas ℓ.joins

theorem conditional_keepsCommas (hR : R.KeepsCommas) : (conditional R).KeepsCommas := by
  refine .bind (level_keepsCommas hR .disjunction) fun condition => ?_
  refine .accept (.pure condition) fun _ => .bind hR.expression fun yes => ?_
  exact .bind (.consume _ _) fun _ => .map hR.expression

theorem assignment_keepsCommas (hR : R.KeepsCommas) : (assignment R).KeepsCommas := by
  refine .nested (.bind (conditional_keepsCommas hR) fun target => ?_)
  refine .accept (.pure target) fun equals => .bind hR.assignment fun value => ?_
  cases target with
  | name mark ref => exact .pure _
  | get object property => exact .pure _
  | _ => exact .report (.pure _)

theorem expression_keepsCommas (hR : R.KeepsCommas) : (expression R).KeepsCommas := by
  refine .bind hR.assignment fun first => .many _ fun left => .isGrouped fun grouped => ?_
  split
  · exact .pure none
  · exact .accept (.pure none) fun comma => .map hR.assignment

end Grammar

theorem Rules.keepsCommas_upTo (N : Nat) : (Rules.upTo N).KeepsCommas := by
  induction N with
  | zero => exact ⟨.exhausted, .exhausted, .exhausted⟩
  | succ N ih =>
    exact ⟨Grammar.expression_keepsCommas ih, Grammar.assignment_keepsCommas ih,
      Grammar.unary_keepsCommas ih⟩

/-! ### Every production -/

/-- Every rule that is built from the steps of a parse ends at the depth at which it began, whether
it returns or bails out. -/
theorem Parse.Indexable.yieldsAt {p : Parse α} (hp : p.Indexable) (d : Nat) :
    p.YieldsAt d fun _ => True := by
  obtain ⟨q, hq⟩ := hp
  induction hq generalizing d with
  | pure a => exact .pure trivial
  | bind _ _ ihp ihf => exact .bind (ihp d) fun a _ => ihf a d
  | peek => exact .peek
  | check kind => exact .check kind
  | checkSecond _ => exact .checkSecond _
  | atEnd => exact .atEnd
  | isGrouped => exact .isGrouped
  | advance => exact .advance
  | accept kind => exact .accept kind
  | report t problem => exact .report t problem
  | fail what => exact .fail what
  | nested _ ih => exact .nested fun _ => ih (d + 1)
  | within b _ ih => exact .within b (ih d)
  | recovering _ ih => exact (Parse.YieldsAt.recovering (ih d)).imp fun _ _ => trivial
  | many a _ ih => exact .many trivial fun a _ => (ih a d).imp fun _ _ _ _ => trivial
  | exhausted => exact fun _ _ => .exhausted

namespace Grammar

variable {R : Rules}

/-- The rules of the grammar, by what they yield. -/
inductive Production : Type → Type where
  | program : Production (Program Unit)
  | declaration : Production (Option (Stmt Unit))
  | classDeclaration : Production (Stmt Unit)
  | method : Production (Method Unit)
  | functionDeclaration (kind : FunctionKind) : Production (Mark × Function Unit)
  | varDeclaration : Production (Stmt Unit)
  | importDeclaration : Production (Stmt Unit)
  | statement : Production (Stmt Unit)
  | block : Production (List (Stmt Unit))
  | expressionStatement : Production (Stmt Unit)
  | printStatement : Production (Stmt Unit)
  | ifStatement : Production (Stmt Unit)
  | whileStatement : Production (Stmt Unit)
  | forStatement : Production (Stmt Unit)
  | returnStatement (keyword : Mark) : Production (Stmt Unit)
  | breakStatement (keyword : Mark) : Production (Stmt Unit)
  | expression : Production (Expr Unit)
  | assignment : Production (Expr Unit)
  | conditional : Production (Expr Unit)
  | level (ℓ : Level) : Production (Expr Unit)
  | unary : Production (Expr Unit)
  | call : Production (Expr Unit)
  | callRest (callee : Expr Unit) : Production (Expr Unit)
  | arguments : Production (List (Expr Unit))
  | primary : Production (Expr Unit)
  | functionRest (kind : FunctionKind) : Production (Function Unit)
  | parameters : Production (List Mark)

namespace Production

/-- The rule with the name. -/
def rule (R : Rules) : Production α → Parse α
  | program => Grammar.program R
  | declaration => Grammar.declaration R
  | classDeclaration => Grammar.classDeclaration R
  | method => Grammar.method R
  | functionDeclaration kind => Grammar.functionDeclaration R kind
  | varDeclaration => Grammar.varDeclaration R
  | importDeclaration => Grammar.importDeclaration
  | statement => Grammar.statement R
  | block => Grammar.block R
  | expressionStatement => Grammar.expressionStatement R
  | printStatement => Grammar.printStatement R
  | ifStatement => Grammar.ifStatement R
  | whileStatement => Grammar.whileStatement R
  | forStatement => Grammar.forStatement R
  | returnStatement keyword => Grammar.returnStatement R keyword
  | breakStatement keyword => Grammar.breakStatement keyword
  | expression => Grammar.expression R
  | assignment => Grammar.assignment R
  | conditional => Grammar.conditional R
  | level ℓ => ℓ.rule R
  | unary => Grammar.unary R
  | call => Grammar.call R
  | callRest callee => Grammar.callRest R callee
  | arguments => Grammar.arguments R
  | primary => Grammar.primary R
  | functionRest kind => Grammar.functionRest R kind
  | parameters => Grammar.parameters

/-- The rules for expressions and for the parts of expressions: a function is one as well. -/
def isExpression : Production α → Bool
  | expression | assignment | conditional | level _ | unary | call | callRest _ | arguments
  | primary | functionRest _ | parameters => true
  | _ => false

theorem indexable (hR : R.Indexable) (p : Production α) : (p.rule R).Indexable := by
  cases p with
  | program => exact program_indexable hR
  | declaration => exact declaration_indexable hR
  | classDeclaration => exact classDeclaration_indexable hR
  | method => exact method_indexable hR
  | functionDeclaration kind => exact functionDeclaration_indexable kind hR
  | varDeclaration => exact varDeclaration_indexable hR
  | importDeclaration => exact importDeclaration_indexable
  | statement => exact statement_indexable hR
  | block => exact block_indexable hR
  | expressionStatement => exact expressionStatement_indexable hR
  | printStatement => exact .bind hR.expression fun _ => .map (.consume _ _)
  | ifStatement => exact ifStatement_indexable hR
  | whileStatement =>
    refine .bind (.consume _ _) fun _ => .bind hR.expression fun _ => ?_
    exact .bind (.consume _ _) fun _ => .map hR.statement
  | forStatement => exact forStatement_indexable hR
  | returnStatement keyword =>
    rw [rule, returnStatement_eq]
    exact .bind (clauseBefore_indexable _ hR) fun _ => .map (.consume _ _)
  | breakStatement keyword => exact .map (.consume _ _)
  | expression => exact expression_indexable hR
  | assignment => exact assignment_indexable hR
  | conditional => exact conditional_indexable hR
  | level ℓ => exact ℓ.rule_of_chain hR.unary fun _ ℓ => chain_indexable ℓ.joins
  | unary => exact unary_indexable hR
  | call => exact call_indexable hR
  | callRest callee =>
    exact .within true (.bind (arguments_indexable hR) fun args => .map (.consume _ _))
  | arguments => exact arguments_indexable hR
  | primary => exact primary_indexable hR
  | functionRest kind => exact functionRest_indexable kind hR
  | parameters => exact parameters_indexable

theorem keepsCommas (hR : R.KeepsCommas) {p : Production α}
    (hp : p.isExpression = true) : (p.rule R).KeepsCommas := by
  cases p with
  | expression => exact expression_keepsCommas hR
  | assignment => exact assignment_keepsCommas hR
  | conditional => exact conditional_keepsCommas hR
  | level ℓ => exact level_keepsCommas hR ℓ
  | unary => exact unary_keepsCommas hR
  | call => exact call_keepsCommas R
  | callRest callee => exact .within true _
  | arguments => exact arguments_keepsCommas hR
  | primary => exact primary_keepsCommas R
  | functionRest kind => exact functionRest_keepsCommas R kind
  | parameters => exact parameters_keepsCommas
  | _ => cases hp

end Production

/-! ### What follows for whole parses -/

/-- A declaration without a tree has recovered, and recovery resets the comma rule. -/
theorem grouped_of_declaration_eq_none {c c' : Cursor} (h : declaration R c = .ok none c') :
    c'.grouped = false := by
  rw [declaration_eq, Parse.recovering] at h
  cases hp : declared R c with
  | bail c₁ =>
    rw [hp] at h
    cases h
    unfold Cursor.synchronize
    split <;> rfl
  | _ =>
    rw [hp] at h
    cases h

/-- Inside a list or a group no comma is read. -/
theorem many_sequenceRound (R : Rules) (e : Expr Unit) {c : Cursor} (hc : c.grouped = true) :
    Parse.many (sequenceRound R) e c = .ok e c := by
  have hround : sequenceRound R e c = .ok none c := by
    rw [sequenceRound, Parse.bind_apply, Parse.isGrouped, hc]
    rfl
  unfold Parse.many Parse.iterate
  rw [hround]

/-- Inside a list or a group an expression is one assignment, whatever stands in it. -/
theorem expression_of_grouped (hR : R.KeepsCommas) {c : Cursor} (hc : c.grouped = true) :
    expression R c = R.assignment c := by
  change (R.assignment >>= Parse.many (sequenceRound R)) c = R.assignment c
  rw [Parse.bind_apply]
  cases h : R.assignment c with
  | ok first c' => exact many_sequenceRound R first ((hR.assignment h).trans hc)
  | _ => rfl

/-- Rules keep the state that they share. Where a declaration or a statement is entered in the parse
of any tokens, commas are not grouped: it makes no difference to the outcome, which exists, what
else they would do where commas are grouped. Every production that returns or bails out does so at
the depth at which it began, and every expression that returns leaves the comma rule as it was. A
declaration that has recovered leaves commas that are not grouped, at the depth at which it began.
So lists and groups go on as they began, whatever has been read in between: each expression in them
is one assignment, and the comma after it is theirs. -/
theorem restores_commas_and_depth :
    (∀ (tokens : List Token) (N : Nat), Rules.depthFor (Token.untilEnd tokens).1.length ≤ N →
      program (.upTo N) (Cursor.start tokens) ≠ .exhausted ∧
      ∀ other : Rules, program (.divergent other N) (Cursor.start tokens) =
        program (.upTo N) (Cursor.start tokens)) ∧
    (∀ {α : Type} (p : Production α) (N : Nat) (c c' : Cursor),
      (∀ a, p.rule (.upTo N) c = .ok a c' →
        c'.depth = c.depth ∧ (p.isExpression = true → c'.grouped = c.grouped)) ∧
      (p.rule (.upTo N) c = .bail c' → c'.depth = c.depth)) ∧
    (∀ (N : Nat) (c c' : Cursor), declaration (.upTo N) c = .ok none c' →
      c'.grouped = false ∧ c'.depth = c.depth) ∧
    ∀ (N : Nat) (c : Cursor), c.grouped = true →
      expression (.upTo N) c = (Rules.upTo N).assignment c := by
  have hdepth : ∀ {α : Type} (p : Production α) (N : Nat) (c : Cursor),
      (p.rule (.upTo N) c).Stays c.depth fun _ => True :=
    fun p N c => (p.indexable (Rules.upTo_indexable N)).yieldsAt c.depth c rfl
  refine ⟨?_, ?_, ?_, ?_⟩
  · intro tokens N hN
    rw [Rules.depthFor_eq] at hN
    obtain ⟨M, rfl⟩ : ∃ M, N = M + 5 := ⟨N - 5, by omega⟩
    have hM : 6 * (Token.untilEnd tokens).1.length ≤ M := by omega
    -- the two differ only inside lists and groups, and that is not where they are compared
    have hagree : ∀ other : Rules, Parse.Agree (Cursor.start tokens) (program (.upTo (M + 5)))
        (program (.divergent other (M + 5))) _ := fun other =>
      program_agree (Rules.unfolds_upTo.agree (Rules.unfolds_divergent other) hM hM)
        (Token.untilEnd_kind tokens) rfl (Nat.le_refl _)
    refine ⟨fun hexhausted => ?_, fun other => (hagree other).1.symm⟩
    -- rules that agree do not run out of references
    have hmeets := (hagree (.upTo 0)).2
    rw [hexhausted] at hmeets
    cases hmeets
  · intro α p N c c'
    have hstays := hdepth p N c
    refine ⟨fun a h => ⟨?_, fun hp => ?_⟩, fun h => ?_⟩
    · rw [h] at hstays
      cases hstays with
      | ok hd _ => exact hd
    · exact Production.keepsCommas (Rules.keepsCommas_upTo N) hp h
    · rw [h] at hstays
      cases hstays with
      | bail hd => exact hd
  · intro N c c' h
    have hstays : (declaration (.upTo N) c).Stays c.depth fun _ => True := hdepth .declaration N c
    rw [h] at hstays
    cases hstays with
    | ok hd _ => exact ⟨grouped_of_declaration_eq_none h, hd⟩
  · exact fun N c hc => expression_of_grouped (Rules.keepsCommas_upTo N) hc

end Grammar

end Lox
