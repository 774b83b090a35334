import Lox.Proofs.Grammar.Splice
import Lox.Proofs.Grammar.Statement

/-!
# The grammar in another input

Every grammar rule does the same to the same tokens in another input. Expressions end loosely:
their last step has looked whether an operator follows. Statements and declarations end with a token
of their own, so the tokens after them make no difference, except that an `if` takes an `else`.
-/

namespace Lox

/-- Two versions of the rules that do the same in two inputs. -/
structure Rules.Tracks (x : Splice) (R R' : Rules) : Prop where
  unary : Parse.Tracks x .loose (Expr.mapLines x.line) R.unary R'.unary
  assignment : Parse.Tracks x .loose (Expr.mapLines x.line) R.assignment R'.assignment
  expression : Parse.Tracks x .loose (Expr.mapLines x.line) R.expression R'.expression
  statement : Parse.Tracks x .sealed (Stmt.mapLines x.line) R.statement R'.statement
  declaration : Parse.Tracks x .sealed (Option.map (Stmt.mapLines x.line)) R.declaration
    R'.declaration

namespace Grammar

open Parse (Tracks)

variable {x : Splice} {R R' : Rules}

/-! ### Expressions -/

theorem parameters_tracks :
    Tracks x .loose (List.map (Mark.mapLine x.line)) parameters parameters := by
  unfold parameters
  refine .bind (.check .rightParen) fun b => ?_
  cases b with
  | true => exact .pure []
  | false =>
    refine .bind (.consume .identifier .parameterName) fun first => ?_
    refine .bind_pure (.many (fun params => ?_) [first.mark]) fun params => List.map_reverse
    refine .bind (.accept .comma) fun comma => ?_
    cases comma with
    | none => exact .pure none
    | some comma =>
      dsimp only [Option.map_some]
      rw [List.length_map]
      split
      · refine .bind .peek fun t => .bind (.report nofun) fun _ => ?_
        exact (Tracks.consume .identifier .parameterName).loosen.bind_pure fun _ => rfl
      · exact (Tracks.consume .identifier .parameterName).loosen.bind_pure fun _ => rfl

theorem block_tracks (hR : Rules.Tracks x R R') :
    Tracks x .sealed (Stmt.mapLinesAll x.line) (block R) (block R') := by
  unfold block
  refine .bind (g := Stmt.mapLinesAll x.line) (.many (fun body => ?_) []) fun body => ?_
  · refine .bind .atEnd fun e => .bind (.check .rightBrace) fun b => ?_
    dsimp only [id]
    split
    · exact .pure none
    · refine .bind hR.declaration fun o => ?_
      cases o with
      | none => exact .pure (some body)
      | some s => exact .pure (some (s :: body))
  · refine (Tracks.consume .rightBrace .blockClose).bind_pure fun _ => ?_
    simp only [Stmt.mapLinesAll_eq_map, List.map_reverse]

theorem functionRest_tracks (kind : FunctionKind) (hR : Rules.Tracks x R R') :
    Tracks x .sealed (Function.mapLines x.line) (functionRest R kind) (functionRest R' kind) := by
  unfold functionRest
  refine .bind parameters_tracks fun params => ?_
  refine .bind (.consume .rightParen .parametersClose) fun _ => ?_
  refine .bind (.consume .leftBrace (.bodyOpen kind)) fun _ => ?_
  exact (Tracks.within false (block_tracks hR)).bind_pure fun body => rfl

theorem primary_tracks (hR : Rules.Tracks x R R') :
    Tracks x .loose (Expr.mapLines x.line) (primary R) (primary R') := by
  unfold primary
  refine .bind .peek fun t => ?_
  rw [Token.kind_mapLine]
  split
  · exact .bind .advance fun _ => .pure _
  · exact .bind .advance fun _ => .pure _
  · exact .bind .advance fun _ => .pure _
  · exact .bind .advance fun _ => .pure _
  · exact .bind .advance fun _ => .pure _
  · refine .bind .advance fun _ => .bind (.consume .dot .superDot) fun _ => ?_
    exact (Tracks.consume .identifier .superMethod).loosen.bind_pure fun _ => rfl
  · exact .bind .advance fun _ => .pure _
  · refine .bind .advance fun _ => .bind (.consume .leftParen .anonymousOpen) fun _ => ?_
    exact (functionRest_tracks .function hR).loosen.bind_pure fun _ => rfl
  · exact .bind .advance fun _ => .pure _
  · refine .bind .advance fun _ => .within true (.bind hR.expression fun inner => ?_)
    exact (Tracks.consume .rightParen .groupClose).loosen.bind_pure fun _ => rfl
  · exact .fail .conditionalOperand
  · exact .fail .expression

theorem arguments_tracks (hR : Rules.Tracks x R R') :
    Tracks x .loose (Expr.mapLinesAll x.line) (arguments R) (arguments R') := by
  unfold arguments
  refine .bind (.check .rightParen) fun b => ?_
  cases b with
  | true => exact .pure []
  | false =>
    refine .bind hR.expression fun first => ?_
    refine .bind_pure (g := Expr.mapLinesAll x.line) (.many (fun args => ?_) [first]) fun args => ?_
    · refine .bind (.accept .comma) fun comma => ?_
      cases comma with
      | none => exact .pure none
      | some comma =>
        dsimp only [Option.map_some]
        rw [Expr.mapLinesAll_eq_map, List.length_map, ← Expr.mapLinesAll_eq_map]
        split
        · refine .bind .peek fun t => .bind (.report nofun) fun _ => ?_
          exact hR.expression.bind_pure fun _ => rfl
        · exact hR.expression.bind_pure fun _ => rfl
    · simp only [Expr.mapLinesAll_eq_map, List.map_reverse]

theorem call_tracks (hR : Rules.Tracks x R R') :
    Tracks x .loose (Expr.mapLines x.line) (call R) (call R') := by
  unfold call
  refine .bind (primary_tracks hR) fun first => .many (fun e => ?_) first
  refine .bind .peek fun t => ?_
  rw [Token.kind_mapLine]
  split
  · refine .bind .advance fun _ => .bind_pure (g := Expr.mapLines x.line) ?_ fun _ => rfl
    refine .within true (.bind (arguments_tracks hR) fun args => ?_)
    exact (Tracks.consume .rightParen .argumentsClose).loosen.bind_pure fun _ => rfl
  · refine .bind .advance fun _ => ?_
    exact (Tracks.consume .identifier .propertyName).loosen.bind_pure fun _ => rfl
  · exact .pure none

theorem unary_tracks (hR : Rules.Tracks x R R') :
    Tracks x .loose (Expr.mapLines x.line) (unary R) (unary R') := by
  unfold unary
  refine .nested (.bind .peek fun t => ?_)
  rw [Token.kind_mapLine]
  split
  · exact .bind .advance fun _ => hR.unary.bind_pure fun _ => rfl
  · exact .bind .advance fun _ => hR.unary.bind_pure fun _ => rfl
  · exact call_tracks hR

/-- A token joins operands in the same way on another line. -/
theorem Level.joins_mapLine (ℓ : Level) (f : Int → Int) (t : Token) :
    ℓ.joins t = none ∧ ℓ.joins (t.mapLine f) = none ∨ ∃ join join', ℓ.joins t = some join ∧
      ℓ.joins (t.mapLine f) = some join' ∧
        ∀ a b, (join a b).mapLines f = join' (a.mapLines f) (b.mapLines f) := by
  cases h : ℓ.joins t with
  | some join =>
    refine .inr ⟨join, ?_⟩
    rcases Level.joins_eq_some.mp h with ⟨op, hℓ, hk, rfl⟩ | ⟨op, hℓ, hk, rfl⟩
    · exact ⟨_, rfl, Level.joins_eq_some.mpr (.inl ⟨op, hℓ, hk, rfl⟩), fun _ _ => by simp⟩
    · exact ⟨_, rfl, Level.joins_eq_some.mpr (.inr ⟨op, hℓ, hk, rfl⟩), fun _ _ => by simp⟩
  | none =>
    refine .inl ⟨rfl, Option.eq_none_iff_forall_ne_some.mpr fun join h' => ?_⟩
    rcases Level.joins_eq_some.mp h' with ⟨op, hℓ, hk, -⟩ | ⟨op, hℓ, hk, -⟩
    · have hj := Level.joins_eq_some (t := t).mpr (.inl ⟨op, hℓ, hk, rfl⟩)
      rw [h] at hj
      cases hj
    · have hj := Level.joins_eq_some (t := t).mpr (.inr ⟨op, hℓ, hk, rfl⟩)
      rw [h] at hj
      cases hj

theorem chain_tracks (ℓ : Level) {operand operand' : Parse (Expr Unit)}
    (ho : Tracks x .loose (Expr.mapLines x.line) operand operand') :
    Tracks x .loose (Expr.mapLines x.line) (chain operand ℓ.joins) (chain operand' ℓ.joins) := by
  unfold chain
  refine .bind ho fun first => .many (fun left => ?_) first
  refine .bind .peek fun t => ?_
  rcases ℓ.joins_mapLine x.line t with ⟨h, h'⟩ | ⟨join, join', h, h', hj⟩
  · rw [h, h']
    exact .pure none
  · rw [h, h']
    refine .bind .advance fun _ => ho.bind_pure fun right => ?_
    exact congrArg some (hj left right)

theorem Level.rule_tracks (hR : Rules.Tracks x R R') (ℓ : Level) :
    Tracks x .loose (Expr.mapLines x.line) (ℓ.rule R) (ℓ.rule R') := by
  have product := chain_tracks .product hR.unary
  have sum := chain_tracks .sum product
  have comparison := chain_tracks .comparison sum
  have equality := chain_tracks .equality comparison
  have conjunction := chain_tracks .conjunction equality
  cases ℓ with
  | product => exact product
  | sum => exact sum
  | comparison => exact comparison
  | equality => exact equality
  | conjunction => exact conjunction
  | disjunction => exact chain_tracks .disjunction conjunction

theorem conditional_tracks (hR : Rules.Tracks x R R') :
    Tracks x .loose (Expr.mapLines x.line) (conditional R) (conditional R') := by
  unfold conditional
  refine .bind (Level.rule_tracks hR .disjunction) fun condition => ?_
  refine .bind (.accept .question) fun question => ?_
  cases question with
  | none => exact .pure condition
  | some _ =>
    refine .bind hR.expression fun yes => ?_
    refine .bind (.consume .colon .conditionalColon) fun _ => ?_
    exact hR.expression.bind_pure fun no => rfl

theorem assignment_tracks (hR : Rules.Tracks x R R') :
    Tracks x .loose (Expr.mapLines x.line) (assignment R) (assignment R') := by
  unfold assignment
  refine .nested (.bind (conditional_tracks hR) fun target => ?_)
  refine .bind (.accept .equal) fun equals => ?_
  cases equals with
  | none => exact .pure target
  | some equals =>
    refine .bind hR.assignment fun value => ?_
    cases target with
    | name mark ref => exact .pure _
    | get object property => exact .pure _
    | _ => exact .bind (.report nofun) fun _ => .pure _

theorem expression_tracks (hR : Rules.Tracks x R R') :
    Tracks x .loose (Expr.mapLines x.line) (expression R) (expression R') := by
  unfold expression
  refine .bind hR.assignment fun first => .many (fun left => ?_) first
  refine .bind .isGrouped fun b => ?_
  cases b with
  | true => exact .pure none
  | false =>
    refine .bind (.accept .comma) fun comma => ?_
    cases comma with
    | none => exact .pure none
    | some comma => exact hR.assignment.bind_pure fun right => rfl

/-! ### Declarations -/

theorem functionDeclaration_tracks (kind : FunctionKind) (hR : Rules.Tracks x R R') :
    Tracks x .sealed (Prod.map (Mark.mapLine x.line) (Function.mapLines x.line))
      (functionDeclaration R kind) (functionDeclaration R' kind) := by
  unfold functionDeclaration
  refine .bind (.consume .identifier (.functionName kind)) fun name => ?_
  refine .bind (.consume .leftParen (.functionOpen kind)) fun _ => ?_
  exact (functionRest_tracks kind hR).bind_pure fun fn => rfl

theorem method_tracks (hR : Rules.Tracks x R R') :
    Tracks x .sealed (Method.mapLines x.line) (method R) (method R') := by
  unfold method
  refine .bind (.accept .classKw) fun static => ?_
  simp only [Option.isSome_map]
  exact (functionDeclaration_tracks _ hR).bind_pure fun fn => rfl

theorem classBody_tracks (name : Mark) (superclass : Option Mark) (hR : Rules.Tracks x R R') :
    Tracks x .sealed (Stmt.mapLines x.line) (classBody R name (superclass.map (·, ())))
      (classBody R' (name.mapLine x.line)
        ((superclass.map (Mark.mapLine x.line)).map (·, ()))) := by
  unfold classBody
  refine .bind (.consume .leftBrace .classOpen) fun _ => ?_
  refine .bind (g := Method.mapLinesAll x.line) (.many (fun methods => ?_) []) fun methods => ?_
  · refine .bind .atEnd fun e => .bind (.check .rightBrace) fun b => ?_
    dsimp only [id]
    split
    · exact .pure none
    · exact (method_tracks hR).loosen.bind_pure fun m => rfl
  · refine (Tracks.consume .rightBrace .classClose).bind_pure fun _ => ?_
    cases superclass <;> simp [Method.mapLinesAll_eq_map, List.map_reverse]

theorem classDeclaration_tracks (hR : Rules.Tracks x R R') :
    Tracks x .sealed (Stmt.mapLines x.line) (classDeclaration R) (classDeclaration R') := by
  rw [classDeclaration_eq, classDeclaration_eq]
  refine .bind (.consume .identifier .className) fun name => ?_
  refine .bind (.accept .less) fun less => ?_
  cases less with
  | none => exact classBody_tracks name.mark none hR
  | some _ =>
    refine .bind (.consume .identifier .superclassName) fun super => ?_
    exact classBody_tracks name.mark (some super.mark) hR

theorem varDeclaration_tracks (hR : Rules.Tracks x R R') :
    Tracks x .sealed (Stmt.mapLines x.line) (varDeclaration R) (varDeclaration R') := by
  unfold varDeclaration
  refine .bind (.consume .identifier .variableName) fun name => ?_
  refine .bind (.accept .equal) fun equals => ?_
  cases equals with
  | none => exact (Tracks.consume .semicolon .variableEnd).bind_pure fun _ => rfl
  | some _ =>
    refine .bind (hR.expression.map (h := Option.map (Expr.mapLines x.line)) fun _ => rfl)
      fun initial => ?_
    refine (Tracks.consume .semicolon .variableEnd).bind_pure fun _ => ?_
    cases initial <;> rfl

theorem importDeclaration_tracks :
    Tracks x .sealed (Stmt.mapLines x.line) importDeclaration importDeclaration := by
  unfold importDeclaration
  refine .bind (.consume .string .modulePath) fun path => ?_
  refine .bind (.accept .asKw) fun as => ?_
  cases as with
  | none => exact (Tracks.consume .semicolon .importEnd).bind_pure fun _ => rfl
  | some _ =>
    refine .bind (.consume .identifier .aliasName) fun name => ?_
    exact (Tracks.consume .semicolon .importEnd).bind_pure fun _ => rfl

/-! ### Statements -/

theorem expressionStatement_tracks (hR : Rules.Tracks x R R') :
    Tracks x .sealed (Stmt.mapLines x.line) (expressionStatement R) (expressionStatement R') := by
  unfold expressionStatement
  refine .bind hR.expression fun e => ?_
  exact (Tracks.consume .semicolon .expressionEnd).bind_pure fun _ => rfl

theorem printStatement_tracks (hR : Rules.Tracks x R R') :
    Tracks x .sealed (Stmt.mapLines x.line) (printStatement R) (printStatement R') := by
  unfold printStatement
  refine .bind hR.expression fun e => ?_
  exact (Tracks.consume .semicolon .printEnd).bind_pure fun _ => rfl

/-- The tokens of an `if` end with its first branch if they end there: no `else` follows them. -/
theorem ifStatement_tracks (hR : Rules.Tracks x R R') :
    Tracks x .sealed (Stmt.mapLines x.line) (ifStatement R) (ifStatement R') := by
  unfold ifStatement
  refine .bind (.consume .leftParen .ifOpen) fun _ => ?_
  refine .bind hR.expression fun condition => ?_
  refine .bind (.consume .rightParen .ifClose) fun _ => ?_
  refine .bind_blind hR.statement fun yes => .bind_blind .accept_else fun other => ?_
  cases other with
  | none => exact .pure _
  | some _ => exact .toBlind (.bind_pure hR.statement fun no => rfl)

theorem whileStatement_tracks (hR : Rules.Tracks x R R') :
    Tracks x .sealed (Stmt.mapLines x.line) (whileStatement R) (whileStatement R') := by
  unfold whileStatement
  refine .bind (.consume .leftParen .whileOpen) fun _ => ?_
  refine .bind hR.expression fun condition => ?_
  refine .bind (.consume .rightParen .whileClose) fun _ => ?_
  exact hR.statement.bind_pure fun body => rfl

theorem clauseBefore_tracks (kind : TokenKind) (hR : Rules.Tracks x R R') :
    Tracks x .loose (Option.map (Expr.mapLines x.line)) (clauseBefore kind R)
      (clauseBefore kind R') := by
  unfold clauseBefore
  refine .bind (.check kind) fun b => ?_
  cases b with
  | true => exact .pure none
  | false => exact hR.expression.map fun _ => rfl

theorem forInitial_tracks (hR : Rules.Tracks x R R') :
    Tracks x .loose (Option.map (Stmt.mapLines x.line)) (forInitial R) (forInitial R') := by
  unfold forInitial
  refine .bind .peek fun t => ?_
  rw [Token.kind_mapLine]
  split
  · exact .bind .advance fun _ => .pure none
  · exact .bind .advance fun _ => (varDeclaration_tracks hR).loosen.map fun _ => rfl
  · exact (expressionStatement_tracks hR).loosen.map fun _ => rfl

theorem forLoop_mapLines (f : Int → Int) (initial : Option (Stmt Unit))
    (condition increment : Option (Expr Unit)) (body : Stmt Unit) :
    (forLoop initial condition increment body).mapLines f =
      forLoop (initial.map (Stmt.mapLines f)) (condition.map (Expr.mapLines f))
        (increment.map (Expr.mapLines f)) (body.mapLines f) := by
  cases initial <;> cases condition <;> cases increment <;> simp [forLoop]

theorem forStatement_tracks (hR : Rules.Tracks x R R') :
    Tracks x .sealed (Stmt.mapLines x.line) (forStatement R) (forStatement R') := by
  rw [forStatement_eq, forStatement_eq]
  refine .bind (.consume .leftParen .forOpen) fun _ => ?_
  refine .bind (forInitial_tracks hR) fun initial => ?_
  refine .bind (clauseBefore_tracks .semicolon hR) fun condition => ?_
  refine .bind (.consume .semicolon .forConditionEnd) fun _ => ?_
  refine .bind (clauseBefore_tracks .rightParen hR) fun increment => ?_
  refine .bind (.consume .rightParen .forClose) fun _ => ?_
  exact hR.statement.bind_pure fun body => forLoop_mapLines x.line initial condition increment body

theorem returnStatement_tracks (keyword : Mark) (hR : Rules.Tracks x R R') :
    Tracks x .sealed (Stmt.mapLines x.line) (returnStatement R keyword)
      (returnStatement R' (keyword.mapLine x.line)) := by
  rw [returnStatement_eq, returnStatement_eq]
  refine .bind (clauseBefore_tracks .semicolon hR) fun value => ?_
  refine (Tracks.consume .semicolon .returnEnd).bind_pure fun _ => ?_
  cases value <;> rfl

theorem breakStatement_tracks (keyword : Mark) :
    Tracks x .sealed (Stmt.mapLines x.line) (breakStatement keyword)
      (breakStatement (keyword.mapLine x.line)) :=
  (Tracks.consume .semicolon .breakEnd).bind_pure fun _ => rfl

theorem statement_tracks (hR : Rules.Tracks x R R') :
    Tracks x .sealed (Stmt.mapLines x.line) (statement R) (statement R') := by
  unfold statement
  refine .nested (.bind .peek fun t => ?_)
  rw [Token.kind_mapLine]
  split
  · exact .bind .advance fun _ => printStatement_tracks hR
  · exact .bind .advance fun _ => (block_tracks hR).bind_pure fun _ => rfl
  · exact .bind .advance fun _ => ifStatement_tracks hR
  · exact .bind .advance fun _ => whileStatement_tracks hR
  · exact .bind .advance fun _ => forStatement_tracks hR
  · exact .bind .advance fun _ => returnStatement_tracks t.mark hR
  · exact .bind .advance fun _ => breakStatement_tracks t.mark
  · exact expressionStatement_tracks hR

theorem declaration_tracks (hR : Rules.Tracks x R R') :
    Tracks x .sealed (Option.map (Stmt.mapLines x.line)) (declaration R) (declaration R') := by
  unfold declaration
  refine .recovering (.peek_bind fun c hx => ?_)
  rw [Token.kind_mapLine]
  generalize hk : c.peek.kind = kind
  split
  · exact Tracks.bind .advance (fun _ => classDeclaration_tracks hR) c hx
  · exact Tracks.bind .advance (fun _ => varDeclaration_tracks hR) c hx
  · exact Tracks.bind .advance (fun _ => importDeclaration_tracks) c hx
  · refine Tracks.checkSecond hx hk fun b => ?_
    cases b with
    | true =>
      exact .bind .advance fun _ => (functionDeclaration_tracks .function hR).bind_pure fun _ => rfl
    | false => exact hR.statement
  · exact hR.statement c hx

end Grammar

/-- Rules with references followed to some depth do the same in another input if they are followed
at least as deep there. -/
theorem Rules.upTo_tracks (x : Splice) {N M : Nat} (h : N ≤ M) :
    Rules.Tracks x (Rules.upTo N) (Rules.upTo M) := by
  induction N generalizing M with
  | zero => exact ⟨.exhausted, .exhausted, .exhausted, .exhausted, .exhausted⟩
  | succ N ih =>
    obtain ⟨M, rfl⟩ : ∃ M', M = M' + 1 := ⟨M - 1, by omega⟩
    have hR := ih (Nat.le_of_succ_le_succ h)
    exact ⟨Grammar.unary_tracks hR, Grammar.assignment_tracks hR, Grammar.expression_tracks hR,
      Grammar.statement_tracks hR, Grammar.declaration_tracks hR⟩

end Lox
