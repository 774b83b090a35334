import Lox.Proofs.Grammar.Concatenation
import Lox.Proofs.Grammar.Indexing

/-!
# The parser is total

The parser gives an answer for every sequence of tokens, also one without an end mark or with
several. It never reads outside the sequence, nothing behind the first end mark matters, and every
round of its loops over declarations reads a token, also a round that ends in recovery.
-/

namespace Lox

/-! ### The parser is built from its steps -/

/-- Rules that are built from the steps of a parse. -/
structure Rules.Indexable (R : Rules) : Prop where
  declaration : R.declaration.Indexable
  statement : R.statement.Indexable
  expression : R.expression.Indexable
  assignment : R.assignment.Indexable
  unary : R.unary.Indexable

namespace Grammar

open Parse (Indexable)

variable {R : Rules}

theorem parameters_indexable : parameters.Indexable := by
  unfold parameters
  refine .check fun b => ?_
  split
  · exact .pure []
  · refine .bind (.consume _ _) fun first => .map (.many _ fun params => ?_)
    refine .accept (.pure none) fun comma => ?_
    dsimp only
    split
    · refine .peek fun t => .bind ⟨_, .report t _⟩ fun _ => ?_
      exact .map (.consume _ _)
    · exact .map (.consume _ _)

theorem declarationRound_indexable (hR : R.Indexable) (body : List (Stmt Unit)) :
    (declarationRound R body).Indexable := by
  refine .bind hR.declaration fun o => ?_
  cases o with
  | some s => exact .pure _
  | none => exact .pure _

theorem bodyRound_indexable (hR : R.Indexable) (body : List (Stmt Unit)) :
    (bodyRound R body).Indexable := by
  refine .bind ⟨_, .atEnd⟩ fun e => .check fun b => ?_
  split
  · exact .pure none
  · exact declarationRound_indexable hR body

theorem block_indexable (hR : R.Indexable) : (block R).Indexable := by
  rw [block_eq]
  exact .bind (.many _ (bodyRound_indexable hR)) fun body => .map (.consume _ _)

theorem functionRest_indexable (kind : FunctionKind) (hR : R.Indexable) :
    (functionRest R kind).Indexable := by
  refine .bind parameters_indexable fun params => .bind (.consume _ _) fun _ => ?_
  exact .bind (.consume _ _) fun _ => .map (.within false (block_indexable hR))

theorem primary_indexable (hR : R.Indexable) : (primary R).Indexable := by
  refine .peek fun t => ?_
  split
  · exact .advance (.pure _)
  · exact .advance (.pure _)
  · exact .advance (.pure _)
  · exact .advance (.pure _)
  · exact .advance (.pure _)
  · exact .advance (.bind (.consume _ _) fun _ => .map (.consume _ _))
  · exact .advance (.pure _)
  · exact .advance (.bind (.consume _ _) fun _ => .map (functionRest_indexable _ hR))
  · exact .advance (.pure _)
  · exact .advance (.within true (.bind hR.expression fun inner => .map (.consume _ _)))
  · exact ⟨_, .fail _⟩
  · exact ⟨_, .fail _⟩

theorem arguments_indexable (hR : R.Indexable) : (arguments R).Indexable := by
  unfold arguments
  refine .check fun b => ?_
  split
  · exact .pure []
  · refine .bind hR.expression fun first => .map (.many _ fun args => ?_)
    refine .accept (.pure none) fun comma => ?_
    dsimp only
    split
    · exact .peek fun t => .bind ⟨_, .report t _⟩ fun _ => .map hR.expression
    · exact .map hR.expression

theorem call_indexable (hR : R.Indexable) : (call R).Indexable := by
  refine .bind (primary_indexable hR) fun first => .many _ fun e => .peek fun t => ?_
  split
  · refine .advance (.map (.within true (.bind (arguments_indexable hR) fun args => ?_)))
    exact .map (.consume _ _)
  · exact .advance (.map (.consume _ _))
  · exact .pure none

theorem unary_indexable (hR : R.Indexable) : (unary R).Indexable := by
  refine .nested (.peek fun t => ?_)
  split
  · exact .advance (.map hR.unary)
  · exact .advance (.map hR.unary)
  · exact call_indexable hR

theorem chain_indexable {operand : Parse (Expr Unit)} (joins : Joins) (h : operand.Indexable) :
    (chain operand joins).Indexable := by
  refine .bind h fun first => .many _ fun left => .peek fun t => ?_
  cases joins t with
  | none => exact .pure none
  | some join => exact .advance (.map h)

theorem disjunction_indexable (hR : R.Indexable) : (disjunction R).Indexable :=
  chain_indexable _ (chain_indexable _ (chain_indexable _ (chain_indexable _ (chain_indexable _
    (chain_indexable _ hR.unary)))))

theorem conditional_indexable (hR : R.Indexable) : (conditional R).Indexable := by
  refine .bind (disjunction_indexable hR) fun condition => .accept (.pure condition) fun _ => ?_
  refine .bind hR.expression fun yes => .bind (.consume _ _) fun _ => .map hR.expression

theorem assignment_indexable (hR : R.Indexable) : (assignment R).Indexable := by
  refine .nested (.bind (conditional_indexable hR) fun target => ?_)
  refine .accept (.pure target) fun equals => .bind hR.assignment fun value => ?_
  cases target with
  | name mark ref => exact .pure _
  | get object property => exact .pure _
  | _ => exact .bind ⟨_, .report _ _⟩ fun _ => .pure _

theorem expression_indexable (hR : R.Indexable) : (expression R).Indexable := by
  refine .bind hR.assignment fun first => .many _ fun left => .bind ⟨_, .isGrouped⟩ fun b => ?_
  split
  · exact .pure none
  · exact .accept (.pure none) fun comma => .map hR.assignment

theorem functionDeclaration_indexable (kind : FunctionKind) (hR : R.Indexable) :
    (functionDeclaration R kind).Indexable := by
  refine .bind (.consume _ _) fun name => .bind (.consume _ _) fun _ => ?_
  exact .map (functionRest_indexable kind hR)

theorem method_indexable (hR : R.Indexable) : (method R).Indexable :=
  .bind ⟨_, .accept _⟩ fun _ => .map (functionDeclaration_indexable _ hR)

theorem classBody_indexable (name : Mark) (superclass : Option (Mark × Unit)) (hR : R.Indexable) :
    (classBody R name superclass).Indexable := by
  rw [classBody_eq]
  refine .bind (.consume _ _) fun _ => .bind (.many _ fun methods => ?_) fun methods =>
    .map (.consume _ _)
  refine .bind ⟨_, .atEnd⟩ fun e => .check fun b => ?_
  split
  · exact .pure none
  · exact .map (method_indexable hR)

theorem classDeclaration_indexable (hR : R.Indexable) : (classDeclaration R).Indexable := by
  rw [classDeclaration_eq]
  refine .bind (.consume _ _) fun name => .accept (classBody_indexable _ _ hR) fun _ => ?_
  exact .bind (.consume _ _) fun super => classBody_indexable _ _ hR

theorem varDeclaration_indexable (hR : R.Indexable) : (varDeclaration R).Indexable := by
  refine .bind (.consume _ _) fun name => .accept (.map (.consume _ _)) fun _ => ?_
  exact .bind (.map hR.expression) fun initial => .map (.consume _ _)

theorem importDeclaration_indexable : importDeclaration.Indexable := by
  refine .bind (.consume _ _) fun path => .accept (.map (.consume _ _)) fun _ => ?_
  exact .bind (.consume _ _) fun name => .map (.consume _ _)

theorem expressionStatement_indexable (hR : R.Indexable) : (expressionStatement R).Indexable :=
  .bind hR.expression fun _ => .map (.consume _ _)

theorem ifStatement_indexable (hR : R.Indexable) : (ifStatement R).Indexable := by
  refine .bind (.consume _ _) fun _ => .bind hR.expression fun condition => ?_
  refine .bind (.consume _ _) fun _ => .bind hR.statement fun yes => ?_
  exact .accept (.pure _) fun _ => .map hR.statement

theorem clauseBefore_indexable (kind : TokenKind) (hR : R.Indexable) :
    (clauseBefore kind R).Indexable := by
  refine .check fun b => ?_
  split
  · exact .pure none
  · exact .map hR.expression

theorem forInitial_indexable (hR : R.Indexable) : (forInitial R).Indexable := by
  refine .peek fun t => ?_
  split
  · exact .advance (.pure none)
  · exact .advance (.map (varDeclaration_indexable hR))
  · exact .map (expressionStatement_indexable hR)

theorem forStatement_indexable (hR : R.Indexable) : (forStatement R).Indexable := by
  rw [forStatement_eq]
  refine .bind (.consume _ _) fun _ => .bind (forInitial_indexable hR) fun initial => ?_
  refine .bind (clauseBefore_indexable _ hR) fun condition => .bind (.consume _ _) fun _ => ?_
  refine .bind (clauseBefore_indexable _ hR) fun increment => .bind (.consume _ _) fun _ => ?_
  exact .map hR.statement

theorem statement_indexable (hR : R.Indexable) : (statement R).Indexable := by
  refine .nested (.peek fun t => ?_)
  split
  · exact .advance (.bind hR.expression fun _ => .map (.consume _ _))
  · exact .advance (.map (block_indexable hR))
  · exact .advance (ifStatement_indexable hR)
  · refine .advance (.bind (.consume _ _) fun _ => .bind hR.expression fun _ => ?_)
    exact .bind (.consume _ _) fun _ => .map hR.statement
  · exact .advance (forStatement_indexable hR)
  · rw [returnStatement_eq]
    exact .advance (.bind (clauseBefore_indexable _ hR) fun _ => .map (.consume _ _))
  · exact .advance (.map (.consume _ _))
  · exact expressionStatement_indexable hR

/-- A declaration or statement, without recovery. -/
def declared (rules : Rules) : Parse (Stmt Unit) := do
  match (← Parse.peek).kind with
  | .classKw => Parse.advance; classDeclaration rules
  | .varKw => Parse.advance; varDeclaration rules
  | .importKw => Parse.advance; importDeclaration
  | .funKw =>
    if ← Parse.checkSecond .identifier then
      Parse.advance
      let (name, fn) ← functionDeclaration rules .function
      pure (.funDecl name fn)
    else rules.statement
  | _ => rules.statement

theorem declaration_eq (rules : Rules) : declaration rules = Parse.recovering (declared rules) := rfl

theorem declared_indexable (hR : R.Indexable) : (declared R).Indexable := by
  refine .peek fun t => ?_
  split
  · exact .advance (classDeclaration_indexable hR)
  · exact .advance (varDeclaration_indexable hR)
  · exact .advance importDeclaration_indexable
  · refine .bind ⟨_, .checkSecond nofun⟩ fun b => ?_
    split
    · exact .advance (.map (functionDeclaration_indexable _ hR))
    · exact hR.statement
  · exact hR.statement

theorem declaration_indexable (hR : R.Indexable) : (declaration R).Indexable := by
  rw [declaration_eq]
  exact .recovering (declared_indexable hR)

theorem program_indexable (hR : R.Indexable) : (program R).Indexable := by
  rw [program_eq]
  refine .map (.many _ fun body => .bind ⟨_, .atEnd⟩ fun e => ?_)
  split
  · exact .pure none
  · exact declarationRound_indexable hR body

end Grammar

theorem Rules.upTo_indexable (N : Nat) : (Rules.upTo N).Indexable := by
  induction N with
  | zero =>
    exact ⟨⟨_, .exhausted⟩, ⟨_, .exhausted⟩, ⟨_, .exhausted⟩, ⟨_, .exhausted⟩, ⟨_, .exhausted⟩⟩
  | succ N ih =>
    exact ⟨Grammar.declaration_indexable ih, Grammar.statement_indexable ih,
      Grammar.expression_indexable ih, Grammar.assignment_indexable ih, Grammar.unary_indexable ih⟩

/-! ### Every round reads a token -/

/-- No more tokens are left than a given number, unless the parse is given up. -/
def Outcome.Recedes {α : Type} (n : Nat) : Outcome α → Prop
  | .ok _ c => c.rest.length ≤ n
  | .bail c => c.rest.length ≤ n
  | _ => True

theorem Outcome.Recedes.mono {α : Type} {n m : Nat} {o : Outcome α} (h : o.Recedes n)
    (hn : n ≤ m) : o.Recedes m := by
  cases o with
  | ok a c => exact Nat.le_trans h hn
  | bail c => exact Nat.le_trans h hn
  | _ => trivial

theorem Cursor.length_synchronize_le (c : Cursor) : c.synchronize.rest.length ≤ c.rest.length :=
  (Cursor.Leads.synchronize c).rest.length_le

namespace Parse

variable {α β : Type} {p : Parse α} {f : α → Parse β} {c c' : Cursor}

theorem bind_eq_ok {b : β} (h : (p >>= f) c = .ok b c') :
    ∃ a c₁, p c = .ok a c₁ ∧ f a c₁ = .ok b c' := by
  rw [bind_apply] at h
  cases hp : p c with
  | ok a c₁ =>
    rw [hp] at h
    exact ⟨a, c₁, rfl, h⟩
  | _ =>
    rw [hp] at h
    cases h

/-- A round that goes on has not declined. -/
theorem unless_eq_some {b : Bool} {p : Parse (Option α)} {a : α}
    (h : (if b then pure none else p : Parse (Option α)) c = .ok (some a) c') :
    b = false ∧ p c = .ok (some a) c' := by
  cases b with
  | true => cases h
  | false => exact ⟨rfl, h⟩

theorem iterate_recedes {round : α → Parse (Option α)}
    (hround : ∀ a c, (round a c).Recedes c.rest.length) (budget : List Token) (a : α) (c : Cursor) :
    (iterate round budget a c).Recedes c.rest.length := by
  have h := hround a c
  unfold iterate
  cases hr : round a c with
  | ok next c₁ =>
    rw [hr] at h
    cases next with
    | none => exact h
    | some a' =>
      cases budget with
      | nil => trivial
      | cons t budget => exact (iterate_recedes hround budget a' c₁).mono h
  | bail c₁ => rwa [hr] at h
  | _ => trivial

/-- A rule that is built from the steps of a parse never goes back. -/
theorem Indexes.recedes {q : Seek α} (h : p.Indexes q) (c : Cursor) :
    (p c).Recedes c.rest.length := by
  induction h generalizing c with
  | @bind _ _ p _ f _ _ _ ihp ihf =>
    rw [bind_apply]
    have hp := ihp c
    cases hpc : p c with
    | ok a c₁ =>
      rw [hpc] at hp
      exact (ihf a c₁).mono hp
    | bail c₁ => rwa [hpc] at hp
    | _ => trivial
  | advance => exact (List.tail_suffix c.rest).length_le
  | accept kind =>
    unfold Parse.accept
    split
    · next t k hr =>
      split
      · rw [hr]
        exact Nat.le_succ _
      · exact Nat.le_refl _
    · exact Nat.le_refl _
  | @nested _ p _ _ ih =>
    unfold Parse.nested
    split
    · trivial
    · have h := ih { c with depth := c.depth + 1 }
      cases hpc : p { c with depth := c.depth + 1 } with
      | ok a c₁ => rwa [hpc] at h
      | bail c₁ => rwa [hpc] at h
      | _ => trivial
  | @within _ p _ b _ ih =>
    have h := ih { c with grouped := b }
    unfold Parse.within
    cases hpc : p { c with grouped := b } with
    | ok a c₁ => rwa [hpc] at h
    | bail c₁ => rwa [hpc] at h
    | _ => trivial
  | @recovering _ p _ _ ih =>
    have h := ih c
    unfold Parse.recovering
    cases hpc : p c with
    | ok a c₁ => rwa [hpc] at h
    | bail c₁ =>
      rw [hpc] at h
      exact Nat.le_trans c₁.length_synchronize_le h
    | _ => trivial
  | many a _ ih => exact iterate_recedes ih c.rest a c
  | exhausted => trivial
  | _ => exact Nat.le_refl _

theorem Indexable.length_le (h : p.Indexable) {a : α} (hp : p c = .ok a c') :
    c'.rest.length ≤ c.rest.length := by
  obtain ⟨q, hq⟩ := h
  have hr := hq.recedes c
  rwa [hp] at hr

/-- A rule that has read a token wherever it succeeds. -/
def Advances (p : Parse α) : Prop :=
  ∀ ⦃c a c'⦄, p c = .ok a c' → c'.rest.length < c.rest.length

namespace Advances

theorem bind_left (hp : p.Advances) (hf : ∀ a, (f a).Indexable) : (p >>= f).Advances := by
  intro c b c' h
  obtain ⟨a, c₁, h₁, h₂⟩ := bind_eq_ok h
  exact Nat.lt_of_le_of_lt ((hf a).length_le h₂) (hp h₁)

theorem bind_right (hp : p.Indexable) (hf : ∀ a, (f a).Advances) : (p >>= f).Advances := by
  intro c b c' h
  obtain ⟨a, c₁, h₁, h₂⟩ := bind_eq_ok h
  exact Nat.lt_of_lt_of_le (hf a h₂) (hp.length_le h₁)

theorem map {h : α → β} (hp : p.Advances) : (h <$> p).Advances := hp.bind_left fun a => .pure (h a)

theorem consume (kind : TokenKind) (what : Expected) : (consume kind what).Advances := by
  intro c t c' h
  obtain ⟨o, c₁, h₁, h₂⟩ := bind_eq_ok h
  cases o with
  | none => cases h₂
  | some u =>
    cases h₂
    unfold accept at h₁
    split at h₁
    · next v k hr =>
      split at h₁
      · cases h₁
        rw [hr]
        exact Nat.lt_succ_self _
      · cases h₁
    · cases h₁

/-- A rule that starts with a token of a given kind. -/
theorem consume_bind {kind : TokenKind} {what : Expected} {f : Token → Parse β}
    (hf : ∀ t, (f t).Indexable) : (Parse.consume kind what >>= f).Advances :=
  (consume kind what).bind_left hf

theorem nested (hp : p.Advances) : (nested p).Advances := by
  intro c a c' h
  unfold Parse.nested at h
  split at h
  · cases h
  · split at h
    · next hpc =>
      cases h
      have hlt := hp hpc
      exact hlt
    · cases h
    · cases h
    · cases h

end Advances

end Parse

namespace Grammar

open Parse (Advances Indexable)

variable {R : Rules}

theorem block_advances (hR : R.Indexable) : (block R).Advances := by
  rw [block_eq]
  exact .bind_right (.many _ (bodyRound_indexable hR)) fun _ => .map (.consume _ _)

/-- Every statement has a token of its own: a semicolon, a brace or a parenthesis. -/
theorem statement_advances (hR : R.Indexable) : (statement R).Advances := by
  have hadvance : Parse.advance.Indexable := ⟨_, .advance⟩
  refine .nested (.bind_right ⟨_, .peek⟩ fun t => ?_)
  split
  · exact .bind_right hadvance fun _ => .bind_right hR.expression fun _ => .map (.consume _ _)
  · exact .bind_right hadvance fun _ => .map (block_advances hR)
  · refine .bind_right hadvance fun _ => .consume_bind fun _ => ?_
    refine .bind hR.expression fun condition => .bind (.consume _ _) fun _ => ?_
    exact .bind hR.statement fun yes => .accept (.pure _) fun _ => .map hR.statement
  · refine .bind_right hadvance fun _ => .consume_bind fun _ => .bind hR.expression fun _ => ?_
    exact .bind (.consume _ _) fun _ => .map hR.statement
  · rw [forStatement_eq]
    refine .bind_right hadvance fun _ => .consume_bind fun _ => ?_
    refine .bind (forInitial_indexable hR) fun _ => .bind (clauseBefore_indexable _ hR) fun _ => ?_
    refine .bind (.consume _ _) fun _ => .bind (clauseBefore_indexable _ hR) fun _ => ?_
    exact .bind (.consume _ _) fun _ => .map hR.statement
  · rw [returnStatement_eq]
    exact .bind_right hadvance fun _ => .bind_right (clauseBefore_indexable _ hR) fun _ =>
      .map (.consume _ _)
  · exact .bind_right hadvance fun _ => .map (.consume _ _)
  · exact .bind_right hR.expression fun _ => .map (.consume _ _)

theorem declared_advances (hR : R.Indexable) (hs : R.statement.Advances) :
    (declared R).Advances := by
  have hadvance : Parse.advance.Indexable := ⟨_, .advance⟩
  refine .bind_right ⟨_, .peek⟩ fun t => ?_
  split
  · rw [classDeclaration_eq]
    refine .bind_right hadvance fun _ => .consume_bind fun name => ?_
    refine .accept (classBody_indexable _ _ hR) fun _ => ?_
    exact .bind (.consume _ _) fun super => classBody_indexable _ _ hR
  · refine .bind_right hadvance fun _ => .consume_bind fun name => ?_
    refine .accept (.map (.consume _ _)) fun _ => ?_
    exact .bind (.map hR.expression) fun initial => .map (.consume _ _)
  · refine .bind_right hadvance fun _ => .consume_bind fun path => ?_
    refine .accept (.map (.consume _ _)) fun _ => ?_
    exact .bind (.consume _ _) fun name => .map (.consume _ _)
  · refine .bind_right ⟨_, .checkSecond nofun⟩ fun b => ?_
    split
    · refine .bind_right hadvance fun _ => .map (.consume_bind fun name => ?_)
      exact .bind (.consume _ _) fun _ => .map (functionRest_indexable _ hR)
    · exact hs
  · exact hs

/-- A declaration reads a token, if there is one: it succeeds with one, or recovery drops one. -/
theorem declaration_advances (hR : R.Indexable) (hs : R.statement.Advances) {c c' : Cursor}
    {o : Option (Stmt Unit)} (hne : c.rest ≠ []) (h : declaration R c = .ok o c') :
    c'.rest.length < c.rest.length := by
  rw [declaration_eq, Parse.recovering] at h
  cases hp : declared R c with
  | ok s c₁ =>
    rw [hp] at h
    cases h
    exact declared_advances hR hs hp
  | bail c₁ =>
    rw [hp] at h
    cases h
    obtain ⟨q, hq⟩ := declared_indexable hR
    have hle : c₁.rest.length ≤ c.rest.length := by
      have hr := hq.recedes c
      rwa [hp] at hr
    cases hr : c₁.rest with
    | nil => simpa [Cursor.synchronize, hr] using List.length_pos_iff.mpr hne
    | cons t k =>
      have hk := Cursor.length_skipFrom_le t k
      rw [hr, List.length_cons] at hle
      simp only [Cursor.synchronize, hr]
      omega
  | abort c₁ =>
    rw [hp] at h
    cases h
  | exhausted =>
    rw [hp] at h
    cases h

/-- A round of a loop over declarations reads a token. -/
theorem declarationRound_advances (hd : ∀ {c c' : Cursor} {o : Option (Stmt Unit)}, c.rest ≠ [] →
      R.declaration c = .ok o c' → c'.rest.length < c.rest.length)
    {body : List (Stmt Unit)} {next : Option (List (Stmt Unit))} {c c' : Cursor} (hne : c.rest ≠ [])
    (h : declarationRound R body c = .ok next c') : c'.rest.length < c.rest.length := by
  obtain ⟨o, c₁, h₁, h₂⟩ := Parse.bind_eq_ok h
  have hlt := hd hne h₁
  cases o with
  | some s =>
    cases h₂
    exact hlt
  | none =>
    cases h₂
    exact hlt

end Grammar

/-- A loop whose every round that goes on has read a token. -/
def Parse.Progresses {α : Type} (round : α → Parse (Option α)) : Prop :=
  ∀ ⦃a a' : α⦄ ⦃c c' : Cursor⦄, round a c = .ok (some a') c' → c'.rest.length < c.rest.length

namespace Rules

open Grammar

theorem upTo_declaration_advances (N : Nat) {c c' : Cursor} {o : Option (Stmt Unit)}
    (hne : c.rest ≠ []) (h : (Rules.upTo N).declaration c = .ok o c') :
    c'.rest.length < c.rest.length := by
  have hs : ∀ N, (Rules.upTo N).statement.Advances := by
    intro N
    cases N with
    | zero =>
      intro c a c' h
      cases h
    | succ N => exact statement_advances (upTo_indexable N)
  cases N with
  | zero => cases h
  | succ N => exact declaration_advances (upTo_indexable N) (hs N) hne h

theorem programRound_progresses (N : Nat) : Parse.Progresses (programRound (.upTo N)) := by
  intro body body' c c' h
  obtain ⟨e, c₁, h₁, h₂⟩ := Parse.bind_eq_ok h
  cases h₁
  obtain ⟨he, h₃⟩ := Parse.unless_eq_some h₂
  exact declarationRound_advances (upTo_declaration_advances N) (by simpa using he) h₃

theorem bodyRound_progresses (N : Nat) : Parse.Progresses (bodyRound (.upTo N)) := by
  intro body body' c c' h
  obtain ⟨e, c₁, h₁, h₂⟩ := Parse.bind_eq_ok h
  cases h₁
  obtain ⟨b, c₂, h₂, h₃⟩ := Parse.bind_eq_ok h₂
  cases h₂
  obtain ⟨hb, h₄⟩ := Parse.unless_eq_some h₃
  have he := (Bool.or_eq_false_iff.mp hb).1
  exact declarationRound_advances (upTo_declaration_advances N) (by simpa using he) h₄

end Rules

/-! ### Any sequence of tokens -/

/-- The mark for tokens that do not end in one: it stands on the line of the last token. -/
def Token.endMark (tokens : List Token) : Token :=
  { kind := .eof, lexeme := [], line := (tokens.getLast?.map Token.line).getD 1 }

/-- The tokens, with an end mark behind them if they do not end in one. -/
def Token.marked (tokens : List Token) : List Token :=
  if tokens.getLast?.map Token.kind = some .eof then tokens else tokens ++ [Token.endMark tokens]

/-- The tokens cut right behind their first end mark, or with one added if there is none. -/
def Token.cut (tokens : List Token) : List Token :=
  match tokens.findIdx? (·.kind = .eof) with
  | some i => tokens.take (i + 1)
  | none => tokens ++ [Token.endMark tokens]

/-- The mark that ends the input is the first one among the tokens, or there is none among them. -/
theorem Token.untilEnd_cases (tokens : List Token) :
    (∃ after, tokens = (Token.untilEnd tokens).1 ++ (Token.untilEnd tokens).2 :: after) ∨
      (∀ t ∈ tokens, t.kind ≠ .eof) ∧ Token.untilEnd tokens = (tokens, Token.endMark tokens) := by
  have hsplit := List.takeWhile_append_dropWhile (p := fun t : Token => decide (t.kind ≠ .eof))
    (l := tokens)
  unfold Token.untilEnd
  cases hd : tokens.dropWhile (fun t => decide (t.kind ≠ .eof)) with
  | cons stop after =>
    rw [hd] at hsplit
    exact .inl ⟨after, hsplit.symm⟩
  | nil =>
    rw [hd, List.append_nil] at hsplit
    have hne : ∀ t ∈ tokens, t.kind ≠ .eof := by
      intro t ht
      rw [← hsplit] at ht
      simpa using List.all_eq_true.mp List.all_takeWhile t ht
    rw [hsplit]
    exact .inr ⟨hne, rfl⟩

theorem Token.exists_marked_eq (tokens : List Token) :
    ∃ after, Token.marked tokens =
      (Token.untilEnd tokens).1 ++ (Token.untilEnd tokens).2 :: after := by
  unfold Token.marked
  rcases Token.untilEnd_cases tokens with ⟨after, ha⟩ | ⟨hne, hu⟩
  · split
    · exact ⟨after, ha⟩
    · refine ⟨after ++ [Token.endMark tokens], ?_⟩
      rw [← List.cons_append, ← List.append_assoc, ← ha]
  · have hlast : tokens.getLast?.map Token.kind ≠ some .eof := by
      intro h
      obtain ⟨t, ht, hk⟩ := Option.map_eq_some_iff.mp h
      exact hne t (List.mem_of_getLast? ht) hk
    rw [if_neg hlast, hu]
    exact ⟨[], rfl⟩

theorem Token.cut_eq (tokens : List Token) :
    Token.cut tokens = (Token.untilEnd tokens).1 ++ [(Token.untilEnd tokens).2] := by
  unfold Token.cut
  rcases Token.untilEnd_cases tokens with ⟨after, ha⟩ | ⟨hne, hu⟩
  · have hbefore := Token.kind_ne_eof_of_untilEnd tokens
    have hstop := Token.untilEnd_kind tokens
    generalize (Token.untilEnd tokens).1 = before, (Token.untilEnd tokens).2 = stop at *
    subst ha
    have hi : (before ++ stop :: after).findIdx? (·.kind = .eof) = some before.length := by
      have hn : before.findIdx? (fun t => decide (t.kind = .eof)) = none := by simpa using hbefore
      simp [List.findIdx?_append, hn, List.findIdx?_cons, hstop]
    rw [hi]
    simp [List.take_append, List.take_of_length_le]
  · have hi : tokens.findIdx? (·.kind = .eof) = none := by simpa using hne
    rw [hi, hu]

/-- What stands behind the first end mark does not matter. -/
theorem Parsed.ofTokens_cut (tokens : List Token) :
    Parsed.ofTokens (Token.cut tokens) = Parsed.ofTokens tokens := by
  have hu : Token.untilEnd (Token.cut tokens) = Token.untilEnd tokens := by
    rw [Token.cut_eq]
    exact Token.untilEnd_append (Token.kind_ne_eof_of_untilEnd tokens) (Token.untilEnd_kind tokens)
  unfold Parsed.ofTokens
  rw [hu]

/-- The state from which a sequence of tokens is read by index. -/
def Reader.start (tokens : List Token) : Reader := { tokens := Token.marked tokens }

/-- The state from which a sequence of tokens is parsed. -/
def Cursor.start (tokens : List Token) : Cursor :=
  { rest := (Token.untilEnd tokens).1, stop := (Token.untilEnd tokens).2 }

theorem Reader.start_stands (tokens : List Token) :
    (Reader.start tokens).Stands (Cursor.start tokens) where
  tokens := Token.exists_marked_eq tokens
  inner := Token.kind_ne_eof_of_untilEnd tokens
  closed := Token.untilEnd_kind tokens
  grouped := rfl
  depth := rfl
  faults := rfl

/-- What a parse that reads by index has found, if it has an answer. -/
def Reader.Result.parsed? : Reader.Result (Program Unit) → Option Parsed
  | .ok program r => some ⟨program, r.faults.reverse⟩
  | .abort r => some ⟨[], r.faults.reverse⟩
  | .bail _ => none
  | .exhausted => none

/-- A larger bound than the one that is used makes no difference. -/
theorem Grammar.program_upTo_eq {tokens : List Token} {N : Nat}
    (hN : Rules.depthFor (Token.untilEnd tokens).1.length ≤ N) :
    Grammar.program (.upTo N) (Cursor.start tokens) =
      Grammar.program (.upTo (Rules.depthFor (Token.untilEnd tokens).1.length))
        (Cursor.start tokens) := by
  rw [Rules.depthFor_eq] at hN ⊢
  obtain ⟨M, rfl⟩ : ∃ M, N = M + 5 := ⟨N - 5, by omega⟩
  have hR : Rules.Agree (Token.untilEnd tokens).1.length (.upTo (M + 5))
      (.upTo (6 * (Token.untilEnd tokens).1.length + 7 + 5)) :=
    Rules.upTo_agree (by omega) (by omega)
  exact (program_agree (c := Cursor.start tokens) hR (Token.untilEnd_kind tokens) rfl
    (Nat.le_refl _)).1

/-- The parser gives an answer for every sequence of tokens, whatever marks there are in it, and
with any bound on references from the one it uses on. Reading by index gives the same answer, so
that no read is outside the sequence. What stands behind the first end mark does not matter. Every
round of the loops over the declarations of a program and of a block (`Grammar.program_eq`,
`Grammar.block_eq`) that goes on has read a token, recovered or not. -/
theorem Parsed.ofTokens_total (tokens : List Token) :
    (∀ N, Rules.depthFor (Token.untilEnd tokens).1.length ≤ N →
      ∃ q, (Grammar.program (.upTo N)).Indexes q ∧
        ∃ result, q (Reader.start tokens) = some result ∧
          result.parsed? = some (Parsed.ofTokens tokens)) ∧
    Parsed.ofTokens tokens = Parsed.ofTokens (Token.cut tokens) ∧
    ∀ N, Parse.Progresses (Grammar.programRound (.upTo N)) ∧
      Parse.Progresses (Grammar.bodyRound (.upTo N)) := by
  refine ⟨fun N hN => ?_, (Parsed.ofTokens_cut tokens).symm, fun N =>
    ⟨Rules.programRound_progresses N, Rules.bodyRound_progresses N⟩⟩
  obtain ⟨q, hq⟩ := Grammar.program_indexable (Rules.upTo_indexable N)
  refine ⟨q, hq, ?_⟩
  have hs := hq.served (Reader.start_stands tokens)
  have hp := Parsed.ofTokens_eq tokens
  rw [Grammar.program_upTo_eq hN, Cursor.start, Grammar.program_eq_readAll] at hs
  rcases Grammar.readAll_cases (Token.untilEnd tokens).1 (Token.untilEnd_kind tokens) with
    ⟨ss, fs, h, -, -⟩ | ⟨c, h, -⟩
  · rw [h] at hs hp
    generalize q (Reader.start tokens) = x at hs ⊢
    cases hs with
    | @ok _ _ r' hl hs => exact ⟨_, rfl, by rw [hp, Reader.Result.parsed?, hs.faults]⟩
  · rw [h] at hs hp
    generalize q (Reader.start tokens) = x at hs ⊢
    cases hs with
    | @abort _ r' hl hs => exact ⟨_, rfl, by rw [hp, Reader.Result.parsed?, hs.faults]⟩

end Lox
