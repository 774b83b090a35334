import Lox.Proofs.Grammar.Totality

/-!
# The height of parsed trees

The limit on nesting counts unary expressions, assignments and statements that are open at once.
Between two of them a rule builds only a few levels of a tree, except along chains: operands joined
from left to right, calls and properties are read in a loop, as are the declarations in the body of
a declared function or class, none of which is counted. So the limit bounds the height of a tree in
which such steps add no level, whatever the tokens and whether or not they have problems. The height
of the tree itself is not bounded.
-/

namespace Lox

section

variable {ρ : Type}

mutual

/-- The height of an expression. What an operator, a call or a property continues stands `k` levels
below it, any other part one level. -/
@[simp] def Expr.height (k : Nat) : Expr ρ → Nat
  | .literal _ => 1
  | .group inner => inner.height k + 1
  | .unary _ _ operand => operand.height k + 1
  | .binary _ _ left right => max (left.height k + k) (right.height k + 1)
  | .logical _ _ left right => max (left.height k + k) (right.height k + 1)
  | .conditional condition yes no =>
    max (condition.height k) (max (yes.height k) (no.height k)) + 1
  | .name _ _ => 1
  | .assign _ _ value => value.height k + 1
  | .get object _ => object.height k + k
  | .set object _ value => max (object.height k + k) (value.height k + 1)
  | .call callee _ arguments => max (callee.height k + k) (Expr.heightAll k arguments + 1)
  | .function _ fn => fn.height k + 1
  | .receiver _ _ => 1
  | .inherited _ _ _ => 1

/-- The height of the highest of some expressions. -/
@[simp] def Expr.heightAll (k : Nat) : List (Expr ρ) → Nat
  | [] => 0
  | e :: es => max (e.height k) (Expr.heightAll k es)

/-- The height of the body of a function. -/
@[simp] def Function.height (k : Nat) : Function ρ → Nat
  | .mk _ body => Stmt.heightAll k body

/-- The height of the highest body of some methods. -/
@[simp] def Method.heightAll (k : Nat) : List (Method ρ) → Nat
  | [] => 0
  | .mk _ _ fn :: methods => max (fn.height k) (Method.heightAll k methods)

/-- The height of a statement. The body of a declared function or class stands `k` levels below its
declaration, any other part one level. -/
@[simp] def Stmt.height (k : Nat) : Stmt ρ → Nat
  | .expression e => e.height k + 1
  | .print e => e.height k + 1
  | .varDecl _ none => 1
  | .varDecl _ (some e) => e.height k + 1
  | .block body => Stmt.heightAll k body + 1
  | .branch condition yes none => max (condition.height k) (yes.height k) + 1
  | .branch condition yes (some no) =>
    max (max (condition.height k) (yes.height k)) (no.height k) + 1
  | .loop condition body => max (condition.height k) (body.height k) + 1
  | .ret _ none => 1
  | .ret _ (some e) => e.height k + 1
  | .brk _ => 1
  | .funDecl _ fn => max 1 (fn.height k + k)
  | .classDecl _ _ methods => max 1 (Method.heightAll k methods + k)
  | .importDecl _ _ => 1

/-- The height of the highest of some statements. -/
@[simp] def Stmt.heightAll (k : Nat) : List (Stmt ρ) → Nat
  | [] => 0
  | s :: ss => max (s.height k) (Stmt.heightAll k ss)

end

theorem Expr.heightAll_le {k m : Nat} {es : List (Expr ρ)} (h : ∀ e ∈ es, e.height k ≤ m) :
    Expr.heightAll k es ≤ m := by
  induction es with
  | nil => simp
  | cons e es ih =>
    rw [List.forall_mem_cons] at h
    exact Nat.max_le.mpr ⟨h.1, ih h.2⟩

theorem Stmt.heightAll_le {k m : Nat} {ss : List (Stmt ρ)} (h : ∀ s ∈ ss, s.height k ≤ m) :
    Stmt.heightAll k ss ≤ m := by
  induction ss with
  | nil => simp
  | cons s ss ih =>
    rw [List.forall_mem_cons] at h
    exact Nat.max_le.mpr ⟨h.1, ih h.2⟩

theorem Method.heightAll_le {k m : Nat} {ms : List (Method ρ)}
    (h : ∀ method ∈ ms, method.fn.height k ≤ m) : Method.heightAll k ms ≤ m := by
  induction ms with
  | nil => simp
  | cons method ms ih =>
    rw [List.forall_mem_cons] at h
    obtain ⟨static, name, fn⟩ := method
    exact Nat.max_le.mpr ⟨h.1, ih h.2⟩

end

/-! ### What rules yield at a depth -/

variable {α β : Type}

/-- An outcome at the given depth of nesting, with a value that has a property if there is one. -/
inductive Outcome.Stays (d : Nat) (P : α → Prop) : Outcome α → Prop where
  | ok {a : α} {c : Cursor} : c.depth = d → P a → Stays d P (.ok a c)
  | bail {c : Cursor} : c.depth = d → Stays d P (.bail c)
  | abort (c : Cursor) : Stays d P (.abort c)
  | exhausted : Stays d P .exhausted

/-- A rule that ends at the depth at which it started, and yields there only what has a property. -/
def Parse.YieldsAt (d : Nat) (p : Parse α) (P : α → Prop) : Prop :=
  ∀ c : Cursor, c.depth = d → (p c).Stays d P

namespace Parse.YieldsAt

variable {d : Nat} {p : Parse α} {f : α → Parse β} {P : α → Prop} {Q : β → Prop}

theorem pure {a : α} (h : P a) : YieldsAt d (Pure.pure a) P := fun _ hc => .ok hc h

theorem fail (what : Expected) : YieldsAt d (Parse.fail what) P := fun _ hc => .bail hc

theorem imp (hp : p.YieldsAt d P) {P' : α → Prop} (h : ∀ a, P a → P' a) : p.YieldsAt d P' := by
  intro c hc
  have hp := hp c hc
  generalize p c = o at hp ⊢
  cases hp with
  | ok hd ha => exact .ok hd (h _ ha)
  | bail hd => exact .bail hd
  | abort c => exact .abort c
  | exhausted => exact .exhausted

theorem bind (hp : p.YieldsAt d P) (hf : ∀ a, P a → (f a).YieldsAt d Q) :
    (p >>= f).YieldsAt d Q := by
  intro c hc
  rw [bind_apply]
  have hp := hp c hc
  generalize p c = o at hp ⊢
  cases hp with
  | ok hd ha => exact hf _ ha _ hd
  | bail hd => exact .bail hd
  | abort c => exact .abort c
  | exhausted => exact .exhausted

/-! ### Steps whose value does not matter -/

theorem value (a : α) : YieldsAt d (Pure.pure a) fun _ => True := pure trivial

theorem peek : YieldsAt d Parse.peek fun _ => True := fun _ hc => .ok hc trivial

theorem check (kind : TokenKind) : YieldsAt d (Parse.check kind) fun _ => True :=
  fun _ hc => .ok hc trivial

theorem checkSecond (kind : TokenKind) : YieldsAt d (Parse.checkSecond kind) fun _ => True :=
  fun _ hc => .ok hc trivial

theorem atEnd : YieldsAt d Parse.atEnd fun _ => True := fun _ hc => .ok hc trivial

theorem isGrouped : YieldsAt d Parse.isGrouped fun _ => True := fun _ hc => .ok hc trivial

theorem advance : YieldsAt d Parse.advance fun _ => True := fun _ hc => .ok hc trivial

theorem report (t : Token) (problem : GrammarProblem) :
    YieldsAt d (Parse.report t problem) fun _ => True := fun _ hc => .ok hc trivial

theorem accept (kind : TokenKind) : YieldsAt d (Parse.accept kind) fun _ => True := by
  intro c hc
  unfold Parse.accept
  split
  · split
    · exact .ok hc trivial
    · exact .ok hc trivial
  · exact .ok hc trivial

theorem consume (kind : TokenKind) (what : Expected) :
    YieldsAt d (Parse.consume kind what) fun _ => True := by
  refine (accept kind).bind fun found _ => ?_
  cases found with
  | none => exact fail what
  | some t => exact pure trivial

/-! ### Rules around rules -/

theorem optional (hp : p.YieldsAt d P) : (some <$> p).YieldsAt d fun a => ∀ b ∈ a, P b := by
  refine hp.bind fun a ha => pure ?_
  rintro b ⟨⟩
  exact ha

/-- A clause that is left out before a token of the given kind. -/
theorem unlessAt {kind : TokenKind} {rest : Option α → Parse β} (hp : p.YieldsAt d P)
    (hrest : ∀ a, (∀ b ∈ a, P b) → (rest a).YieldsAt d Q) :
    (Parse.check kind >>= fun present =>
      if present then Pure.pure none >>= rest else some <$> p >>= rest).YieldsAt d Q := by
  refine (check kind).bind fun present _ => ?_
  split
  · refine bind (pure ?_) hrest
    rintro b ⟨⟩
  · exact hp.optional.bind hrest

/-- One level deeper there is one level of nesting less to go. -/
theorem nested (hp : d < maxNesting → p.YieldsAt (d + 1) P) : (Parse.nested p).YieldsAt d P := by
  intro c hc
  unfold Parse.nested
  split
  · exact .abort _
  · next hdepth =>
    have hp := hp (by omega) { c with depth := c.depth + 1 } (by simp [hc])
    generalize p _ = o at hp ⊢
    cases hp with
    | ok hd ha => exact .ok (by simp [hd]) ha
    | bail hd => exact .bail (by simp [hd])
    | abort c => exact .abort c
    | exhausted => exact .exhausted

theorem within (grouped : Bool) (hp : p.YieldsAt d P) : (Parse.within grouped p).YieldsAt d P := by
  intro c hc
  unfold Parse.within
  have hp := hp { c with grouped := grouped } hc
  generalize p _ = o at hp ⊢
  cases hp with
  | ok hd ha => exact .ok hd ha
  | bail hd => exact .bail hd
  | abort c => exact .abort c
  | exhausted => exact .exhausted

theorem recovering (hp : p.YieldsAt d P) :
    (Parse.recovering p).YieldsAt d fun a => ∀ b ∈ a, P b := by
  intro c hc
  unfold Parse.recovering
  have hp := hp c hc
  generalize p c = o at hp ⊢
  cases hp with
  | ok hd ha =>
    refine .ok hd ?_
    rintro b ⟨⟩
    exact ha
  | @bail next hd =>
    refine .ok ?_ (by rintro b ⟨⟩)
    rw [← hd, Cursor.synchronize]
    split <;> rfl
  | abort c => exact .abort c
  | exhausted => exact .exhausted

theorem iterate {round : α → Parse (Option α)}
    (hround : ∀ a, P a → (round a).YieldsAt d fun next => ∀ b ∈ next, P b) (budget : List Token)
    {a : α} (ha : P a) : (Parse.iterate round budget a).YieldsAt d P := by
  intro c hc
  unfold Parse.iterate
  have hr := hround a ha c hc
  generalize round a c = o at hr ⊢
  cases hr with
  | @ok next c' hd hnext =>
    cases next with
    | none => exact .ok hd ha
    | some b =>
      cases budget with
      | nil => exact .exhausted
      | cons t budget => exact iterate hround budget (hnext b rfl) c' hd
  | bail hd => exact .bail hd
  | abort c => exact .abort c
  | exhausted => exact .exhausted

/-- A property that every round keeps holds of what a repetition yields. -/
theorem many {round : α → Parse (Option α)} {a : α} (ha : P a)
    (hround : ∀ a, P a → (round a).YieldsAt d fun next => ∀ b ∈ next, P b) :
    (Parse.many round a).YieldsAt d P :=
  fun c hc => iterate hround c.rest ha c hc

end Parse.YieldsAt

/-! ### The height of what rules yield -/

/-- An expression with room for `slack` more levels above it at a depth of nesting: each level of
nesting that is left is worth sixteen levels of the tree. -/
def Expr.Low (slack d : Nat) (e : Expr Unit) : Prop :=
  e.height 0 + slack + 16 * d ≤ 16 * maxNesting

/-- A statement that leaves room at a depth of nesting. -/
def Stmt.Low (d : Nat) (s : Stmt Unit) : Prop := s.height 0 + 16 * d ≤ 16 * maxNesting

/-- A declaration that leaves room, or is not nested at all: the rules for declarations do not
count as nesting, so one can stand where no statement can. -/
def Stmt.LowDeclaration (d : Nat) (s : Stmt Unit) : Prop := s.height 0 ≤ 1 ∨ s.Low d

theorem Stmt.low_heightAll {d : Nat} {ss : List (Stmt Unit)} (h : ∀ s ∈ ss, s.LowDeclaration d) :
    Stmt.heightAll 0 ss ≤ 1 ∨ Stmt.heightAll 0 ss + 16 * d ≤ 16 * maxNesting := by
  have hle : Stmt.heightAll 0 ss ≤ max 1 (16 * maxNesting - 16 * d) := by
    refine Stmt.heightAll_le fun s hs => ?_
    have := h s hs
    unfold Stmt.LowDeclaration Stmt.Low at this
    omega
  omega

/-- What the rules yield is low. -/
structure Rules.Low (rules : Rules) : Prop where
  declaration : ∀ d, rules.declaration.YieldsAt d fun a => ∀ s ∈ a, s.LowDeclaration d
  statement : ∀ d, rules.statement.YieldsAt d (Stmt.Low d)
  expression : ∀ d, rules.expression.YieldsAt d (Expr.Low 8 d)
  assignment : ∀ d, rules.assignment.YieldsAt d (Expr.Low 9 d)
  unary : ∀ d, rules.unary.YieldsAt d (Expr.Low 14 d)

namespace Grammar

open Parse.YieldsAt

variable {rules : Rules} {d : Nat}

/-! ### Expressions -/

theorem parameters_keepsDepth : parameters.YieldsAt d fun _ => True := by
  unfold parameters
  refine bind (check _) fun closed _ => ?_
  split
  · exact pure trivial
  · refine bind (consume _ _) fun first _ => bind (P := fun _ => True) ?_ fun _ _ => pure trivial
    refine many trivial fun params _ => bind (accept _) fun comma _ => ?_
    cases comma with
    | none => exact pure (by rintro b ⟨⟩)
    | some _ =>
      have hparameter : ∀ u : Unit, ((do
          let param ← Parse.consume .identifier .parameterName
          pure (some (param.mark :: params))) : Parse (Option (List Mark))).YieldsAt d
            fun next => ∀ b ∈ next, True :=
        fun _ => bind (consume _ _) fun _ _ => pure fun _ _ => trivial
      dsimp only
      split
      · exact bind peek fun _ _ => bind (report _ _) fun _ _ => hparameter ()
      · exact hparameter ()

/-- One more declaration, unless recovery has left nothing of it. -/
theorem low_declarationRound (h : rules.Low) {body : List (Stmt Unit)}
    (hbody : ∀ s ∈ body, s.LowDeclaration d) :
    (declarationRound rules body).YieldsAt d fun next => ∀ b ∈ next, ∀ s ∈ b, s.LowDeclaration d := by
  unfold declarationRound
  refine bind (h.declaration d) fun found hfound => ?_
  cases found with
  | none =>
    refine pure ?_
    rintro b ⟨⟩
    exact hbody
  | some s =>
    refine pure ?_
    rintro b ⟨⟩
    exact List.forall_mem_cons.mpr ⟨hfound s rfl, hbody⟩

theorem low_block (h : rules.Low) :
    (block rules).YieldsAt d fun body => ∀ s ∈ body, s.LowDeclaration d := by
  rw [block_eq]
  refine bind (P := fun body => ∀ s ∈ body, s.LowDeclaration d) ?_ fun body hbody =>
    bind (consume _ _) fun _ _ => pure fun s hs => hbody s (List.mem_reverse.mp hs)
  refine many (List.forall_mem_nil _) fun body hbody => ?_
  refine bind atEnd fun ended _ => bind (check _) fun closed _ => ?_
  split
  · exact pure (by rintro b ⟨⟩)
  · exact low_declarationRound h hbody

theorem low_functionRest (h : rules.Low) (kind : FunctionKind) :
    (functionRest rules kind).YieldsAt d fun fn => ∀ s ∈ fn.body, s.LowDeclaration d := by
  unfold functionRest
  refine bind parameters_keepsDepth fun params _ => bind (consume _ _) fun _ _ => ?_
  refine bind (consume _ _) fun _ _ => ?_
  exact bind ((low_block h).within false) fun body hbody => pure hbody

theorem low_primary (h : rules.Low) (hd : d ≤ maxNesting) :
    (primary rules).YieldsAt d fun e => e.height 0 + 16 * d ≤ 16 * maxNesting + 2 := by
  have hleaf : 1 + 16 * d ≤ 16 * maxNesting + 2 := by omega
  unfold primary
  refine bind peek fun t _ => ?_
  split
  case h_8 =>
    refine bind advance fun _ _ => bind (consume _ _) fun _ _ => ?_
    refine bind (low_functionRest h .function) fun fn hfn => pure ?_
    obtain ⟨params, body⟩ := fn
    have := Stmt.low_heightAll hfn
    simp only [Function.body, Expr.height, Function.height] at this ⊢
    omega
  case h_10 =>
    refine bind advance fun _ _ => within true ?_
    refine bind (h.expression d) fun inner hinner => bind (consume _ _) fun _ _ => pure ?_
    unfold Expr.Low at hinner
    simp only [Expr.height]
    omega
  case h_6 =>
    refine bind advance fun _ _ => bind (consume _ _) fun _ _ => ?_
    exact bind (consume _ _) fun _ _ => pure hleaf
  case h_11 => exact fail _
  case h_12 => exact fail _
  all_goals exact bind advance fun _ _ => pure hleaf

theorem low_arguments (h : rules.Low) :
    (arguments rules).YieldsAt d fun es => ∀ e ∈ es, Expr.Low 8 d e := by
  have hfirst : ((fun e => [e]) <$> rules.expression).YieldsAt d
      fun es => ∀ e ∈ es, Expr.Low 8 d e :=
    bind (h.expression d) fun e he => pure (List.forall_mem_singleton.mpr he)
  rw [arguments_eq]
  refine bind (check _) fun closed _ => ?_
  split
  · exact pure (List.forall_mem_nil _)
  · refine bind (P := fun es => ∀ e ∈ es, Expr.Low 8 d e) (bind hfirst fun args hargs => ?_)
      fun args hargs => pure fun e he => hargs e (List.mem_reverse.mp he)
    refine many hargs fun args hargs => bind (accept _) fun comma _ => ?_
    cases comma with
    | none => exact pure (by rintro b ⟨⟩)
    | some _ =>
      have hargument : ∀ u : Unit, ((do
          let arg ← rules.expression
          pure (some (arg :: args))) : Parse (Option (List (Expr Unit)))).YieldsAt d
            fun next => ∀ b ∈ next, ∀ e ∈ b, Expr.Low 8 d e := by
        intro _
        refine bind (h.expression d) fun arg harg => pure ?_
        rintro b ⟨⟩
        exact List.forall_mem_cons.mpr ⟨harg, hargs⟩
      dsimp only
      split
      · exact bind peek fun _ _ => bind (report _ _) fun _ _ => hargument ()
      · exact hargument ()

/-- A call continues what it calls, and its arguments stand one level below it. -/
theorem low_callRest (h : rules.Low) {callee : Expr Unit} (hd : d ≤ maxNesting)
    (hcallee : callee.height 0 + 16 * d ≤ 16 * maxNesting + 2) :
    (callRest rules callee).YieldsAt d fun e => e.height 0 + 16 * d ≤ 16 * maxNesting + 2 := by
  unfold callRest
  refine within true (bind (low_arguments h) fun args hargs => bind (consume _ _) fun _ _ => pure ?_)
  have hle : Expr.heightAll 0 args ≤ 16 * maxNesting - 16 * d := by
    refine Expr.heightAll_le fun e he => ?_
    have := hargs e he
    unfold Expr.Low at this
    omega
  simp only [Expr.height]
  omega

theorem low_call (h : rules.Low) (hd : d ≤ maxNesting) :
    (call rules).YieldsAt d fun e => e.height 0 + 16 * d ≤ 16 * maxNesting + 2 := by
  unfold call
  refine bind (low_primary h hd) fun first hfirst => many hfirst fun e he => bind peek fun t _ => ?_
  split
  · refine bind advance fun _ _ => bind (low_callRest h hd he) fun called hcalled => pure ?_
    rintro b ⟨⟩
    exact hcalled
  · refine bind advance fun _ _ => bind (consume _ _) fun property _ => pure ?_
    rintro b ⟨⟩
    exact he
  · exact pure (by rintro b ⟨⟩)

theorem low_unary (h : rules.Low) : (unary rules).YieldsAt d (Expr.Low 14 d) := by
  unfold unary
  refine nested fun hd => bind peek fun t _ => ?_
  have hoperand : ∀ op, (do
      Parse.advance
      return .unary op t.mark (← rules.unary) : Parse (Expr Unit)).YieldsAt (d + 1)
        (Expr.Low 14 d) := by
    intro op
    refine bind advance fun _ _ => bind (h.unary (d + 1)) fun operand hoperand => pure ?_
    unfold Expr.Low at hoperand ⊢
    simp only [Expr.height]
    omega
  split
  · exact hoperand .not
  · exact hoperand .negate
  · refine (low_call h hd).imp fun e he => ?_
    unfold Expr.Low
    omega

/-- The operators of a level continue the left operand and stand one level above the right one. -/
def LowJoins (joins : Joins) : Prop :=
  ∀ t join, joins t = some join → ∀ left right : Expr Unit,
    (join left right).height 0 = max (left.height 0) (right.height 0 + 1)

theorem Level.lowJoins (ℓ : Level) : LowJoins ℓ.joins := by
  intro t join h left right
  rcases Level.joins_eq_some.mp h with ⟨op, -, -, rfl⟩ | ⟨op, -, -, rfl⟩ <;> rfl

/-- A level takes one off the room. -/
theorem low_chain {operand : Parse (Expr Unit)} {joins : Joins} {slack : Nat}
    (hoperand : operand.YieldsAt d (Expr.Low (slack + 1) d)) (hjoins : LowJoins joins) :
    (chain operand joins).YieldsAt d (Expr.Low slack d) := by
  rw [chain_eq]
  refine bind hoperand fun first hfirst => many ?_ fun left hleft => bind peek fun t _ => ?_
  · unfold Expr.Low at hfirst ⊢
    omega
  · cases hjoin : joins t with
    | none => exact pure (by rintro b ⟨⟩)
    | some join =>
      refine bind advance fun _ _ => bind hoperand fun right hright => pure ?_
      rintro b ⟨⟩
      unfold Expr.Low at hleft hright ⊢
      rw [hjoins t join hjoin]
      omega

theorem low_disjunction (h : rules.Low) : (disjunction rules).YieldsAt d (Expr.Low 8 d) := by
  have hproduct : (product rules).YieldsAt d (Expr.Low 13 d) :=
    low_chain (h.unary d) (Level.lowJoins .product)
  have hsum : (sum rules).YieldsAt d (Expr.Low 12 d) := low_chain hproduct (Level.lowJoins .sum)
  have hcomparison : (comparison rules).YieldsAt d (Expr.Low 11 d) :=
    low_chain hsum (Level.lowJoins .comparison)
  have hequality : (equality rules).YieldsAt d (Expr.Low 10 d) :=
    low_chain hcomparison (Level.lowJoins .equality)
  have hconjunction : (conjunction rules).YieldsAt d (Expr.Low 9 d) :=
    low_chain hequality (Level.lowJoins .conjunction)
  exact low_chain hconjunction (Level.lowJoins .disjunction)

theorem low_conditional (h : rules.Low) : (conditional rules).YieldsAt d (Expr.Low 7 d) := by
  unfold conditional
  refine bind (low_disjunction h) fun condition hcondition => bind (accept _) fun question _ => ?_
  unfold Expr.Low at hcondition
  cases question with
  | none =>
    refine pure ?_
    unfold Expr.Low
    omega
  | some _ =>
    refine bind (h.expression d) fun yes hyes => bind (consume _ _) fun _ _ => ?_
    refine bind (h.expression d) fun no hno => pure ?_
    unfold Expr.Low at hyes hno ⊢
    simp only [Expr.height]
    omega

theorem low_assignment (h : rules.Low) : (assignment rules).YieldsAt d (Expr.Low 9 d) := by
  unfold assignment
  refine nested fun hd => bind (low_conditional h) fun target htarget => ?_
  have hdrop : Expr.Low 9 d target := by
    unfold Expr.Low at htarget ⊢
    omega
  refine bind (accept _) fun equals _ => ?_
  cases equals with
  | none => exact pure hdrop
  | some equals =>
    refine bind (h.assignment (d + 1)) fun value hvalue => ?_
    unfold Expr.Low at htarget hvalue
    cases target with
    | name mark ref =>
      refine pure ?_
      unfold Expr.Low
      simp only [Expr.height]
      omega
    | get object property =>
      refine pure ?_
      unfold Expr.Low
      simp only [Expr.height] at htarget ⊢
      omega
    | _ => exact bind (report _ _) fun _ _ => pure hdrop

theorem low_expression (h : rules.Low) : (expression rules).YieldsAt d (Expr.Low 8 d) := by
  unfold expression
  refine bind (h.assignment d) fun first hfirst => many ?_ fun left hleft => ?_
  · unfold Expr.Low at hfirst ⊢
    omega
  · refine bind isGrouped fun grouped _ => ?_
    split
    · exact pure (by rintro b ⟨⟩)
    · refine bind (accept _) fun comma _ => ?_
      cases comma with
      | none => exact pure (by rintro b ⟨⟩)
      | some comma =>
        refine bind (h.assignment d) fun right hright => pure ?_
        rintro b ⟨⟩
        unfold Expr.Low at hleft hright ⊢
        simp only [Expr.height]
        omega

/-! ### Statements -/

theorem low_functionDeclaration (h : rules.Low) (kind : FunctionKind) :
    (functionDeclaration rules kind).YieldsAt d
      fun found => ∀ s ∈ found.2.body, s.LowDeclaration d := by
  unfold functionDeclaration
  refine bind (consume _ _) fun name _ => bind (consume _ _) fun _ _ => ?_
  exact bind (low_functionRest h kind) fun fn hfn => pure hfn

theorem low_method (h : rules.Low) :
    (method rules).YieldsAt d fun m => ∀ s ∈ m.fn.body, s.LowDeclaration d := by
  unfold method
  refine bind (accept _) fun static _ => ?_
  exact bind (low_functionDeclaration h _) fun found hfound => pure hfound

/-- The bodies of methods stand at the depth of their class. -/
theorem low_methods {methods : List (Method Unit)}
    (h : ∀ m ∈ methods, ∀ s ∈ m.fn.body, s.LowDeclaration d) (name : Mark)
    (superclass : Option (Mark × Unit)) :
    (Stmt.classDecl name superclass methods.reverse).LowDeclaration d := by
  have hle : Method.heightAll 0 methods.reverse ≤ max 1 (16 * maxNesting - 16 * d) := by
    refine Method.heightAll_le fun m hm => ?_
    have := Stmt.low_heightAll (h m (List.mem_reverse.mp hm))
    obtain ⟨static, name, params, body⟩ := m
    simp only [Method.fn, Function.body, Function.height] at this ⊢
    omega
  unfold Stmt.LowDeclaration Stmt.Low
  simp only [Stmt.height]
  omega

theorem low_classDeclaration (h : rules.Low) :
    (classDeclaration rules).YieldsAt d (Stmt.LowDeclaration d) := by
  have hmethods : (Parse.many (methodRound rules) []).YieldsAt d
      fun methods => ∀ m ∈ methods, ∀ s ∈ m.fn.body, s.LowDeclaration d := by
    refine many (List.forall_mem_nil _) fun methods hmethods => ?_
    refine bind atEnd fun ended _ => bind (check _) fun closed _ => ?_
    split
    · exact pure (by rintro b ⟨⟩)
    · refine bind (low_method h) fun m hm => pure ?_
      rintro b ⟨⟩
      exact List.forall_mem_cons.mpr ⟨hm, hmethods⟩
  unfold classDeclaration
  refine bind (consume _ _) fun name _ => bind (accept _) fun less _ => ?_
  cases less with
  | none =>
    refine bind (value _) fun superclass _ => bind (consume _ _) fun _ _ => ?_
    exact bind hmethods fun methods hmethods => bind (consume _ _) fun _ _ =>
      pure (low_methods hmethods _ _)
  | some _ =>
    refine bind (consume _ _) fun super _ => bind (value _) fun superclass _ => ?_
    refine bind (consume _ _) fun _ _ => ?_
    exact bind hmethods fun methods hmethods => bind (consume _ _) fun _ _ =>
      pure (low_methods hmethods _ _)

theorem low_varDecl {initial : Option (Expr Unit)} (h : ∀ e ∈ initial, Expr.Low 8 d e)
    (name : Mark) : (Stmt.varDecl name initial).LowDeclaration d := by
  unfold Stmt.LowDeclaration Stmt.Low
  cases initial with
  | none => exact .inl (Nat.le_refl _)
  | some e =>
    have := h e rfl
    unfold Expr.Low at this
    simp only [Stmt.height]
    omega

theorem low_varDeclaration (h : rules.Low) :
    (varDeclaration rules).YieldsAt d (Stmt.LowDeclaration d) := by
  unfold varDeclaration
  refine bind (consume _ _) fun name _ => bind (accept _) fun equals _ => ?_
  extract_lets rest
  have hrest : ∀ initial, (∀ e ∈ initial, Expr.Low 8 d e) →
      (rest initial).YieldsAt d (Stmt.LowDeclaration d) := fun initial hinitial =>
    bind (consume _ _) fun _ _ => pure (low_varDecl hinitial _)
  cases equals with
  | none => exact bind (pure (by rintro e ⟨⟩)) hrest
  | some _ => exact bind (optional (h.expression d)) hrest

theorem low_importDeclaration : importDeclaration.YieldsAt d (Stmt.LowDeclaration d) := by
  have hleaf : ∀ path asName, (Stmt.importDecl path asName).LowDeclaration d :=
    fun _ _ => .inl (Nat.le_refl _)
  unfold importDeclaration
  refine bind (consume _ _) fun path _ => bind (accept _) fun as _ => ?_
  cases as with
  | none => exact bind (value _) fun _ _ => bind (consume _ _) fun _ _ => pure (hleaf _ _)
  | some _ =>
    refine bind (consume _ _) fun name _ => bind (value _) fun asName _ => ?_
    exact bind (consume _ _) fun _ _ => pure (hleaf _ _)

theorem low_expressionStatement (h : rules.Low) :
    (expressionStatement rules).YieldsAt d fun s => s.height 0 + 7 + 16 * d ≤ 16 * maxNesting := by
  unfold expressionStatement
  refine bind (h.expression d) fun e he => bind (consume _ _) fun _ _ => pure ?_
  unfold Expr.Low at he
  simp only [Stmt.height]
  omega

theorem low_printStatement (h : rules.Low) :
    (printStatement rules).YieldsAt (d + 1) (Stmt.Low d) := by
  unfold printStatement
  refine bind (h.expression (d + 1)) fun e he => bind (consume _ _) fun _ _ => pure ?_
  unfold Expr.Low at he
  simp only [Stmt.Low, Stmt.height]
  omega

theorem low_blockStatement (h : rules.Low) (hd : d < maxNesting) :
    ((return .block (← block rules)) : Parse (Stmt Unit)).YieldsAt (d + 1) (Stmt.Low d) := by
  refine bind (low_block h) fun body hbody => pure ?_
  have := Stmt.low_heightAll hbody
  simp only [Stmt.Low, Stmt.height]
  omega

theorem low_ifStatement (h : rules.Low) :
    (ifStatement rules).YieldsAt (d + 1) (Stmt.Low d) := by
  unfold ifStatement
  refine bind (consume _ _) fun _ _ => bind (h.expression (d + 1)) fun condition hcondition => ?_
  refine bind (consume _ _) fun _ _ => bind (h.statement (d + 1)) fun yes hyes => ?_
  unfold Expr.Low at hcondition
  unfold Stmt.Low at hyes
  refine bind (accept _) fun otherwise _ => ?_
  cases otherwise with
  | none =>
    refine pure ?_
    simp only [Stmt.Low, Stmt.height]
    omega
  | some _ =>
    refine bind (h.statement (d + 1)) fun no hno => pure ?_
    unfold Stmt.Low at hno
    simp only [Stmt.Low, Stmt.height]
    omega

theorem low_whileStatement (h : rules.Low) :
    (whileStatement rules).YieldsAt (d + 1) (Stmt.Low d) := by
  unfold whileStatement
  refine bind (consume _ _) fun _ _ => bind (h.expression (d + 1)) fun condition hcondition => ?_
  refine bind (consume _ _) fun _ _ => bind (h.statement (d + 1)) fun body hbody => pure ?_
  unfold Expr.Low at hcondition
  simp only [Stmt.Low, Stmt.height] at hbody ⊢
  omega

/-- The loop that a `for` statement abbreviates has at most three levels above its body and four
above its increment. -/
theorem height_forLoop {initial : Option (Stmt Unit)} {condition increment : Option (Expr Unit)}
    {body : Stmt Unit} {m : Nat} (hm : 1 ≤ m) (hinitial : ∀ s ∈ initial, s.height 0 ≤ m)
    (hcondition : ∀ e ∈ condition, e.height 0 ≤ m) (hincrement : ∀ e ∈ increment, e.height 0 ≤ m)
    (hbody : body.height 0 ≤ m) : (forLoop initial condition increment body).height 0 ≤ m + 4 := by
  have hcondition : (condition.getD (.literal (.bool true))).height 0 ≤ m := by
    cases condition with
    | none => exact hm
    | some e => exact hcondition e rfl
  cases initial with
  | none =>
    cases increment with
    | none =>
      simp only [forLoop, Stmt.height]
      omega
    | some e =>
      have := hincrement e rfl
      simp only [forLoop, Stmt.height, Stmt.heightAll]
      omega
  | some s =>
    have := hinitial s rfl
    cases increment with
    | none =>
      simp only [forLoop, Stmt.height, Stmt.heightAll]
      omega
    | some e =>
      have := hincrement e rfl
      simp only [forLoop, Stmt.height, Stmt.heightAll]
      omega

theorem low_forStatement (h : rules.Low) (hd : d < maxNesting) :
    (forStatement rules).YieldsAt (d + 1) (Stmt.Low d) := by
  have hexpression : (expressionStatement rules).YieldsAt (d + 1) (Stmt.LowDeclaration (d + 1)) :=
    (low_expressionStatement h).imp fun s hs => by
      unfold Stmt.LowDeclaration Stmt.Low
      omega
  unfold forStatement
  refine bind (consume _ _) fun _ _ => bind peek fun t _ => ?_
  extract_lets clauses
  have hclauses : ∀ initial, (∀ s ∈ initial, Stmt.LowDeclaration (d + 1) s) →
      (clauses initial).YieldsAt (d + 1) (Stmt.Low d) := by
    intro initial hinitial
    refine unlessAt (h.expression (d + 1)) fun condition hcondition => bind (consume _ _) fun _ _ => ?_
    refine unlessAt (h.expression (d + 1)) fun increment hincrement => bind (consume _ _) fun _ _ => ?_
    refine bind (h.statement (d + 1)) fun body hbody => pure ?_
    have hall : (forLoop initial condition increment body).height 0 ≤
        max 1 (16 * maxNesting - 16 * (d + 1)) + 4 := by
      refine height_forLoop (Nat.le_max_left _ _) (fun s hs => ?_) (fun e he => ?_)
        (fun e he => ?_) ?_
      · have := hinitial s hs
        unfold Stmt.LowDeclaration Stmt.Low at this
        omega
      · have := hcondition e he
        unfold Expr.Low at this
        omega
      · have := hincrement e he
        unfold Expr.Low at this
        omega
      · unfold Stmt.Low at hbody
        omega
    unfold Stmt.Low
    omega
  split
  · exact bind advance fun _ _ => bind (pure (by rintro s ⟨⟩)) hclauses
  · exact bind advance fun _ _ => bind (optional (low_varDeclaration h)) hclauses
  · exact bind (optional hexpression) hclauses

theorem low_returnStatement (h : rules.Low) (hd : d < maxNesting) (keyword : Mark) :
    (returnStatement rules keyword).YieldsAt (d + 1) (Stmt.Low d) := by
  unfold returnStatement
  refine unlessAt (h.expression (d + 1)) fun value hvalue => bind (consume _ _) fun _ _ => pure ?_
  cases value with
  | none =>
    simp only [Stmt.Low, Stmt.height]
    omega
  | some e =>
    have := hvalue e rfl
    unfold Expr.Low at this
    simp only [Stmt.Low, Stmt.height]
    omega

theorem low_statement (h : rules.Low) : (statement rules).YieldsAt d (Stmt.Low d) := by
  unfold statement
  refine nested fun hd => bind peek fun t _ => ?_
  split
  · exact bind advance fun _ _ => low_printStatement h
  · exact bind advance fun _ _ => low_blockStatement h hd
  · exact bind advance fun _ _ => low_ifStatement h
  · exact bind advance fun _ _ => low_whileStatement h
  · exact bind advance fun _ _ => low_forStatement h hd
  · exact bind advance fun _ _ => low_returnStatement h hd t.mark
  · refine bind advance fun _ _ => bind (consume _ _) fun _ _ => pure ?_
    simp only [Stmt.Low, Stmt.height]
    omega
  · refine (low_expressionStatement h).imp fun s hs => ?_
    unfold Stmt.Low
    omega

theorem low_declaration (h : rules.Low) :
    (declaration rules).YieldsAt d fun a => ∀ s ∈ a, s.LowDeclaration d := by
  have hstatement : rules.statement.YieldsAt d (Stmt.LowDeclaration d) :=
    (h.statement d).imp fun s hs => .inr hs
  unfold declaration
  refine recovering (bind peek fun t _ => ?_)
  split
  · exact bind advance fun _ _ => low_classDeclaration h
  · exact bind advance fun _ _ => low_varDeclaration h
  · exact bind advance fun _ _ => low_importDeclaration
  · refine bind (checkSecond _) fun named _ => ?_
    split
    · refine bind advance fun _ _ => bind (low_functionDeclaration h .function)
        fun found hfound => pure ?_
      obtain ⟨name, params, body⟩ := found
      have := Stmt.low_heightAll hfound
      simp only [Function.body, Stmt.LowDeclaration, Stmt.Low, Stmt.height, Function.height] at this ⊢
      omega
    · exact hstatement
  · exact hstatement

theorem low_program (h : rules.Low) :
    (program rules).YieldsAt d fun program => ∀ s ∈ program, s.LowDeclaration d := by
  rw [program_eq]
  refine bind (P := fun program => ∀ s ∈ program, s.LowDeclaration d) ?_ fun program hprogram =>
    pure fun s hs => hprogram s (List.mem_reverse.mp hs)
  refine many (List.forall_mem_nil _) fun body hbody => bind atEnd fun ended _ => ?_
  split
  · exact pure (by rintro b ⟨⟩)
  · exact low_declarationRound h hbody

end Grammar

theorem Rules.low_upTo (n : Nat) : (Rules.upTo n).Low := by
  induction n with
  | zero => constructor <;> exact fun _ _ _ => .exhausted
  | succ n ih =>
    exact
      { declaration := fun _ => Grammar.low_declaration ih
        statement := fun _ => Grammar.low_statement ih
        expression := fun _ => Grammar.low_expression ih
        assignment := fun _ => Grammar.low_assignment ih
        unary := fun _ => Grammar.low_unary ih }

/-- Whatever the tokens, the statements read from them are low. -/
theorem Parsed.height_le (tokens : List Token) :
    ∀ s ∈ (Parsed.ofTokens tokens).program, s.height 0 ≤ 16 * maxNesting := by
  have hprogram : ∀ rest stop,
      (Grammar.program (.upTo (Rules.depthFor rest.length)) { rest, stop }).Stays 0
        fun program => ∀ s ∈ program, s.LowDeclaration 0 :=
    fun rest stop => Grammar.low_program (Rules.low_upTo _) _ rfl
  unfold Parsed.ofTokens
  have h := hprogram (Token.untilEnd tokens).1 (Token.untilEnd tokens).2
  dsimp only
  generalize Grammar.program _ _ = o at h ⊢
  cases h with
  | ok _ hlow =>
    intro s hs
    have := hlow s hs
    unfold Stmt.LowDeclaration Stmt.Low at this
    have : 0 < maxNesting := by decide
    omega
  | bail _ => exact List.forall_mem_nil _
  | abort _ => exact List.forall_mem_nil _
  | exhausted => exact List.forall_mem_nil _

/-- The statements of any tokens are bounded in height, if what continues a chain and the bodies of
declared functions and classes add no level. Where the grammar would derive a higher statement, with
whatever nesting, the parser keeps none and reports one problem. -/
theorem Parsed.height_ofTokens (tokens : List Token) :
    (∀ s ∈ (Parsed.ofTokens tokens).program, s.height 0 ≤ 16 * maxNesting) ∧
      ∀ n ss, Grammar.Derives n false .declarations (Token.untilEnd tokens).1 (.stmts ss) →
        (∃ s ∈ ss, 16 * maxNesting < s.height 0) →
          ∃ d, Parsed.ofTokens tokens = ⟨[], [d]⟩ ∧ d.problem.message = "Too much nesting." := by
  refine ⟨Parsed.height_le tokens, fun n ss h hhigh => ?_⟩
  rw [← Parsed.ofTokens_cut, Token.cut_eq]
  rcases Parsed.ofTokens_of_derives_room h (Token.untilEnd_kind tokens) with heq | ⟨-, t, heq⟩
  · -- a statement that high cannot have been parsed
    obtain ⟨s, hs, hhigh⟩ := hhigh
    have hle := Parsed.height_le ((Token.untilEnd tokens).1 ++ [(Token.untilEnd tokens).2]) s
    rw [heq] at hle
    exact absurd (hle hs) (Nat.not_le.mpr hhigh)
  · exact ⟨_, heq, rfl⟩

/-! ### Two families of statements -/

namespace Grammar

/-- A token on the first line. -/
def tokenOf (kind : TokenKind) : Token := { kind, lexeme := [], line := 1 }

/-- A sum as a program. -/
theorem Derives.sum_program {n : Nat} {ts : List Token} {e : Expr Unit}
    (h : Derives n false (.chain .sum) ts (.expr e)) :
    Derives (n + 2) false .declarations (ts ++ [tokenOf .semicolon]) (.stmts [.expression e]) := by
  have hdisjunction : Derives n false (.chain .disjunction) ts (.expr e) :=
    .single .disjunction (.single .conjunction (.single .equality (.single .comparison h)))
  have hexpression : Derives (n + 1) false .expression ts (.expr e) :=
    .lone (.unassigned (.disjunction hdisjunction))
  exact .declaration .noDeclarations (.statement (.expression (.simple hexpression rfl)))

/-- `nil` and so many times `+ nil`. -/
def sumTokens : Nat → List Token
  | 0 => [tokenOf .nilKw]
  | m + 1 => sumTokens m ++ [tokenOf .plus, tokenOf .nilKw]

/-- The tree of such a sum. -/
def sumExpr : Nat → Expr Unit
  | 0 => .literal .nil
  | m + 1 => .binary .plus (tokenOf .plus).mark (sumExpr m) (.literal .nil)

theorem derives_sum (n m : Nat) :
    Derives (n + 1) false (.chain .sum) (sumTokens m) (.expr (sumExpr m)) := by
  have hnil : Derives (n + 1) false (.chain .product) [tokenOf .nilKw] (.expr (.literal .nil)) :=
    .single .product (.operand (.callee (.nilLit rfl)))
  induction m with
  | zero => exact .single .sum hnil
  | succ m ih => exact .binary ih rfl rfl hnil

theorem height_sumExpr (m : Nat) : m < (sumExpr m).height 1 := by
  induction m with
  | zero => exact Nat.zero_lt_one
  | succ m ih =>
    simp only [sumExpr, Expr.height]
    omega

/-- So many times `-` and `nil`. -/
def negationTokens (m : Nat) : List Token := List.replicate m (tokenOf .minus) ++ [tokenOf .nilKw]

/-- The tree of such a negation. -/
def negationExpr : Nat → Expr Unit
  | 0 => .literal .nil
  | m + 1 => .unary .negate (tokenOf .minus).mark (negationExpr m)

theorem derives_negation (m : Nat) :
    Derives (m + 1) false (.chain .sum) (negationTokens m) (.expr (negationExpr m)) := by
  have h : Derives (m + 1) false .unary (negationTokens m) (.expr (negationExpr m)) := by
    induction m with
    | zero => exact .operand (.callee (.nilLit rfl))
    | succ m ih => exact .unary rfl ih
  exact .single .sum (.single .product h)

theorem height_negationExpr (m : Nat) : (negationExpr m).height 0 = m + 1 := by
  induction m with
  | zero => rfl
  | succ m ih => simp only [negationExpr, Expr.height, ih]

end Grammar

/-- A negation of a negation, as many times as the bound says, is too much. -/
theorem Parsed.height_ofTokens_negation :
    16 * maxNesting < (Stmt.expression (Grammar.negationExpr (16 * maxNesting))).height 0 ∧
      ∃ d, Parsed.ofTokens (Grammar.negationTokens (16 * maxNesting) ++ [Grammar.tokenOf .semicolon]) =
        ⟨[], [d]⟩ ∧ d.problem.message = "Too much nesting." := by
  have hhigh : 16 * maxNesting <
      (Stmt.expression (Grammar.negationExpr (16 * maxNesting))).height 0 := by
    rw [Stmt.height, Grammar.height_negationExpr]
    omega
  have hderives := (Grammar.derives_negation (16 * maxNesting)).sum_program
  have hends := Token.untilEnd_of_kind_ne_eof hderives.kind_ne_eof
  exact ⟨hhigh, (Parsed.height_ofTokens _).2 _ _ (hends.symm ▸ hderives)
    ⟨_, List.mem_singleton_self _, hhigh⟩⟩

/-- The height of a tree has no bound: a sum does not count as nesting, and each of its operators
stands one level above the one before. -/
theorem Parsed.exists_higher (m : Nat) :
    ∃ tokens s, Parsed.ofTokens tokens = ⟨[s], []⟩ ∧ m < s.height 1 := by
  have hderives := (Grammar.derives_sum 1021 m).sum_program
  have hstop : (Grammar.tokenOf .eof).kind = .eof := rfl
  exact ⟨_, _, Parsed.ofTokens_of_derives hderives hstop,
    Nat.lt_succ_of_lt (Grammar.height_sumExpr m)⟩

/-- The tree of a sum is higher than the bound. -/
theorem Parsed.height_ofTokens_sum :
    ∃ tokens s, Parsed.ofTokens tokens = ⟨[s], []⟩ ∧ 16 * maxNesting < s.height 1 :=
  Parsed.exists_higher (16 * maxNesting)

end Lox
