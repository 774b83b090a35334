import Lox.Proofs.Tree.Tame
import Lox.Proofs.Scope.Accepted

/-!
# Parsed programs are tame

The grammar lets a condition govern statements only, never declarations. So every tree that a rule
yields is tame, whether or not problems have been reported on the way.
-/

namespace Lox

variable {α β : Type}

/-- Whatever a rule yields has a property. -/
def Parse.Yields (p : Parse α) (P : α → Prop) : Prop := ∀ c a c', p c = .ok a c' → P a

namespace Parse.Yields

variable {p : Parse α} {f : α → Parse β} {P : α → Prop} {Q : β → Prop}

theorem pure {a : α} (h : P a) : (Pure.pure a : Parse α).Yields P := by
  intro c a' c' heq
  cases heq
  exact h

theorem imp (hp : p.Yields P) {P' : α → Prop} (h : ∀ a, P a → P' a) : p.Yields P' :=
  fun c a c' heq => h a (hp c a c' heq)

theorem fail (what : Expected) : (Parse.fail what : Parse α).Yields P := by
  intro c a c' heq
  cases heq

theorem bind (hp : p.Yields P) (hf : ∀ a, P a → (f a).Yields Q) : (p >>= f).Yields Q := by
  intro c b c' heq
  change Parse.bind p f c = _ at heq
  unfold Parse.bind at heq
  cases hpc : p c with
  | ok a next =>
    rw [hpc] at heq
    exact hf a (hp c a next hpc) next b c' heq
  | _ =>
    rw [hpc] at heq
    cases heq

/-- What an earlier step yields need not matter. -/
theorem after (hf : ∀ a, (f a).Yields Q) : (p >>= f).Yields Q :=
  bind (P := fun _ => True) (fun _ _ _ _ => trivial) fun a _ => hf a

theorem optional (hp : p.Yields P) : (some <$> p).Yields fun a => ∀ b ∈ a, P b := by
  refine hp.bind fun a ha => .pure ?_
  rintro b ⟨⟩
  exact ha

/-- A clause that is left out before a token of the given kind. -/
theorem unlessAt {kind : TokenKind} {rest : Option α → Parse β} (hp : p.Yields P)
    (hrest : ∀ a, (∀ b ∈ a, P b) → (rest a).Yields Q) :
    (Parse.check kind >>= fun present =>
      if present then Pure.pure none >>= rest else some <$> p >>= rest).Yields Q := by
  refine after fun present => ?_
  split
  · refine bind (.pure ?_) hrest
    rintro b ⟨⟩
  · exact bind (optional hp) hrest

theorem nested (hp : p.Yields P) : (Parse.nested p).Yields P := by
  intro c a c' heq
  unfold Parse.nested at heq
  split at heq
  · cases heq
  · split at heq
    · next hpc =>
      cases heq
      exact hp _ _ _ hpc
    · cases heq
    · cases heq
    · cases heq

theorem within (grouped : Bool) (hp : p.Yields P) : (Parse.within grouped p).Yields P := by
  intro c a c' heq
  unfold Parse.within at heq
  split at heq
  · next hpc =>
    cases heq
    exact hp _ _ _ hpc
  · cases heq
  · cases heq
  · cases heq

theorem recovering (hp : p.Yields P) : (Parse.recovering p).Yields fun a => ∀ b ∈ a, P b := by
  intro c a c' heq
  unfold Parse.recovering at heq
  split at heq
  · next hpc =>
    cases heq
    intro b hb
    cases hb
    exact hp _ _ _ hpc
  · cases heq
    intro b hb
    cases hb
  · cases heq
  · cases heq

theorem iterate {round : α → Parse (Option α)}
    (hround : ∀ a, P a → (round a).Yields fun next => ∀ b ∈ next, P b) (budget : List Token)
    {a : α} (ha : P a) : (Parse.iterate round budget a).Yields P := by
  intro c b c' heq
  unfold Parse.iterate at heq
  cases hr : round a c with
  | ok next k =>
    rw [hr] at heq
    cases next with
    | none =>
      cases heq
      exact ha
    | some a' =>
      cases budget with
      | nil => cases heq
      | cons t budget => exact iterate hround budget (hround a ha c _ k hr a' rfl) k b c' heq
  | _ =>
    rw [hr] at heq
    cases heq

/-- A property that every round keeps holds of what a repetition yields. -/
theorem many {round : α → Parse (Option α)} {a : α} (ha : P a)
    (hround : ∀ a, P a → (round a).Yields fun next => ∀ b ∈ next, P b) :
    (Parse.many round a).Yields P :=
  fun c => iterate hround c.rest ha c

end Parse.Yields

/-- Every tree that the rules yield is tame, and statements declare nothing. -/
structure Rules.Tame (rules : Rules) : Prop where
  declaration : rules.declaration.Yields fun a => ∀ s ∈ a, s.Tame
  statement : rules.statement.Yields fun s => s.Tame ∧ s.declares? = none
  expression : rules.expression.Yields Expr.Tame
  assignment : rules.assignment.Yields Expr.Tame
  unary : rules.unary.Yields Expr.Tame

namespace Grammar

open Parse.Yields

variable {rules : Rules}

/-! ### Expressions -/

/-- One more declaration, unless recovery has left nothing of it. -/
theorem tame_nextDeclaration (h : rules.Tame) {body : List (Stmt Unit)}
    (hbody : ∀ s ∈ body, s.Tame) :
    ((do
      match ← rules.declaration with
      | some s => pure (some (s :: body))
      | none => pure (some body)) : Parse (Option (List (Stmt Unit)))).Yields
        fun next => ∀ b ∈ next, ∀ s ∈ b, Stmt.Tame s := by
  refine bind h.declaration fun found hfound => ?_
  cases found with
  | none =>
    refine .pure ?_
    rintro b ⟨⟩
    exact hbody
  | some s =>
    refine .pure ?_
    rintro b ⟨⟩
    exact List.forall_mem_cons.mpr ⟨hfound s rfl, hbody⟩

theorem tameAll_reverse {body : List (Stmt Unit)} (h : ∀ s ∈ body, s.Tame) :
    Stmt.TameAll body.reverse := by
  rw [Stmt.tameAll_iff]
  intro s hs
  exact h s (List.mem_reverse.mp hs)

theorem tame_block (h : rules.Tame) : (block rules).Yields Stmt.TameAll := by
  unfold block
  refine bind (P := fun body => ∀ s ∈ body, Stmt.Tame s) ?_ fun body hbody =>
    after fun _ => .pure (tameAll_reverse hbody)
  refine many (List.forall_mem_nil _) fun body hbody => after fun ended => after fun closed => ?_
  split
  · exact .pure (by rintro b ⟨⟩)
  · exact tame_nextDeclaration h hbody

theorem tame_functionRest (h : rules.Tame) (kind : FunctionKind) :
    (functionRest rules kind).Yields Function.Tame := by
  unfold functionRest
  refine after fun params => after fun _ => after fun _ => ?_
  exact bind ((tame_block h).within false) fun body hbody => .pure hbody

theorem tame_primary (h : rules.Tame) : (primary rules).Yields Expr.Tame := by
  unfold primary
  refine after fun t => ?_
  split
  case h_8 =>
    refine after fun _ => after fun _ => ?_
    exact bind (tame_functionRest h .function) fun fn hfn => .pure hfn
  case h_10 =>
    refine after fun _ => within true ?_
    exact bind h.expression fun inner hinner => after fun _ => .pure hinner
  case h_6 => exact after fun _ => after fun _ => after fun _ => .pure trivial
  case h_11 => exact fail _
  case h_12 => exact fail _
  all_goals exact after fun _ => .pure trivial

theorem tame_arguments (h : rules.Tame) : (arguments rules).Yields Expr.TameAll := by
  unfold arguments
  refine after fun closed => ?_
  split
  · exact .pure trivial
  · refine bind h.expression fun first hfirst => ?_
    refine bind (P := fun args => ∀ e ∈ args, Expr.Tame e) ?_ fun args hargs => .pure ?_
    · refine many (List.forall_mem_singleton.mpr hfirst) fun args hargs => after fun comma => ?_
      cases comma with
      | none => exact .pure (by rintro b ⟨⟩)
      | some _ =>
        have hargument : ∀ u : Unit, ((do
            let arg ← rules.expression
            pure (some (arg :: args))) : Parse (Option (List (Expr Unit)))).Yields
              fun next => ∀ b ∈ next, ∀ e ∈ b, Expr.Tame e := by
          intro _
          refine bind h.expression fun arg harg => .pure ?_
          rintro b ⟨⟩
          exact List.forall_mem_cons.mpr ⟨harg, hargs⟩
        dsimp only
        split
        · exact after fun _ => after hargument
        · exact hargument ()
    · rw [Expr.tameAll_iff]
      intro e he
      exact hargs e (List.mem_reverse.mp he)

theorem tame_callRest (h : rules.Tame) {callee : Expr Unit} (hcallee : callee.Tame) :
    (callRest rules callee).Yields Expr.Tame := by
  unfold callRest
  refine within true (bind (tame_arguments h) fun args hargs => after fun paren => ?_)
  exact .pure ⟨hcallee, hargs⟩

theorem tame_call (h : rules.Tame) : (call rules).Yields Expr.Tame := by
  unfold call
  refine bind (tame_primary h) fun first hfirst => many hfirst fun e he => after fun t => ?_
  split
  · refine after fun _ => bind (tame_callRest h he) fun called hcalled => .pure ?_
    rintro b ⟨⟩
    exact hcalled
  · refine after fun _ => after fun property => .pure ?_
    rintro b ⟨⟩
    exact he
  · exact .pure (by rintro b ⟨⟩)

theorem tame_unary (h : rules.Tame) : (unary rules).Yields Expr.Tame := by
  unfold unary
  refine nested (after fun t => ?_)
  split
  · exact after fun _ => bind h.unary fun operand hoperand => .pure hoperand
  · exact after fun _ => bind h.unary fun operand hoperand => .pure hoperand
  · exact tame_call h

/-- The operators of a level join tame operands to a tame expression. -/
def TameJoins (joins : Joins) : Prop :=
  ∀ t join, joins t = some join → ∀ left right : Expr Unit, left.Tame → right.Tame →
    (join left right).Tame

theorem tame_chain {operand : Parse (Expr Unit)} {joins : Joins}
    (hoperand : operand.Yields Expr.Tame) (hjoins : TameJoins joins) :
    (chain operand joins).Yields Expr.Tame := by
  unfold chain
  refine bind hoperand fun first hfirst => many hfirst fun left hleft => after fun t => ?_
  cases hjoin : joins t with
  | none => exact .pure (by rintro b ⟨⟩)
  | some join =>
    refine after fun _ => bind hoperand fun right hright => .pure ?_
    rintro b ⟨⟩
    exact hjoins t join hjoin left right hleft hright

theorem Level.tameJoins (ℓ : Level) : TameJoins ℓ.joins := by
  intro t join h left right hleft hright
  rcases Level.joins_eq_some.mp h with ⟨op, -, -, rfl⟩ | ⟨op, -, -, rfl⟩
  · exact ⟨hleft, hright⟩
  · exact ⟨hleft, hright⟩

theorem tame_disjunction (h : rules.Tame) : (disjunction rules).Yields Expr.Tame :=
  Level.rule_of_chain (P := fun p => p.Yields Expr.Tame) h.unary
    (fun _ ℓ hoperand => tame_chain hoperand ℓ.tameJoins) .disjunction

theorem tame_conditional (h : rules.Tame) : (conditional rules).Yields Expr.Tame := by
  unfold conditional
  refine bind (tame_disjunction h) fun condition hcondition => after fun question => ?_
  cases question with
  | none => exact .pure hcondition
  | some _ =>
    refine bind h.expression fun yes hyes => after fun _ => ?_
    exact bind h.expression fun no hno => .pure ⟨hcondition, hyes, hno⟩

theorem tame_assignment (h : rules.Tame) : (assignment rules).Yields Expr.Tame := by
  unfold assignment
  refine nested (bind (tame_conditional h) fun target htarget => after fun equals => ?_)
  cases equals with
  | none => exact .pure htarget
  | some equals =>
    refine bind h.assignment fun value hvalue => ?_
    cases target with
    | name mark ref => exact .pure hvalue
    | get object property => exact .pure ⟨htarget, hvalue⟩
    | _ => exact after fun _ => .pure htarget

theorem tame_expression (h : rules.Tame) : (expression rules).Yields Expr.Tame := by
  unfold expression
  refine bind h.assignment fun first hfirst => many hfirst fun left hleft => after fun grouped => ?_
  split
  · exact .pure (by rintro b ⟨⟩)
  · refine after fun comma => ?_
    cases comma with
    | none => exact .pure (by rintro b ⟨⟩)
    | some comma =>
      refine bind h.assignment fun right hright => .pure ?_
      rintro b ⟨⟩
      exact ⟨hleft, hright⟩

/-! ### Statements -/

theorem tame_functionDeclaration (h : rules.Tame) (kind : FunctionKind) :
    (functionDeclaration rules kind).Yields fun found => found.2.Tame := by
  unfold functionDeclaration
  refine after fun name => after fun _ => ?_
  exact bind (tame_functionRest h kind) fun fn hfn => .pure hfn

theorem tame_method (h : rules.Tame) : (method rules).Yields fun m => m.fn.Tame := by
  unfold method
  refine after fun static => ?_
  exact bind (tame_functionDeclaration h _) fun found hfound => .pure hfound

theorem tame_methods (h : rules.Tame) :
    (Parse.many (fun methods => do
      if (← Parse.atEnd) || (← Parse.check .rightBrace) then pure none
      else
        let m ← method rules
        pure (some (m :: methods))) []).Yields fun methods => Method.TameAll methods.reverse := by
  refine (many (P := fun methods => ∀ m ∈ methods, Function.Tame (Method.fn m))
    (List.forall_mem_nil _) fun methods hmethods => ?_).imp fun methods hmethods => ?_
  · refine after fun ended => after fun closed => ?_
    split
    · exact .pure (by rintro b ⟨⟩)
    · refine bind (tame_method h) fun m hm => .pure ?_
      rintro b ⟨⟩
      exact List.forall_mem_cons.mpr ⟨hm, hmethods⟩
  · rw [Method.tameAll_iff]
    intro m hm
    exact hmethods m (List.mem_reverse.mp hm)

theorem tame_classDeclaration (h : rules.Tame) : (classDeclaration rules).Yields Stmt.Tame := by
  unfold classDeclaration
  refine after fun name => after fun less => ?_
  cases less with
  | none =>
    refine after fun superclass => after fun _ => ?_
    exact bind (tame_methods h) fun methods hmethods => after fun _ => .pure hmethods
  | some _ =>
    refine after fun super => after fun superclass => after fun _ => ?_
    exact bind (tame_methods h) fun methods hmethods => after fun _ => .pure hmethods

theorem tame_varDeclaration (h : rules.Tame) : (varDeclaration rules).Yields Stmt.Tame := by
  unfold varDeclaration
  refine after fun name => after fun equals => ?_
  extract_lets rest
  have hrest : ∀ initial, (∀ e ∈ initial, Expr.Tame e) → (rest initial).Yields Stmt.Tame := by
    intro initial hinitial
    refine after fun _ => .pure ?_
    cases initial with
    | none => trivial
    | some e => exact hinitial e rfl
  cases equals with
  | none => exact bind (.pure (by rintro e ⟨⟩)) hrest
  | some _ => exact bind (optional h.expression) hrest

theorem tame_importDeclaration : importDeclaration.Yields Stmt.Tame := by
  unfold importDeclaration
  refine after fun path => after fun as => ?_
  cases as with
  | none => exact after fun asName => after fun _ => .pure trivial
  | some _ => exact after fun name => after fun asName => after fun _ => .pure trivial

theorem tame_expressionStatement (h : rules.Tame) :
    (expressionStatement rules).Yields fun s => s.Tame ∧ s.declares? = none := by
  unfold expressionStatement
  exact bind h.expression fun e he => after fun _ => .pure ⟨he, rfl⟩

theorem tame_printStatement (h : rules.Tame) :
    (printStatement rules).Yields fun s => s.Tame ∧ s.declares? = none := by
  unfold printStatement
  exact bind h.expression fun e he => after fun _ => .pure ⟨he, rfl⟩

theorem tame_ifStatement (h : rules.Tame) :
    (ifStatement rules).Yields fun s => s.Tame ∧ s.declares? = none := by
  unfold ifStatement
  refine after fun _ => bind h.expression fun condition hcondition => after fun _ => ?_
  refine bind h.statement fun yes hyes => after fun otherwise => ?_
  cases otherwise with
  | none => exact .pure ⟨⟨hcondition, hyes⟩, rfl⟩
  | some _ => exact bind h.statement fun no hno => .pure ⟨⟨⟨hcondition, hyes⟩, hno⟩, rfl⟩

theorem tame_whileStatement (h : rules.Tame) :
    (whileStatement rules).Yields fun s => s.Tame ∧ s.declares? = none := by
  unfold whileStatement
  refine after fun _ => bind h.expression fun condition hcondition => after fun _ => ?_
  exact bind h.statement fun body hbody => .pure ⟨⟨hcondition, hbody⟩, rfl⟩

theorem tame_forLoop {initial : Option (Stmt Unit)} {condition increment : Option (Expr Unit)}
    {body : Stmt Unit} (hinitial : ∀ s ∈ initial, s.Tame) (hcondition : ∀ e ∈ condition, e.Tame)
    (hincrement : ∀ e ∈ increment, e.Tame) (hbody : body.Tame ∧ body.declares? = none) :
    (forLoop initial condition increment body).Tame ∧
      (forLoop initial condition increment body).declares? = none := by
  -- the increment stands in a block with the body, and a block declares nothing
  have hround : ∃ round : Stmt Unit, (round.Tame ∧ round.declares? = none) ∧
      ∀ initial, forLoop initial condition increment body =
        forLoop initial condition none round := by
    cases increment with
    | none => exact ⟨body, hbody, fun _ => rfl⟩
    | some e =>
      have hboth : (Stmt.block [body, .expression e]).Tame := ⟨hbody.1, hincrement e rfl, trivial⟩
      exact ⟨.block [body, .expression e], ⟨hboth, rfl⟩, fun _ => rfl⟩
  obtain ⟨round, hround, heq⟩ := hround
  have hloop : (Stmt.loop (condition.getD (.literal (.bool true))) round).Tame := by
    refine ⟨?_, hround⟩
    cases condition with
    | none => trivial
    | some e => exact hcondition e rfl
  rw [heq]
  cases initial with
  | none => exact ⟨hloop, rfl⟩
  | some s => exact ⟨⟨hinitial s rfl, hloop, trivial⟩, rfl⟩

theorem tame_forStatement (h : rules.Tame) :
    (forStatement rules).Yields fun s => s.Tame ∧ s.declares? = none := by
  have hexpression : (expressionStatement rules).Yields Stmt.Tame :=
    (tame_expressionStatement h).imp fun _ hs => hs.1
  unfold forStatement
  refine after fun _ => after fun t => ?_
  extract_lets clauses
  have hclauses : ∀ initial, (∀ s ∈ initial, Stmt.Tame s) →
      (clauses initial).Yields fun s => s.Tame ∧ s.declares? = none := by
    intro initial hinitial
    refine unlessAt h.expression fun condition hcondition => after fun _ => ?_
    refine unlessAt h.expression fun increment hincrement => after fun _ => ?_
    exact bind h.statement fun body hbody =>
      .pure (tame_forLoop hinitial hcondition hincrement hbody)
  split
  · exact after fun _ => bind (P := fun initial => ∀ s ∈ initial, Stmt.Tame s)
      (.pure (by rintro s ⟨⟩)) hclauses
  · exact after fun _ => bind (optional (tame_varDeclaration h)) hclauses
  · exact bind (optional hexpression) hclauses

theorem tame_returnStatement (h : rules.Tame) (keyword : Mark) :
    (returnStatement rules keyword).Yields fun s => s.Tame ∧ s.declares? = none := by
  unfold returnStatement
  refine unlessAt h.expression fun value hvalue => after fun _ => .pure ?_
  cases value with
  | none => exact ⟨trivial, rfl⟩
  | some e => exact ⟨hvalue e rfl, rfl⟩

theorem tame_statement (h : rules.Tame) :
    (statement rules).Yields fun s => s.Tame ∧ s.declares? = none := by
  unfold statement
  refine nested (after fun t => ?_)
  split
  · exact after fun _ => tame_printStatement h
  · exact after fun _ => bind (tame_block h) fun body hbody => .pure ⟨hbody, rfl⟩
  · exact after fun _ => tame_ifStatement h
  · exact after fun _ => tame_whileStatement h
  · exact after fun _ => tame_forStatement h
  · exact after fun _ => tame_returnStatement h t.mark
  · exact after fun _ => after fun _ => .pure ⟨trivial, rfl⟩
  · exact tame_expressionStatement h

theorem tame_declaration (h : rules.Tame) :
    (declaration rules).Yields fun a => ∀ s ∈ a, s.Tame := by
  have hstatement : rules.statement.Yields Stmt.Tame := fun c s c' heq => (h.statement c s c' heq).1
  unfold declaration
  refine recovering (after fun t => ?_)
  split
  · exact after fun _ => tame_classDeclaration h
  · exact after fun _ => tame_varDeclaration h
  · exact after fun _ => tame_importDeclaration
  · refine after fun named => ?_
    split
    · exact after fun _ => bind (tame_functionDeclaration h .function) fun found hfound =>
        .pure hfound
    · exact hstatement
  · exact hstatement

theorem tame_program (h : rules.Tame) : (program rules).Yields Stmt.TameAll := by
  unfold program
  refine bind (P := fun body => ∀ s ∈ body, Stmt.Tame s) ?_ fun body hbody =>
    .pure (tameAll_reverse hbody)
  refine many (List.forall_mem_nil _) fun body hbody => after fun ended => ?_
  split
  · exact .pure (by rintro b ⟨⟩)
  · exact tame_nextDeclaration h hbody

end Grammar

theorem Rules.tame_upTo (n : Nat) : (Rules.upTo n).Tame := by
  induction n with
  | zero => constructor <;> (intro c a c' heq; cases heq)
  | succ n ih =>
    exact
      { declaration := Grammar.tame_declaration ih
        statement := Grammar.tame_statement ih
        expression := Grammar.tame_expression ih
        assignment := Grammar.tame_assignment ih
        unary := Grammar.tame_unary ih }

/-- Whatever the tokens, the statements read from them are tame. -/
theorem Parsed.tame_ofTokens (tokens : List Token) :
    Stmt.TameAll (Parsed.ofTokens tokens).program := by
  unfold Parsed.ofTokens
  split
  next rest stop hsplit =>
    split
    · next program c heq => exact Grammar.tame_program (Rules.tame_upTo _) _ _ _ heq
    · trivial
    · trivial
    · trivial

/-- A program that has been read from tokens, whatever its addresses and whatever problems have been
reported. -/
def Program.IsParsed (program : Program Address) : Prop :=
  ∃ tokens, program.erase = (Parsed.ofTokens tokens).program

/-- A part of what has been read from tokens. -/
def Part.IsParsed (part : Part) : Prop :=
  ∃ tokens p, (Site.ofProgram (Parsed.ofTokens tokens).program).Visits ⟨p, part⟩

/-- An expression that stands in what has been read, whatever its addresses. -/
def Expr.IsParsed (e : Expr Address) : Prop := Part.IsParsed (.expr (e.map fun _ => ()))

/-- A statement that stands in what has been read, whatever its addresses. -/
def Stmt.IsParsed (s : Stmt Address) : Prop := Part.IsParsed (.stmt (s.map fun _ => ()))

theorem Program.IsParsed.tame {program : Program Address} (h : program.IsParsed) :
    Stmt.TameAll program := by
  obtain ⟨tokens, htokens⟩ := h
  rw [← Program.tame_erase, htokens]
  exact Parsed.tame_ofTokens tokens

theorem Part.IsParsed.tame {part : Part} (h : part.IsParsed) : part.Tame := by
  obtain ⟨tokens, p, hvisits⟩ := h
  exact hvisits.tame (Parsed.tame_ofTokens tokens)

theorem Expr.IsParsed.tame {e : Expr Address} (h : e.IsParsed) : e.Tame :=
  (e.tame_map _).mp (Part.IsParsed.tame h)

theorem Stmt.IsParsed.tame {s : Stmt Address} (h : s.IsParsed) : s.Tame :=
  (s.tame_map _).mp (Part.IsParsed.tame h)

/-- What is read from a source is read from its tokens. -/
theorem Program.IsParsed.of_ofSource {source : Text} {program : Program Address}
    (h : Program.ofSource source = .ok program) : program.IsParsed := by
  obtain ⟨tree, haccepted, rfl⟩ := Program.Accepted.of_ofSource h
  refine ⟨(Scan.ofSource source).tokens, ?_⟩
  rw [Resolved.erase_ofProgram, haccepted.parsed]

end Lox
