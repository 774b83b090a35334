import Lox.Grammar.Program

/-!
# Derivations

The grammar of the language, written as a relation between sequences of tokens and the trees they
stand for. A derivation accounts for every token of its sequence, in order, and for nothing else.

## Design notes

`Derives room grouped symbol tokens phrase` has two parameters that a plain grammar lacks. `grouped`
says whether a comma belongs to an enclosing list or group, and `room` is how many statements,
assignments and unary expressions may still be opened inside one another; each of these three takes
one off the room of its parts. Two rules look at the end of a phrase, so that each sequence has one
reading: the left side of a comma does not end in a choice, whose last part would have taken the
comma, and the part before an `else` does not end in an `if` without one.
-/

namespace Lox

/-- The kind of token that spells an operator. -/
def UnaryOp.spelling : UnaryOp → TokenKind
  | not => .bang
  | negate => .minus

/-- The kind of token that spells an operator. -/
def BinaryOp.spelling : BinaryOp → TokenKind
  | sequence => .comma
  | equal => .equalEqual
  | notEqual => .bangEqual
  | greater => .greater
  | greaterEqual => .greaterEqual
  | less => .less
  | lessEqual => .lessEqual
  | plus => .plus
  | minus => .minus
  | times => .star
  | divide => .slash
  | modulo => .percent

/-- The kind of token that spells an operator. -/
def LogicalOp.spelling : LogicalOp → TokenKind
  | and => .andKw
  | or => .orKw

namespace Grammar

/-- The levels of operators that join their operands from left to right, tightest first. -/
inductive Level where
  | product
  | sum
  | comparison
  | equality
  | conjunction
  | disjunction
  deriving DecidableEq, Repr

end Grammar

/-- The level of an operator; a comma stands above all levels. -/
def BinaryOp.level? : BinaryOp → Option Grammar.Level
  | sequence => none
  | equal => some .equality
  | notEqual => some .equality
  | greater => some .comparison
  | greaterEqual => some .comparison
  | less => some .comparison
  | lessEqual => some .comparison
  | plus => some .sum
  | minus => some .sum
  | times => some .product
  | divide => some .product
  | modulo => some .product

/-- The level of an operator. -/
def LogicalOp.level : LogicalOp → Grammar.Level
  | and => .conjunction
  | or => .disjunction

/-- Whether the last part of an expression is the last part of a choice: a comma after it would
have belonged to that part. -/
def Expr.endsOpen {ρ : Type} : Expr ρ → Bool
  | .conditional _ _ _ => true
  | .assign _ _ value => value.endsOpen
  | .set _ _ value => value.endsOpen
  | .binary .sequence _ _ right => right.endsOpen
  | _ => false

namespace Grammar

/-- What can be derived. -/
inductive Symbol where
  | primary
  | call
  | unary
  /-- Operands of one level with the operators between them. -/
  | chain (level : Level)
  | conditional
  | assignment
  | expression
  /-- One or more expressions with commas between them. -/
  | list
  /-- What stands between the parentheses of a call. -/
  | arguments
  /-- One or more names with commas between them. -/
  | names
  /-- What stands between the parentheses of a function. -/
  | parameters
  /-- A function after its opening parenthesis. -/
  | function
  /-- An expression that may be missing. -/
  | clause
  /-- A variable declaration after its keyword. -/
  | variable
  /-- An expression and a semicolon. -/
  | simple
  /-- The first part of a `for` statement with its semicolon. -/
  | initializer
  | methods
  /-- A statement; an open one ends in an `if` that could take an `else`. -/
  | statement (isOpen : Bool)
  | declaration
  | declarations
  deriving DecidableEq, Repr

/-- The number of a level, from the tightest on. -/
def Level.index : Level → Nat
  | product => 1
  | sum => 2
  | comparison => 3
  | equality => 4
  | conjunction => 5
  | disjunction => 6

/-- The symbol of the operands of a level. -/
def Level.operand : Level → Symbol
  | product => .unary
  | sum => .chain .product
  | comparison => .chain .sum
  | equality => .chain .comparison
  | conjunction => .chain .equality
  | disjunction => .chain .conjunction

/-- The trees that come out of a derivation. -/
inductive Phrase where
  | expr (e : Expr Unit)
  | exprs (es : List (Expr Unit))
  | clause (e : Option (Expr Unit))
  | names (names : List Mark)
  | fn (fn : Function Unit)
  | methods (methods : List (Method Unit))
  | stmt (s : Stmt Unit)
  | initial (s : Option (Stmt Unit))
  | stmts (ss : List (Stmt Unit))

/-- The rules of the grammar. -/
inductive Derives : (room : Nat) → (grouped : Bool) → Symbol → List Token → Phrase → Prop where
  | falseLit {n g t} : t.kind = .falseKw →
      Derives n g .primary [t] (.expr (.literal (.bool false)))
  | trueLit {n g t} : t.kind = .trueKw →
      Derives n g .primary [t] (.expr (.literal (.bool true)))
  | nilLit {n g t} : t.kind = .nilKw →
      Derives n g .primary [t] (.expr (.literal .nil))
  | numberLit {n g t} : t.kind = .number →
      Derives n g .primary [t] (.expr (.literal t.literal))
  | stringLit {n g t} : t.kind = .string →
      Derives n g .primary [t] (.expr (.literal t.literal))
  | name {n g t} : t.kind = .identifier →
      Derives n g .primary [t] (.expr (.name t.mark ()))
  | receiver {n g t} : t.kind = .thisKw →
      Derives n g .primary [t] (.expr (.receiver t.mark ()))
  | inherited {n g t dot m} : t.kind = .superKw → dot.kind = .dot → m.kind = .identifier →
      Derives n g .primary [t, dot, m] (.expr (.inherited t.mark m.mark ()))
  | group {n g l ts e r} : l.kind = .leftParen → Derives n true .expression ts (.expr e) →
      r.kind = .rightParen → Derives n g .primary (l :: (ts ++ [r])) (.expr (.group e))
  | anonymous {n g t l ts fn} : t.kind = .funKw → l.kind = .leftParen →
      Derives n g .function ts (.fn fn) →
      Derives n g .primary (t :: l :: ts) (.expr (.function t.mark fn))
  | callee {n g ts e} : Derives n g .primary ts (.expr e) → Derives n g .call ts (.expr e)
  | call {n g ts e l ts' es r} : Derives n g .call ts (.expr e) → l.kind = .leftParen →
      Derives n true .arguments ts' (.exprs es) → r.kind = .rightParen →
      Derives n g .call (ts ++ l :: (ts' ++ [r])) (.expr (.call e r.mark es))
  | property {n g ts e dot m} : Derives n g .call ts (.expr e) → dot.kind = .dot →
      m.kind = .identifier → Derives n g .call (ts ++ [dot, m]) (.expr (.get e m.mark))
  | operand {n g ts e} : Derives n g .call ts (.expr e) → Derives (n + 1) g .unary ts (.expr e)
  | unary {n g op t ts e} : t.kind = op.spelling → Derives n g .unary ts (.expr e) →
      Derives (n + 1) g .unary (t :: ts) (.expr (.unary op t.mark e))
  | single {n g ts e} (ℓ : Level) : Derives n g ℓ.operand ts (.expr e) →
      Derives n g (.chain ℓ) ts (.expr e)
  | binary {n g ℓ op ts l t ts' r} : Derives n g (.chain ℓ) ts (.expr l) → op.level? = some ℓ →
      t.kind = op.spelling → Derives n g ℓ.operand ts' (.expr r) →
      Derives n g (.chain ℓ) (ts ++ t :: ts') (.expr (.binary op t.mark l r))
  | logical {n g ℓ op ts l t ts' r} : Derives n g (.chain ℓ) ts (.expr l) → op.level = ℓ →
      t.kind = op.spelling → Derives n g ℓ.operand ts' (.expr r) →
      Derives n g (.chain ℓ) (ts ++ t :: ts') (.expr (.logical op t.mark l r))
  | disjunction {n g ts e} : Derives n g (.chain .disjunction) ts (.expr e) →
      Derives n g .conditional ts (.expr e)
  | conditional {n g ts c q ts₁ y colon ts₂ e} :
      Derives n g (.chain .disjunction) ts (.expr c) → q.kind = .question →
      Derives n g .expression ts₁ (.expr y) → colon.kind = .colon →
      Derives n g .expression ts₂ (.expr e) →
      Derives n g .conditional (ts ++ q :: (ts₁ ++ colon :: ts₂)) (.expr (.conditional c y e))
  | unassigned {n g ts e} : Derives n g .conditional ts (.expr e) →
      Derives (n + 1) g .assignment ts (.expr e)
  | assign {n g ts m t ts' v} : Derives n g .conditional ts (.expr (.name m ())) →
      t.kind = .equal → Derives n g .assignment ts' (.expr v) →
      Derives (n + 1) g .assignment (ts ++ t :: ts') (.expr (.assign m () v))
  | set {n g ts o m t ts' v} : Derives n g .conditional ts (.expr (.get o m)) →
      t.kind = .equal → Derives n g .assignment ts' (.expr v) →
      Derives (n + 1) g .assignment (ts ++ t :: ts') (.expr (.set o m v))
  | lone {n g ts e} : Derives n g .assignment ts (.expr e) → Derives n g .expression ts (.expr e)
  | sequence {n ts l t ts' r} : Derives n false .expression ts (.expr l) → l.endsOpen = false →
      t.kind = .comma → Derives n false .assignment ts' (.expr r) →
      Derives n false .expression (ts ++ t :: ts') (.expr (.binary .sequence t.mark l r))
  | firstItem {n g ts e} : Derives n g .expression ts (.expr e) → Derives n g .list ts (.exprs [e])
  | nextItem {n g ts es t ts' e} : Derives n g .list ts (.exprs es) → es.length < maxArguments →
      t.kind = .comma → Derives n g .expression ts' (.expr e) →
      Derives n g .list (ts ++ t :: ts') (.exprs (es ++ [e]))
  | noArguments {n g} : Derives n g .arguments [] (.exprs [])
  | arguments {n g ts es} : Derives n g .list ts (.exprs es) →
      Derives n g .arguments ts (.exprs es)
  | firstName {n g t} : t.kind = .identifier → Derives n g .names [t] (.names [t.mark])
  | nextName {n g ts ms t m} : Derives n g .names ts (.names ms) → ms.length < maxArguments →
      t.kind = .comma → m.kind = .identifier →
      Derives n g .names (ts ++ [t, m]) (.names (ms ++ [m.mark]))
  | noParameters {n g} : Derives n g .parameters [] (.names [])
  | parameters {n g ts ms} : Derives n g .names ts (.names ms) →
      Derives n g .parameters ts (.names ms)
  | function {n g ts ms r l ts' ss e} : Derives n g .parameters ts (.names ms) →
      r.kind = .rightParen → l.kind = .leftBrace → Derives n false .declarations ts' (.stmts ss) →
      e.kind = .rightBrace → Derives n g .function (ts ++ r :: l :: (ts' ++ [e])) (.fn (.mk ms ss))
  | noClause {n g} : Derives n g .clause [] (.clause none)
  | clause {n g ts e} : Derives n g .expression ts (.expr e) →
      Derives n g .clause ts (.clause (some e))
  | unset {n g m t} : m.kind = .identifier → t.kind = .semicolon →
      Derives n g .variable [m, t] (.stmt (.varDecl m.mark none))
  | initialized {n g m q ts e t} : m.kind = .identifier → q.kind = .equal →
      Derives n g .expression ts (.expr e) → t.kind = .semicolon →
      Derives n g .variable (m :: q :: (ts ++ [t])) (.stmt (.varDecl m.mark (some e)))
  | simple {n g ts e t} : Derives n g .expression ts (.expr e) → t.kind = .semicolon →
      Derives n g .simple (ts ++ [t]) (.stmt (.expression e))
  | noInitializer {n g t} : t.kind = .semicolon → Derives n g .initializer [t] (.initial none)
  | varInitializer {n g t ts s} : t.kind = .varKw → Derives n g .variable ts (.stmt s) →
      Derives n g .initializer (t :: ts) (.initial (some s))
  | initializer {n g ts s} : Derives n g .simple ts (.stmt s) →
      Derives n g .initializer ts (.initial (some s))
  | noMethods {n g} : Derives n g .methods [] (.methods [])
  | method {n g ts ms m l ts' fn} : Derives n g .methods ts (.methods ms) →
      m.kind = .identifier → l.kind = .leftParen → Derives n g .function ts' (.fn fn) →
      Derives n g .methods (ts ++ m :: l :: ts') (.methods (ms ++ [.mk false m.mark fn]))
  | staticMethod {n g ts ms t m l ts' fn} : Derives n g .methods ts (.methods ms) →
      t.kind = .classKw → m.kind = .identifier → l.kind = .leftParen →
      Derives n g .function ts' (.fn fn) →
      Derives n g .methods (ts ++ t :: m :: l :: ts') (.methods (ms ++ [.mk true m.mark fn]))
  | expression {n g ts s} : Derives n g .simple ts (.stmt s) →
      Derives (n + 1) g (.statement false) ts (.stmt s)
  | print {n g t ts e r} : t.kind = .printKw → Derives n g .expression ts (.expr e) →
      r.kind = .semicolon →
      Derives (n + 1) g (.statement false) (t :: (ts ++ [r])) (.stmt (.print e))
  | block {n g l ts ss r} : l.kind = .leftBrace → Derives n g .declarations ts (.stmts ss) →
      r.kind = .rightBrace →
      Derives (n + 1) g (.statement false) (l :: (ts ++ [r])) (.stmt (.block ss))
  | ifThen {n g o t l ts c r ts' y} : t.kind = .ifKw → l.kind = .leftParen →
      Derives n g .expression ts (.expr c) → r.kind = .rightParen →
      Derives n g (.statement o) ts' (.stmt y) →
      Derives (n + 1) g (.statement true) (t :: l :: (ts ++ r :: ts')) (.stmt (.branch c y none))
  | ifElse {n g o t l ts c r ts₁ y e ts₂ s} : t.kind = .ifKw → l.kind = .leftParen →
      Derives n g .expression ts (.expr c) → r.kind = .rightParen →
      Derives n g (.statement false) ts₁ (.stmt y) → e.kind = .elseKw →
      Derives n g (.statement o) ts₂ (.stmt s) →
      Derives (n + 1) g (.statement o) (t :: l :: (ts ++ r :: (ts₁ ++ e :: ts₂)))
        (.stmt (.branch c y (some s)))
  | whileLoop {n g o t l ts c r ts' b} : t.kind = .whileKw → l.kind = .leftParen →
      Derives n g .expression ts (.expr c) → r.kind = .rightParen →
      Derives n g (.statement o) ts' (.stmt b) →
      Derives (n + 1) g (.statement o) (t :: l :: (ts ++ r :: ts')) (.stmt (.loop c b))
  | forLoop {n g o t l ts₁ i ts₂ c sep ts₃ inc r ts₄ b} : t.kind = .forKw → l.kind = .leftParen →
      Derives n g .initializer ts₁ (.initial i) → Derives n g .clause ts₂ (.clause c) →
      sep.kind = .semicolon → Derives n g .clause ts₃ (.clause inc) → r.kind = .rightParen →
      Derives n g (.statement o) ts₄ (.stmt b) →
      Derives (n + 1) g (.statement o) (t :: l :: (ts₁ ++ (ts₂ ++ sep :: (ts₃ ++ r :: ts₄))))
        (.stmt (forLoop i c inc b))
  | ret {n g t ts e r} : t.kind = .returnKw → Derives n g .clause ts (.clause e) →
      r.kind = .semicolon →
      Derives (n + 1) g (.statement false) (t :: (ts ++ [r])) (.stmt (.ret t.mark e))
  | brk {n g t r} : t.kind = .breakKw → r.kind = .semicolon →
      Derives (n + 1) g (.statement false) [t, r] (.stmt (.brk t.mark))
  | statement {n g o ts s} : Derives n g (.statement o) ts (.stmt s) →
      Derives n g .declaration ts (.stmt s)
  | varDecl {n g t ts s} : t.kind = .varKw → Derives n g .variable ts (.stmt s) →
      Derives n g .declaration (t :: ts) (.stmt s)
  | funDecl {n g t m l ts fn} : t.kind = .funKw → m.kind = .identifier → l.kind = .leftParen →
      Derives n g .function ts (.fn fn) →
      Derives n g .declaration (t :: m :: l :: ts) (.stmt (.funDecl m.mark fn))
  | classDecl {n g t m l ts ms r} : t.kind = .classKw → m.kind = .identifier →
      l.kind = .leftBrace → Derives n g .methods ts (.methods ms) → r.kind = .rightBrace →
      Derives n g .declaration (t :: m :: l :: (ts ++ [r])) (.stmt (.classDecl m.mark none ms))
  | subclassDecl {n g t m less sup l ts ms r} : t.kind = .classKw → m.kind = .identifier →
      less.kind = .less → sup.kind = .identifier → l.kind = .leftBrace →
      Derives n g .methods ts (.methods ms) → r.kind = .rightBrace →
      Derives n g .declaration (t :: m :: less :: sup :: l :: (ts ++ [r]))
        (.stmt (.classDecl m.mark (some (sup.mark, ())) ms))
  | importDecl {n g t path r} : t.kind = .importKw → path.kind = .string → r.kind = .semicolon →
      Derives n g .declaration [t, path, r] (.stmt (.importDecl path none))
  | importAs {n g t path as m r} : t.kind = .importKw → path.kind = .string → as.kind = .asKw →
      m.kind = .identifier → r.kind = .semicolon →
      Derives n g .declaration [t, path, as, m, r] (.stmt (.importDecl path (some m.mark)))
  | noDeclarations {n g} : Derives n g .declarations [] (.stmts [])
  | declaration {n g ts ss ts' s} : Derives n g .declarations ts (.stmts ss) →
      Derives n g .declaration ts' (.stmt s) →
      Derives n g .declarations (ts ++ ts') (.stmts (ss ++ [s]))

/-- Whether only expressions that bind tighter than a choice are derived from a symbol. -/
def Symbol.IsTight : Symbol → Prop
  | primary => True
  | call => True
  | unary => True
  | chain _ => True
  | _ => False

theorem Level.operand_isTight (ℓ : Level) : ℓ.operand.IsTight := by
  cases ℓ <;> trivial

/-- What binds tighter than a choice does not end in one. -/
theorem Derives.endsOpen_eq_false {n : Nat} {g : Bool} {symbol : Symbol} {ts : List Token}
    {phrase : Phrase} (h : Derives n g symbol ts phrase) (hs : symbol.IsTight) {e : Expr Unit}
    (he : phrase = .expr e) : e.endsOpen = false := by
  induction h generalizing e with
  | callee _ ih => exact ih trivial he
  | operand _ ih => exact ih trivial he
  | single ℓ _ ih => exact ih ℓ.operand_isTight he
  | @binary _ _ _ op _ _ _ _ _ _ hop =>
    cases he
    cases op <;> simp_all [BinaryOp.level?, Expr.endsOpen]
  | _ => cases he <;> simp_all [Symbol.IsTight, Expr.endsOpen]

end Grammar

end Lox
