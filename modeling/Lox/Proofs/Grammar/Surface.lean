import Lox.Proofs.Grammar.Derivation

/-!
# Trees as they are written

Syntax trees with `for` statements in them, how they are written, and which of them are written so
that they can be read back.

## Design notes

A tree does not keep the text of its punctuation or the lines of its literals, so an `Item` says
only what the tree knows of a token. Everything is written for every choice of the rest.
-/

namespace Lox.Surface

/-! ### Trees -/

mutual

/-- An expression. -/
inductive Expr where
  | literal (value : Literal)
  | name (mark : Mark)
  | receiver (keyword : Mark)
  | inherited (keyword method : Mark)
  | group (inner : Expr)
  | function (keyword : Mark) (fn : Function)
  | call (callee : Expr) (paren : Mark) (arguments : List Expr)
  | get (object : Expr) (property : Mark)
  | unary (op : UnaryOp) (mark : Mark) (operand : Expr)
  | binary (op : BinaryOp) (mark : Mark) (left right : Expr)
  | logical (op : LogicalOp) (mark : Mark) (left right : Expr)
  | conditional (condition yes no : Expr)
  | assign (mark : Mark) (value : Expr)
  | set (object : Expr) (property : Mark) (value : Expr)

/-- The parameters and the body of a function. -/
inductive Function where
  | mk (params : List Mark) (body : List Stmt)

/-- A method of a class; a static one belongs to the class itself. -/
inductive Method where
  | mk (static : Bool) (name : Mark) (fn : Function)

/-- A statement or declaration. -/
inductive Stmt where
  | expression (e : Expr)
  | print (e : Expr)
  | varDecl (name : Mark) (initial : Option Expr)
  | block (body : List Stmt)
  | branch (condition : Expr) (yes : Stmt) (no : Option Stmt)
  | loop (condition : Expr) (body : Stmt)
  | forLoop (initial : Option Stmt) (condition increment : Option Expr) (body : Stmt)
  | ret (keyword : Mark) (value : Option Expr)
  | brk (keyword : Mark)
  | funDecl (name : Mark) (fn : Function)
  | classDecl (name : Mark) (superclass : Option Mark) (methods : List Method)
  | importDecl (path : Token) (asName : Option Mark)

end

/-! ### What a tree stands for -/

mutual

/-- The tree that an expression stands for. -/
@[simp] def Expr.tree : Expr → Lox.Expr Unit
  | .literal value => .literal value
  | .name mark => .name mark ()
  | .receiver keyword => .receiver keyword ()
  | .inherited keyword method => .inherited keyword method ()
  | .group inner => .group inner.tree
  | .function keyword fn => .function keyword fn.tree
  | .call callee paren arguments => .call callee.tree paren (Expr.trees arguments)
  | .get object property => .get object.tree property
  | .unary op mark operand => .unary op mark operand.tree
  | .binary op mark left right => .binary op mark left.tree right.tree
  | .logical op mark left right => .logical op mark left.tree right.tree
  | .conditional condition yes no => .conditional condition.tree yes.tree no.tree
  | .assign mark value => .assign mark () value.tree
  | .set object property value => .set object.tree property value.tree

/-- The trees that expressions stand for. -/
@[simp] def Expr.trees : List Expr → List (Lox.Expr Unit)
  | [] => []
  | e :: es => e.tree :: Expr.trees es

/-- The tree of an expression that may be missing. -/
@[simp] def Expr.tree? : Option Expr → Option (Lox.Expr Unit)
  | none => none
  | some e => some e.tree

/-- The function that a function stands for. -/
@[simp] def Function.tree : Function → Lox.Function Unit
  | .mk params body => .mk params (Stmt.trees body)

/-- The methods that methods stand for. -/
@[simp] def Method.trees : List Method → List (Lox.Method Unit)
  | [] => []
  | .mk static name fn :: methods => .mk static name fn.tree :: Method.trees methods

/-- The tree that a statement stands for. A `for` statement is a loop with its increment after the
body, in a block after its initializer. -/
@[simp] def Stmt.tree : Stmt → Lox.Stmt Unit
  | .expression e => .expression e.tree
  | .print e => .print e.tree
  | .varDecl name initial => .varDecl name (Expr.tree? initial)
  | .block body => .block (Stmt.trees body)
  | .branch condition yes no => .branch condition.tree yes.tree (Stmt.tree? no)
  | .loop condition body => .loop condition.tree body.tree
  | .forLoop none condition none body =>
    .loop ((Expr.tree? condition).getD (.literal (.bool true))) body.tree
  | .forLoop none condition (some e) body =>
    .loop ((Expr.tree? condition).getD (.literal (.bool true)))
      (.block [body.tree, .expression e.tree])
  | .forLoop (some s) condition none body =>
    .block [s.tree, .loop ((Expr.tree? condition).getD (.literal (.bool true))) body.tree]
  | .forLoop (some s) condition (some e) body =>
    .block [s.tree, .loop ((Expr.tree? condition).getD (.literal (.bool true)))
      (.block [body.tree, .expression e.tree])]
  | .ret keyword value => .ret keyword (Expr.tree? value)
  | .brk keyword => .brk keyword
  | .funDecl name fn => .funDecl name fn.tree
  | .classDecl name superclass methods =>
    .classDecl name (superclass.map (·, ())) (Method.trees methods)
  | .importDecl path asName => .importDecl path asName

/-- The tree of a statement that may be missing. -/
@[simp] def Stmt.tree? : Option Stmt → Option (Lox.Stmt Unit)
  | none => none
  | some s => some s.tree

/-- The trees that statements stand for. -/
@[simp] def Stmt.trees : List Stmt → List (Lox.Stmt Unit)
  | [] => []
  | s :: ss => s.tree :: Stmt.trees ss

end

/-! ### Writing -/

/-- One token to be written: what a tree knows of it. -/
inductive Item where
  /-- Any token of the given kind. -/
  | word (kind : TokenKind)
  /-- A token with the given text and line. -/
  | marked (kind : TokenKind) (mark : Mark)
  /-- A token that denotes the given value. -/
  | valued (kind : TokenKind) (value : Literal)
  /-- A token that is kept whole. -/
  | whole (token : Token)

/-- Whether a token is as an item asks. -/
def Item.Spelled : Item → Token → Prop
  | word kind, t => t.kind = kind
  | marked kind mark, t => t.kind = kind ∧ t.mark = mark
  | valued kind value, t => t.kind = kind ∧ t.literal = value
  | whole token, t => t = token

/-- The least token that is as an item asks. -/
def Item.token : Item → Token
  | word kind => { kind, lexeme := [], line := 0 }
  | marked kind mark => { kind, lexeme := mark.lexeme, line := mark.line }
  | valued kind value => { kind, lexeme := [], literal := value, line := 0 }
  | whole token => token

theorem Item.spelled_token (item : Item) : item.Spelled item.token := by
  cases item <;> simp [Spelled, token, Token.mark]

/-- How a literal is written: words for some, and a token that denotes the value for others. -/
def literalItem : Literal → Item
  | .nil => .word .nilKw
  | .bool true => .word .trueKw
  | .bool false => .word .falseKw
  | .number x => .valued .number (.number x)
  | .string t => .valued .string (.string t)

/-- Names with commas in front of them. -/
def moreNames : List Mark → List Item
  | [] => []
  | m :: ms => .word .comma :: .marked .identifier m :: moreNames ms

/-- Names with commas between them. -/
def names : List Mark → List Item
  | [] => []
  | m :: ms => .marked .identifier m :: moreNames ms

mutual

/-- How an expression is written. -/
@[simp] def Expr.items : Expr → List Item
  | .literal value => [literalItem value]
  | .name mark => [.marked .identifier mark]
  | .receiver keyword => [.marked .thisKw keyword]
  | .inherited keyword method =>
    [.marked .superKw keyword, .word .dot, .marked .identifier method]
  | .group inner => .word .leftParen :: (inner.items ++ [.word .rightParen])
  | .function keyword fn => .marked .funKw keyword :: .word .leftParen :: fn.items
  | .call callee paren [] => callee.items ++ .word .leftParen :: ([] ++ [.marked .rightParen paren])
  | .call callee paren (e :: es) => callee.items ++
      .word .leftParen :: ((e.items ++ Expr.moreItems es) ++ [.marked .rightParen paren])
  | .get object property => object.items ++ [.word .dot, .marked .identifier property]
  | .unary op mark operand => .marked op.spelling mark :: operand.items
  | .binary op mark left right => left.items ++ .marked op.spelling mark :: right.items
  | .logical op mark left right => left.items ++ .marked op.spelling mark :: right.items
  | .conditional condition yes no =>
    condition.items ++ .word .question :: (yes.items ++ .word .colon :: no.items)
  | .assign mark value => [.marked .identifier mark] ++ .word .equal :: value.items
  | .set object property value =>
    (object.items ++ [.word .dot, .marked .identifier property]) ++ .word .equal :: value.items

/-- Expressions with commas in front of them. -/
@[simp] def Expr.moreItems : List Expr → List Item
  | [] => []
  | e :: es => .word .comma :: (e.items ++ Expr.moreItems es)

/-- How an expression that may be missing is written. -/
@[simp] def Expr.clauseItems : Option Expr → List Item
  | none => []
  | some e => e.items

/-- How a function is written after its opening parenthesis. -/
@[simp] def Function.items : Function → List Item
  | .mk params body =>
    names params ++ .word .rightParen :: .word .leftBrace ::
      (Stmt.allItems body ++ [.word .rightBrace])

/-- How methods are written. -/
@[simp] def Method.allItems : List Method → List Item
  | [] => []
  | .mk false name fn :: methods =>
    (.marked .identifier name :: .word .leftParen :: fn.items) ++ Method.allItems methods
  | .mk true name fn :: methods =>
    (.word .classKw :: .marked .identifier name :: .word .leftParen :: fn.items) ++
      Method.allItems methods

/-- How a statement is written. -/
@[simp] def Stmt.items : Stmt → List Item
  | .expression e => e.items ++ [.word .semicolon]
  | .print e => .word .printKw :: (e.items ++ [.word .semicolon])
  | .varDecl name none => [.word .varKw, .marked .identifier name, .word .semicolon]
  | .varDecl name (some e) =>
    .word .varKw :: .marked .identifier name :: .word .equal :: (e.items ++ [.word .semicolon])
  | .block body => .word .leftBrace :: (Stmt.allItems body ++ [.word .rightBrace])
  | .branch condition yes none =>
    .word .ifKw :: .word .leftParen :: (condition.items ++ .word .rightParen :: yes.items)
  | .branch condition yes (some no) =>
    .word .ifKw :: .word .leftParen ::
      (condition.items ++ .word .rightParen :: (yes.items ++ .word .elseKw :: no.items))
  | .loop condition body =>
    .word .whileKw :: .word .leftParen :: (condition.items ++ .word .rightParen :: body.items)
  | .forLoop initial condition increment body =>
    .word .forKw :: .word .leftParen :: (Stmt.initialItems initial ++
      (Expr.clauseItems condition ++ .word .semicolon ::
        (Expr.clauseItems increment ++ .word .rightParen :: body.items)))
  | .ret keyword value =>
    .marked .returnKw keyword :: (Expr.clauseItems value ++ [.word .semicolon])
  | .brk keyword => [.marked .breakKw keyword, .word .semicolon]
  | .funDecl name fn => .word .funKw :: .marked .identifier name :: .word .leftParen :: fn.items
  | .classDecl name none methods =>
    .word .classKw :: .marked .identifier name :: .word .leftBrace ::
      (Method.allItems methods ++ [.word .rightBrace])
  | .classDecl name (some super) methods =>
    .word .classKw :: .marked .identifier name :: .word .less :: .marked .identifier super ::
      .word .leftBrace :: (Method.allItems methods ++ [.word .rightBrace])
  | .importDecl path none => [.word .importKw, .whole path, .word .semicolon]
  | .importDecl path (some name) =>
    [.word .importKw, .whole path, .word .asKw, .marked .identifier name, .word .semicolon]

/-- How the first part of a `for` statement is written, with its semicolon. -/
@[simp] def Stmt.initialItems : Option Stmt → List Item
  | none => [.word .semicolon]
  | some s => s.items

/-- How statements are written. -/
@[simp] def Stmt.allItems : List Stmt → List Item
  | [] => []
  | s :: ss => s.items ++ Stmt.allItems ss

end

/-! ### Canonical trees -/

/-- How loosely an expression binds, from `0` for primary expressions to `11` for sequences. -/
def Expr.rank : Expr → Nat
  | .literal _ | .name _ | .receiver _ | .inherited _ _ | .group _ | .function _ _ => 0
  | .call _ _ _ | .get _ _ => 1
  | .unary _ _ _ => 2
  | .binary op _ _ _ =>
    match op.level? with
    | some ℓ => ℓ.index + 2
    | none => 11
  | .logical op _ _ _ => op.level.index + 2
  | .conditional _ _ _ => 9
  | .assign _ _ | .set _ _ _ => 10

/-- Whether a statement may stand where a declaration may not. -/
def Stmt.isStatement : Stmt → Bool
  | .varDecl _ _ | .funDecl _ _ | .classDecl _ _ _ | .importDecl _ _ => false
  | _ => true

/-- Whether a statement may stand first in the parentheses of a `for` statement. -/
def Stmt.isInitial : Stmt → Bool
  | .varDecl _ _ | .expression _ => true
  | _ => false

/-- Whether a statement ends in an `if` without an `else`, which would take one that follows. -/
def Stmt.endsInIf : Stmt → Bool
  | .branch _ _ none => true
  | .branch _ _ (some no) => no.endsInIf
  | .loop _ body => body.endsInIf
  | .forLoop _ _ _ body => body.endsInIf
  | _ => false

mutual

/-- Whether every operand binds as tightly as its place asks, and no comma stands where it would
separate the items of a group. -/
@[simp] def Expr.canonical (grouped : Bool) : Expr → Bool
  | .literal _ | .name _ | .receiver _ | .inherited _ _ => true
  | .group inner => inner.canonical true
  | .function _ fn => fn.canonical
  | .call callee _ arguments =>
    callee.rank ≤ 1 && callee.canonical grouped && arguments.length ≤ maxArguments &&
      Expr.allCanonical arguments
  | .get object _ => object.rank ≤ 1 && object.canonical grouped
  | .unary _ _ operand => operand.rank ≤ 2 && operand.canonical grouped
  | .binary op _ left right =>
    left.canonical grouped && right.canonical grouped &&
      match op.level? with
      | some ℓ => left.rank ≤ ℓ.index + 2 && right.rank < ℓ.index + 2
      | none => !grouped && !left.tree.endsOpen && right.rank < 11
  | .logical op _ left right =>
    left.canonical grouped && right.canonical grouped && left.rank ≤ op.level.index + 2 &&
      right.rank < op.level.index + 2
  | .conditional condition yes no =>
    condition.rank ≤ 8 && condition.canonical grouped && yes.canonical grouped &&
      no.canonical grouped
  | .assign _ value => value.rank ≤ 10 && value.canonical grouped
  | .set object _ value =>
    object.rank ≤ 1 && object.canonical grouped && value.rank ≤ 10 && value.canonical grouped

/-- Whether all arguments of a call are canonical. -/
@[simp] def Expr.allCanonical : List Expr → Bool
  | [] => true
  | e :: es => e.canonical true && Expr.allCanonical es

/-- Whether an expression that may be missing is canonical. -/
@[simp] def Expr.clauseCanonical : Option Expr → Bool
  | none => true
  | some e => e.canonical false

/-- Whether a function is canonical; its body starts over with commas allowed. -/
@[simp] def Function.canonical : Function → Bool
  | .mk params body => params.length ≤ maxArguments && Stmt.allCanonical body

/-- Whether all methods are canonical. -/
@[simp] def Method.allCanonical : List Method → Bool
  | [] => true
  | .mk _ _ fn :: methods => fn.canonical && Method.allCanonical methods

/-- Whether a statement is canonical: no declaration stands for a statement, and an `else` belongs
to the nearest `if`. -/
@[simp] def Stmt.canonical : Stmt → Bool
  | .expression e => e.canonical false
  | .print e => e.canonical false
  | .varDecl _ initial => Expr.clauseCanonical initial
  | .block body => Stmt.allCanonical body
  | .branch condition yes none => condition.canonical false && yes.isStatement && yes.canonical
  | .branch condition yes (some no) =>
    condition.canonical false && yes.isStatement && yes.canonical && !yes.endsInIf &&
      no.isStatement && no.canonical
  | .loop condition body => condition.canonical false && body.isStatement && body.canonical
  | .forLoop initial condition increment body =>
    Stmt.initialCanonical initial && Expr.clauseCanonical condition &&
      Expr.clauseCanonical increment && body.isStatement && body.canonical
  | .ret _ value => Expr.clauseCanonical value
  | .brk _ => true
  | .funDecl _ fn => fn.canonical
  | .classDecl _ _ methods => Method.allCanonical methods
  | .importDecl path _ => path.kind = .string

/-- Whether the first part of a `for` statement is canonical. -/
@[simp] def Stmt.initialCanonical : Option Stmt → Bool
  | none => true
  | some s => s.isInitial && s.canonical

/-- Whether all statements are canonical. -/
@[simp] def Stmt.allCanonical : List Stmt → Bool
  | [] => true
  | s :: ss => s.canonical && Stmt.allCanonical ss

end

/-! ### Nesting -/

/-- How many productions that count as nesting are passed between two ranks: those of unary
expressions and of assignments. -/
def passes (low high : Nat) : Nat :=
  (if low ≤ 1 ∧ 2 ≤ high then 1 else 0) + if low ≤ 9 ∧ 10 ≤ high then 1 else 0

mutual

/-- How many productions that count as nesting are open at once in an expression, from its own
production on. -/
@[simp] def Expr.nesting : Expr → Nat
  | .literal _ | .name _ | .receiver _ | .inherited _ _ => 0
  | .group inner => inner.nesting + passes inner.rank 11
  | .function _ fn => fn.nesting
  | .call callee _ arguments =>
    max (callee.nesting + passes callee.rank 1) (Expr.allNesting arguments)
  | .get object _ => object.nesting + passes object.rank 1
  | .unary _ _ operand => operand.nesting + passes operand.rank 2 + 1
  | .binary op _ left right =>
    let rank := match op.level? with
      | some ℓ => ℓ.index + 2
      | none => 11
    max (left.nesting + passes left.rank rank) (right.nesting + passes right.rank (rank - 1))
  | .logical op _ left right =>
    max (left.nesting + passes left.rank (op.level.index + 2))
      (right.nesting + passes right.rank (op.level.index + 1))
  | .conditional condition yes no =>
    max (condition.nesting + passes condition.rank 8)
      (max (yes.nesting + passes yes.rank 11) (no.nesting + passes no.rank 11))
  | .assign _ value => max (passes 0 9) (value.nesting + passes value.rank 10) + 1
  | .set object _ value =>
    max (object.nesting + passes object.rank 1 + passes 1 9)
      (value.nesting + passes value.rank 10) + 1

/-- How many productions are open at once in the arguments of a call. -/
@[simp] def Expr.allNesting : List Expr → Nat
  | [] => 0
  | e :: es => max (e.nesting + passes e.rank 11) (Expr.allNesting es)

/-- How many productions are open at once in an expression that may be missing. -/
@[simp] def Expr.clauseNesting : Option Expr → Nat
  | none => 0
  | some e => e.nesting + passes e.rank 11

/-- How many productions are open at once in a function. -/
@[simp] def Function.nesting : Function → Nat
  | .mk _ body => Stmt.allNesting body

/-- How many productions are open at once in methods. -/
@[simp] def Method.allNesting : List Method → Nat
  | [] => 0
  | .mk _ _ fn :: methods => max fn.nesting (Method.allNesting methods)

/-- How many productions are open at once in a statement; a declaration is none by itself. -/
@[simp] def Stmt.nesting : Stmt → Nat
  | .expression e => e.nesting + passes e.rank 11 + 1
  | .print e => e.nesting + passes e.rank 11 + 1
  | .varDecl _ initial => Expr.clauseNesting initial
  | .block body => Stmt.allNesting body + 1
  | .branch condition yes none =>
    max (condition.nesting + passes condition.rank 11) yes.nesting + 1
  | .branch condition yes (some no) =>
    max (condition.nesting + passes condition.rank 11) (max yes.nesting no.nesting) + 1
  | .loop condition body => max (condition.nesting + passes condition.rank 11) body.nesting + 1
  | .forLoop initial condition increment body =>
    max (Stmt.initialNesting initial) (max (Expr.clauseNesting condition)
      (max (Expr.clauseNesting increment) body.nesting)) + 1
  | .ret _ value => Expr.clauseNesting value + 1
  | .brk _ => 1
  | .funDecl _ fn => fn.nesting
  | .classDecl _ _ methods => Method.allNesting methods
  | .importDecl _ _ => 0

/-- How many productions are open at once in the first part of a `for` statement, where an
expression is not a statement of its own. -/
@[simp] def Stmt.initialNesting : Option Stmt → Nat
  | some (.varDecl _ initial) => Expr.clauseNesting initial
  | some (.expression e) => e.nesting + passes e.rank 11
  | _ => 0

/-- How many productions are open at once in statements that follow each other. -/
@[simp] def Stmt.allNesting : List Stmt → Nat
  | [] => 0
  | s :: ss => max s.nesting (Stmt.allNesting ss)

end

end Lox.Surface
