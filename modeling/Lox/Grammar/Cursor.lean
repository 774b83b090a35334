import Lox.Diagnostic

/-!
# Reading tokens

The state of a parse and the steps from which grammar rules are built. A rule that meets a
problem reports it and bails out to the enclosing declaration, which skips to the next statement
and goes on; nesting beyond the limit aborts the whole parse.

## Design notes

Repetition is bounded by the tokens left, since every round reads one. Running out of that bound
is an outcome of its own, `exhausted`, so that it cannot be mistaken for an answer. The bound is the
list of tokens itself: to count it first would make every repetition as long as the rest of the
input.
-/

namespace Lox

/-- The most levels of statements, assignments and unary expressions that may be open at once. -/
def maxNesting : Nat := 1024

/-- The most parameters of a function and the most arguments of a call. -/
def maxArguments : Nat := 255

/-- The state of a parse. -/
structure Cursor where
  /-- The tokens before the end of the input that have not been read. -/
  rest : List Token
  /-- The token that ends the input. -/
  stop : Token
  /-- Whether a comma belongs to an enclosing argument list or group. -/
  grouped : Bool := false
  /-- How many levels of nesting are open. -/
  depth : Nat := 0
  /-- The problems reported so far, latest first. -/
  faults : List Diagnostic := []

namespace Cursor

/-- The next token. -/
def peek (c : Cursor) : Token := c.rest.headD c.stop

/-- Whether a token starts a statement at which reading can resume. -/
def isBoundary (t : Token) : Bool :=
  match t.kind with
  | .classKw | .funKw | .varKw | .forKw | .whileKw | .printKw | .returnKw => true
  | _ => false

/-- The tokens from the next boundary on: after a semicolon, or at a word that starts a
statement. -/
def skipFrom (previous : Token) : List Token → List Token
  | [] => []
  | t :: ts =>
    if previous.kind = .semicolon || isBoundary t then t :: ts else skipFrom t ts

/-- Drops the offending token and all up to the next boundary. -/
def synchronize (c : Cursor) : Cursor :=
  match c.rest with
  | [] => { c with grouped := false }
  | t :: ts => { c with rest := skipFrom t ts, grouped := false }

/-- The cursor with one more problem at a token. -/
def report (c : Cursor) (t : Token) (problem : GrammarProblem) : Cursor :=
  { c with faults := .atToken t (.grammar problem) :: c.faults }

theorem length_skipFrom_le (previous : Token) (ts : List Token) :
    (skipFrom previous ts).length ≤ ts.length := by
  induction ts generalizing previous with
  | nil => simp [skipFrom]
  | cons t ts ih =>
    simp only [skipFrom]
    split
    · exact Nat.le_refl _
    · exact Nat.le_succ_of_le (ih t)

end Cursor

/-- How a rule ends: with a tree, by bailing out to the enclosing declaration, by aborting the
parse, or without an answer because its bound ran out. -/
inductive Outcome (α : Type) where
  | ok (value : α) (next : Cursor)
  | bail (next : Cursor)
  | abort (next : Cursor)
  | exhausted

/-- A grammar rule. -/
def Parse (α : Type) := Cursor → Outcome α

namespace Parse

variable {α β : Type}

/-- Succeeds without reading. -/
@[always_inline, inline] protected def pure (a : α) : Parse α := fun c => .ok a c

/-- Runs `p`, then the rule it selects. -/
@[always_inline, inline] protected def bind (p : Parse α) (f : α → Parse β) : Parse β := fun c =>
  match p c with
  | .ok a c => f a c
  | .bail c => .bail c
  | .abort c => .abort c
  | .exhausted => .exhausted

instance : Monad Parse where
  pure := Parse.pure
  bind := Parse.bind

/-- The next token, unread. -/
def peek : Parse Token := fun c => .ok c.peek c

/-- Whether the next token has the given kind. -/
def check (kind : TokenKind) : Parse Bool := fun c =>
  .ok (match c.rest with
    | t :: _ => t.kind = kind
    | [] => false) c

/-- Whether the next token but one has the given kind. -/
def checkSecond (kind : TokenKind) : Parse Bool := fun c =>
  .ok (match c.rest with
    | _ :: t :: _ => t.kind = kind
    | _ => false) c

/-- Whether the input has been read to its end. -/
def atEnd : Parse Bool := fun c => .ok c.rest.isEmpty c

/-- Whether a comma belongs to an enclosing argument list or group. -/
def isGrouped : Parse Bool := fun c => .ok c.grouped c

/-- Reads a token; at the end of the input there is nothing to read. -/
def advance : Parse Unit := fun c => .ok () { c with rest := c.rest.tail }

/-- Reads the next token if it has the given kind. -/
def accept (kind : TokenKind) : Parse (Option Token) := fun c =>
  match c.rest with
  | t :: ts => if t.kind = kind then .ok (some t) { c with rest := ts } else .ok none c
  | [] => .ok none c

/-- Reports a problem at a token and goes on. -/
def report (t : Token) (problem : GrammarProblem) : Parse Unit := fun c =>
  .ok () (c.report t problem)

/-- Reports what is missing at the next token and bails out. -/
def fail (what : Expected) : Parse α := fun c => .bail (c.report c.peek (.expected what))

/-- Reads a token of the given kind, or bails out. -/
def consume (kind : TokenKind) (what : Expected) : Parse Token := do
  match ← accept kind with
  | some t => pure t
  | none => fail what

/-- Runs a rule one level deeper. At the limit the whole parse is given up. -/
def nested (p : Parse α) : Parse α := fun c =>
  if maxNesting ≤ c.depth then .abort (c.report c.peek .tooMuchNesting)
  else match p { c with depth := c.depth + 1 } with
    | .ok a c => .ok a { c with depth := c.depth - 1 }
    | .bail c => .bail { c with depth := c.depth - 1 }
    | .abort c => .abort c
    | .exhausted => .exhausted

/-- Runs a rule with commas grouped or not, and returns to the previous state. -/
def within (grouped : Bool) (p : Parse α) : Parse α := fun c =>
  match p { c with grouped := grouped } with
  | .ok a next => .ok a { next with grouped := c.grouped }
  | .bail next => .bail next
  | .abort next => .abort next
  | .exhausted => .exhausted

/-- Runs a rule; if it bails out there is no tree, and reading resumes at the next boundary. -/
def recovering (p : Parse α) : Parse (Option α) := fun c =>
  match p c with
  | .ok a c => .ok (some a) c
  | .bail c => .ok none c.synchronize
  | .abort c => .abort c
  | .exhausted => .exhausted

/-- Rounds that each go on with a new state or end the repetition. Every round that goes on takes
one item off the budget. -/
def iterate (round : α → Parse (Option α)) (budget : List Token) (a : α) : Parse α := fun c =>
  match round a c with
  | .ok (some a) c =>
    match budget with
    | [] => .exhausted
    | _ :: budget => iterate round budget a c
  | .ok none c => .ok a c
  | .bail c => .bail c
  | .abort c => .abort c
  | .exhausted => .exhausted

/-- Repeats rounds that each read a token until one declines. -/
def many (round : α → Parse (Option α)) (a : α) : Parse α := fun c =>
  iterate round c.rest a c

end Parse

end Lox
