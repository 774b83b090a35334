import Lox.Grammar.Statement

/-!
# Programs

The grammar rules tied into one parser, and the parse of a whole sequence of tokens.

## Design notes

`Rules.upTo n` follows at most `n` references from rule to rule. Between two tokens at most five
are followed (declaration, statement, expression, assignment, unary), so a small multiple of the
number of tokens is deep enough for the whole input.
-/

namespace Lox

/-- The rules, with references between them followed `n` deep. -/
def Rules.upTo : (n : Nat) → Rules
  | 0 =>
    { declaration := fun _ => .exhausted
      statement := fun _ => .exhausted
      expression := fun _ => .exhausted
      assignment := fun _ => .exhausted
      unary := fun _ => .exhausted }
  | n + 1 =>
    { declaration := fun c => Grammar.declaration (Rules.upTo n) c
      statement := fun c => Grammar.statement (Rules.upTo n) c
      expression := fun c => Grammar.expression (Rules.upTo n) c
      assignment := fun c => Grammar.assignment (Rules.upTo n) c
      unary := fun c => Grammar.unary (Rules.upTo n) c }

/-- How deep references are followed for an input of the given length. -/
def Rules.depthFor (tokens : Nat) : Nat := 6 * (tokens + 2)

/-- Declarations up to the end of the input. -/
def Grammar.program (rules : Rules) : Parse (Program Unit) := do
  let program ← Parse.many (fun program => do
    if ← Parse.atEnd then pure none
    else
      match ← rules.declaration with
      | some s => pure (some (s :: program))
      | none => pure (some program)) []
  pure program.reverse

/-- The tokens before the first end mark, and that mark. Without one the input ends on the line
of its last token. -/
def Token.untilEnd (tokens : List Token) : List Token × Token :=
  let before := tokens.takeWhile (·.kind ≠ .eof)
  match tokens.dropWhile (·.kind ≠ .eof) with
  | stop :: _ => (before, stop)
  | [] => (before, { kind := .eof, lexeme := [], line := (tokens.getLast?.map Token.line).getD 1 })

/-- The statements that could be read from a sequence of tokens, and the problems found. -/
structure Parsed where
  program : Program Unit
  faults : List Diagnostic

/-- The parse of a sequence of tokens. Nesting beyond the limit leaves no statements. -/
def Parsed.ofTokens (tokens : List Token) : Parsed :=
  let (rest, stop) := Token.untilEnd tokens
  match Grammar.program (Rules.upTo (Rules.depthFor rest.length)) { rest, stop } with
  | .ok program c => ⟨program, c.faults.reverse⟩
  | .bail c => ⟨[], c.faults.reverse⟩
  | .abort c => ⟨[], c.faults.reverse⟩
  | .exhausted => ⟨[], []⟩

end Lox
