import Lox.Grammar.Cursor
import Lox.Tree.Basic

/-!
# Expressions

The grammar of expressions, from the loosest to the tightest binding: sequences, assignments,
conditionals, `or`, `and`, equality, comparison, sums, products, unary operators, calls and
properties, and primary expressions. Inside parentheses and argument lists there are no sequences:
a comma there ends the expression, until a function body starts over.

## Design notes

Rules refer to each other through a `Rules` record instead of by recursion. The records are tied
into one parser in `Lox.Grammar.Program`; until then every rule is a plain definition.
-/

namespace Lox

/-- The rules that others refer to. -/
structure Rules where
  declaration : Parse (Option (Stmt Unit))
  statement : Parse (Stmt Unit)
  expression : Parse (Expr Unit)
  assignment : Parse (Expr Unit)
  unary : Parse (Expr Unit)

namespace Grammar

open Parse

/-- The node that an operator token joins two operands to, if it is one of its level. -/
abbrev Joins := Token → Option (Expr Unit → Expr Unit → Expr Unit)

/-- A binary operator. -/
def joinBinary (op : BinaryOp) (t : Token) : Option (Expr Unit → Expr Unit → Expr Unit) :=
  some (.binary op t.mark)

/-- `==` and `!=`. -/
def equalityOps : Joins := fun t =>
  match t.kind with
  | .bangEqual => joinBinary .notEqual t
  | .equalEqual => joinBinary .equal t
  | _ => none

/-- `>`, `>=`, `<` and `<=`. -/
def comparisonOps : Joins := fun t =>
  match t.kind with
  | .greater => joinBinary .greater t
  | .greaterEqual => joinBinary .greaterEqual t
  | .less => joinBinary .less t
  | .lessEqual => joinBinary .lessEqual t
  | _ => none

/-- `+` and `-`. -/
def sumOps : Joins := fun t =>
  match t.kind with
  | .minus => joinBinary .minus t
  | .plus => joinBinary .plus t
  | _ => none

/-- `*`, `/` and `%`. -/
def productOps : Joins := fun t =>
  match t.kind with
  | .slash => joinBinary .divide t
  | .star => joinBinary .times t
  | .percent => joinBinary .modulo t
  | _ => none

/-- `or`. -/
def disjunctionOps : Joins := fun t =>
  if t.kind = .orKw then some (.logical .or t.mark) else none

/-- `and`. -/
def conjunctionOps : Joins := fun t =>
  if t.kind = .andKw then some (.logical .and t.mark) else none

/-- Operands joined from left to right by the operators of one level. -/
def chain (operand : Parse (Expr Unit)) (joins : Joins) : Parse (Expr Unit) := do
  let first ← operand
  many (fun left => do
    match joins (← peek) with
    | none => pure none
    | some join =>
      advance
      let right ← operand
      pure (some (join left right))) first

/-- A list of parameters after its opening parenthesis. -/
def parameters : Parse (List Mark) := do
  if ← check .rightParen then pure []
  else
    let first ← consume .identifier .parameterName
    let params ← many (fun params => do
      match ← accept .comma with
      | none => pure none
      | some _ =>
        if maxArguments ≤ params.length then report (← peek) .tooManyParameters
        let param ← consume .identifier .parameterName
        pure (some (param.mark :: params))) [first.mark]
    pure params.reverse

/-- Declarations up to a closing brace; the opening one has been read. -/
def block (rules : Rules) : Parse (List (Stmt Unit)) := do
  let body ← many (fun body => do
    if (← atEnd) || (← check .rightBrace) then pure none
    else
      match ← rules.declaration with
      | some s => pure (some (s :: body))
      | none => pure (some body)) []
  let _ ← consume .rightBrace .blockClose
  pure body.reverse

/-- Parameters and body of a function, after the opening parenthesis. The body starts over with
sequences allowed. -/
def functionRest (rules : Rules) (kind : FunctionKind) : Parse (Function Unit) := do
  let params ← parameters
  let _ ← consume .rightParen .parametersClose
  let _ ← consume .leftBrace (.bodyOpen kind)
  let body ← within false (block rules)
  pure (.mk params body)

/-- Literals, names, groups and functions. -/
def primary (rules : Rules) : Parse (Expr Unit) := do
  let t ← peek
  match t.kind with
  | .falseKw => advance; pure (.literal (.bool false))
  | .trueKw => advance; pure (.literal (.bool true))
  | .nilKw => advance; pure (.literal .nil)
  | .number | .string => advance; pure (.literal t.literal)
  | .superKw =>
    advance
    let _ ← consume .dot .superDot
    let method ← consume .identifier .superMethod
    pure (.inherited t.mark method.mark ())
  | .thisKw => advance; pure (.receiver t.mark ())
  | .funKw =>
    advance
    let _ ← consume .leftParen .anonymousOpen
    let fn ← functionRest rules .function
    pure (.function t.mark fn)
  | .identifier => advance; pure (.name t.mark ())
  | .leftParen =>
    advance
    within true do
      let inner ← rules.expression
      let _ ← consume .rightParen .groupClose
      pure (.group inner)
  | .question => fail .conditionalOperand
  | _ => fail .expression

/-- The arguments of a call up to its closing parenthesis. -/
def arguments (rules : Rules) : Parse (List (Expr Unit)) := do
  if ← check .rightParen then pure []
  else
    let first ← rules.expression
    let args ← many (fun args => do
      match ← accept .comma with
      | none => pure none
      | some _ =>
        if maxArguments ≤ args.length then report (← peek) .tooManyArguments
        let arg ← rules.expression
        pure (some (arg :: args))) [first]
    pure args.reverse

/-- The rest of a call after its opening parenthesis. -/
def callRest (rules : Rules) (callee : Expr Unit) : Parse (Expr Unit) :=
  within true do
    let args ← arguments rules
    let paren ← consume .rightParen .argumentsClose
    pure (.call callee paren.mark args)

/-- A primary expression with any calls and properties after it. -/
def call (rules : Rules) : Parse (Expr Unit) := do
  let first ← primary rules
  many (fun e => do
    match (← peek).kind with
    | .leftParen =>
      advance
      let called ← callRest rules e
      pure (some called)
    | .dot =>
      advance
      let property ← consume .identifier .propertyName
      pure (some (.get e property.mark))
    | _ => pure none) first

/-- Negations, then a call. -/
def unary (rules : Rules) : Parse (Expr Unit) := nested do
  let t ← peek
  match t.kind with
  | .bang => advance; return .unary .not t.mark (← rules.unary)
  | .minus => advance; return .unary .negate t.mark (← rules.unary)
  | _ => call rules

/-- Products of unary expressions. -/
def product (rules : Rules) : Parse (Expr Unit) := chain rules.unary productOps

/-- Sums of products. -/
def sum (rules : Rules) : Parse (Expr Unit) := chain (product rules) sumOps

/-- Comparisons of sums. -/
def comparison (rules : Rules) : Parse (Expr Unit) := chain (sum rules) comparisonOps

/-- Equalities of comparisons. -/
def equality (rules : Rules) : Parse (Expr Unit) := chain (comparison rules) equalityOps

/-- Conjunctions of equalities. -/
def conjunction (rules : Rules) : Parse (Expr Unit) := chain (equality rules) conjunctionOps

/-- Disjunctions of conjunctions. -/
def disjunction (rules : Rules) : Parse (Expr Unit) := chain (conjunction rules) disjunctionOps

/-- A disjunction, or a choice between two expressions on its outcome. -/
def conditional (rules : Rules) : Parse (Expr Unit) := do
  let condition ← disjunction rules
  match ← accept .question with
  | none => pure condition
  | some _ =>
    let yes ← rules.expression
    let _ ← consume .colon .conditionalColon
    let no ← rules.expression
    pure (.conditional condition yes no)

/-- A conditional, or an assignment to a name or a property. Anything else on the left of an
equals sign is reported, and the value is dropped. -/
def assignment (rules : Rules) : Parse (Expr Unit) := nested do
  let target ← conditional rules
  match ← accept .equal with
  | none => pure target
  | some equals =>
    let value ← rules.assignment
    match target with
    | .name mark ref => pure (.assign mark ref value)
    | .get object property => pure (.set object property value)
    | _ =>
      report equals .invalidTarget
      pure target

/-- Assignments, joined by commas unless the comma belongs to an enclosing list or group. -/
def expression (rules : Rules) : Parse (Expr Unit) := do
  let first ← rules.assignment
  many (fun left => do
    if ← isGrouped then pure none
    else
      match ← accept .comma with
      | none => pure none
      | some comma =>
        let right ← rules.assignment
        pure (some (.binary .sequence comma.mark left right))) first

end Grammar

end Lox
