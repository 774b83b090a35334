import Lox.Grammar.Expression

/-!
# Statements

The grammar of statements and declarations. A declaration recovers from problems within it; a
statement nests.
-/

namespace Lox.Grammar

open Parse

/-- A name, parameters and a body. -/
def functionDeclaration (rules : Rules) (kind : FunctionKind) : Parse (Mark × Function Unit) := do
  let name ← consume .identifier (.functionName kind)
  let _ ← consume .leftParen (.functionOpen kind)
  let fn ← functionRest rules kind
  pure (name.mark, fn)

/-- A method; the word `class` in front of it makes it a method of the class itself. -/
def method (rules : Rules) : Parse (Method Unit) := do
  let static := (← accept .classKw).isSome
  let (name, fn) ← functionDeclaration rules (if static then .staticMethod else .method)
  pure (.mk static name fn)

/-- A class after its keyword. -/
def classDeclaration (rules : Rules) : Parse (Stmt Unit) := do
  let name ← consume .identifier .className
  let superclass ← do
    match ← accept .less with
    | none => pure none
    | some _ =>
      let super ← consume .identifier .superclassName
      pure (some (super.mark, ()))
  let _ ← consume .leftBrace .classOpen
  let methods ← many (fun methods => do
    if (← atEnd) || (← check .rightBrace) then pure none
    else
      let m ← method rules
      pure (some (m :: methods))) []
  let _ ← consume .rightBrace .classClose
  pure (.classDecl name.mark superclass methods.reverse)

/-- A variable declaration after its keyword. -/
def varDeclaration (rules : Rules) : Parse (Stmt Unit) := do
  let name ← consume .identifier .variableName
  let initial ← do
    match ← accept .equal with
    | none => pure none
    | some _ => some <$> rules.expression
  let _ ← consume .semicolon .variableEnd
  pure (.varDecl name.mark initial)

/-- An import after its keyword. -/
def importDeclaration : Parse (Stmt Unit) := do
  let path ← consume .string .modulePath
  let asName ← do
    match ← accept .asKw with
    | none => pure none
    | some _ =>
      let name ← consume .identifier .aliasName
      pure (some name.mark)
  let _ ← consume .semicolon .importEnd
  pure (.importDecl path asName)

/-- An expression as a statement. -/
def expressionStatement (rules : Rules) : Parse (Stmt Unit) := do
  let e ← rules.expression
  let _ ← consume .semicolon .expressionEnd
  pure (.expression e)

/-- A `print` statement after its keyword. -/
def printStatement (rules : Rules) : Parse (Stmt Unit) := do
  let e ← rules.expression
  let _ ← consume .semicolon .printEnd
  pure (.print e)

/-- An `if` statement after its keyword. An `else` belongs to the nearest `if`. -/
def ifStatement (rules : Rules) : Parse (Stmt Unit) := do
  let _ ← consume .leftParen .ifOpen
  let condition ← rules.expression
  let _ ← consume .rightParen .ifClose
  let yes ← rules.statement
  match ← accept .elseKw with
  | none => pure (.branch condition yes none)
  | some _ =>
    let no ← rules.statement
    pure (.branch condition yes (some no))

/-- A `while` statement after its keyword. -/
def whileStatement (rules : Rules) : Parse (Stmt Unit) := do
  let _ ← consume .leftParen .whileOpen
  let condition ← rules.expression
  let _ ← consume .rightParen .whileClose
  let body ← rules.statement
  pure (.loop condition body)

/-- The loop that a `for` statement with the given clauses abbreviates. The increment runs after
the body in a block of its own; the whole is a block if there is an initializer. -/
def forLoop (initial : Option (Stmt Unit)) (condition increment : Option (Expr Unit))
    (body : Stmt Unit) : Stmt Unit :=
  let body := match increment with
    | some e => .block [body, .expression e]
    | none => body
  let loop := Stmt.loop (condition.getD (.literal (.bool true))) body
  match initial with
  | some s => .block [s, loop]
  | none => loop

/-- A `for` statement after its keyword. -/
def forStatement (rules : Rules) : Parse (Stmt Unit) := do
  let _ ← consume .leftParen .forOpen
  let initial ← do
    match (← peek).kind with
    | .semicolon => advance; pure none
    | .varKw => advance; some <$> varDeclaration rules
    | _ => some <$> expressionStatement rules
  let condition ← do
    if ← check .semicolon then pure none else some <$> rules.expression
  let _ ← consume .semicolon .forConditionEnd
  let increment ← do
    if ← check .rightParen then pure none else some <$> rules.expression
  let _ ← consume .rightParen .forClose
  let body ← rules.statement
  pure (forLoop initial condition increment body)

/-- A `return` statement after its keyword. -/
def returnStatement (rules : Rules) (keyword : Mark) : Parse (Stmt Unit) := do
  let value ← do
    if ← check .semicolon then pure none else some <$> rules.expression
  let _ ← consume .semicolon .returnEnd
  pure (.ret keyword value)

/-- A `break` statement after its keyword. -/
def breakStatement (keyword : Mark) : Parse (Stmt Unit) := do
  let _ ← consume .semicolon .breakEnd
  pure (.brk keyword)

/-- A statement. -/
def statement (rules : Rules) : Parse (Stmt Unit) := nested do
  let t ← peek
  match t.kind with
  | .printKw => advance; printStatement rules
  | .leftBrace => advance; return .block (← block rules)
  | .ifKw => advance; ifStatement rules
  | .whileKw => advance; whileStatement rules
  | .forKw => advance; forStatement rules
  | .returnKw => advance; returnStatement rules t.mark
  | .breakKw => advance; breakStatement t.mark
  | _ => expressionStatement rules

/-- A declaration or statement, or nothing after recovery. The word `fun` starts a declaration
only if a name follows it; otherwise it starts an expression. -/
def declaration (rules : Rules) : Parse (Option (Stmt Unit)) := recovering do
  match (← peek).kind with
  | .classKw => advance; classDeclaration rules
  | .varKw => advance; varDeclaration rules
  | .importKw => advance; importDeclaration
  | .funKw =>
    if ← checkSecond .identifier then
      advance
      let (name, fn) ← functionDeclaration rules .function
      pure (.funDecl name fn)
    else rules.statement
  | _ => rules.statement

end Lox.Grammar
