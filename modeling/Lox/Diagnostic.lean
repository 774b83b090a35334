import Lox.Text.Glyph
import Lox.Token

/-!
# Diagnostics

What can be wrong with a program before it runs, where, and in which words.
-/

namespace Lox

/-- What can be wrong with a piece of source. -/
inductive LexicalProblem where
  | unexpected (g : Glyph)
  | unterminatedString
  | unterminatedComment
  | numberTooLarge
  deriving DecidableEq, Repr

/-- The kinds of function: declared or anonymous functions, methods, methods of the class itself,
and functions that a host supplies under a label of its own. -/
inductive FunctionKind where
  | function
  | method
  | staticMethod
  | hosted (label : Text)
  deriving DecidableEq, Repr

namespace FunctionKind

/-- The label of a kind. -/
def label : FunctionKind → Text
  | function => "function"
  | method => "method"
  | staticMethod => "static method"
  | hosted t => t

/-- The kind with a label; no label means a plain function. -/
def ofLabel (t : Text) : FunctionKind :=
  if t = [] ∨ t = function.label then function
  else if t = method.label then method
  else if t = staticMethod.label then staticMethod
  else hosted t

end FunctionKind

/-- What the grammar wants next. -/
inductive Expected where
  | className | superclassName | classOpen | classClose
  | functionName (kind : FunctionKind) | functionOpen (kind : FunctionKind)
  | parameterName | parametersClose | bodyOpen (kind : FunctionKind)
  | variableName | variableEnd
  | modulePath | aliasName | importEnd
  | printEnd | expressionEnd | blockClose
  | ifOpen | ifClose | whileOpen | whileClose
  | forOpen | forConditionEnd | forClose
  | returnEnd | breakEnd
  | conditionalColon | propertyName | argumentsClose
  | superDot | superMethod | anonymousOpen | groupClose
  | conditionalOperand | expression
  deriving DecidableEq, Repr

/-- The wording of a missing part. -/
def Expected.message : Expected → Text
  | className => "Expect class name."
  | superclassName => "Expect superclass name."
  | classOpen => "Expect '\x7b' before class body."
  | classClose => "Expect '\x7d' after class body."
  | functionName kind => "Expect " ++ kind.label ++ " name."
  | functionOpen kind => "Expect '(' after " ++ kind.label ++ " name."
  | parameterName => "Expect parameter name."
  | parametersClose => "Expect ')' after parameters."
  | bodyOpen kind => "Expect '\x7b' before " ++ kind.label ++ " body."
  | variableName => "Expect variable name."
  | variableEnd => "Expect ';' after variable declaration."
  | modulePath => "Expect module path after 'import'."
  | aliasName => "Expect alias name after 'as'."
  | importEnd => "Expect ';' after import."
  | printEnd => "Expect ';' after value."
  | expressionEnd => "Expect ';' after expression."
  | blockClose => "Expect '\x7d' after block."
  | ifOpen => "Expect '(' after 'if'."
  | ifClose => "Expect ')' after if condition."
  | whileOpen => "Expect '(' after 'while'."
  | whileClose => "Expect ')' after condition."
  | forOpen => "Expect '(' after 'for'."
  | forConditionEnd => "Expect ';' after loop condition."
  | forClose => "Expect ')' after for clauses."
  | returnEnd => "Expect ';' after return value."
  | breakEnd => "Expect ';' after 'break'."
  | conditionalColon => "Expect ':' after then branch of conditional expression."
  | propertyName => "Expect property name after '.'."
  | argumentsClose => "Expect ')' after arguments."
  | superDot => "Expect '.' after 'super'."
  | superMethod => "Expect superclass method name."
  | anonymousOpen => "Expect '(' after 'fun'."
  | groupClose => "Expect ')' after expression."
  | conditionalOperand => "Expect expression before '?'."
  | expression => "Expect expression."

/-- What can be wrong with a sequence of tokens. -/
inductive GrammarProblem where
  | expected (what : Expected)
  | tooManyParameters
  | tooManyArguments
  | invalidTarget
  | tooMuchNesting
  deriving DecidableEq, Repr

/-- What can be wrong with the names and jumps of a program. -/
inductive ScopeProblem where
  | breakOutsideLoop
  | returnAtTopLevel
  | returnFromInitializer
  | selfInheritance
  | duplicateMethod
  | ownInitializer
  | thisOutsideClass
  | superOutsideClass
  | superWithoutSuperclass
  | duplicateName
  deriving DecidableEq, Repr

/-- What can be wrong with a program before it runs. A `note` is a cause in a host's own words. -/
inductive Problem where
  | lexical (p : LexicalProblem)
  | grammar (p : GrammarProblem)
  | scope (p : ScopeProblem)
  | note (message : Text)
  deriving DecidableEq, Repr

/-- The wording of a lexical problem. -/
def LexicalProblem.message : LexicalProblem → Text
  | unexpected g => "Unexpected character: " ++ Text.ofChar g.shown ++ "."
  | unterminatedString => "Unterminated string."
  | unterminatedComment => "Unterminated comment."
  | numberTooLarge => "Invalid number literal."

/-- The wording of a grammatical problem. -/
def GrammarProblem.message : GrammarProblem → Text
  | expected what => what.message
  | tooManyParameters => "Can't have more than 255 parameters."
  | tooManyArguments => "Can't have more than 255 arguments."
  | invalidTarget => "Invalid assignment target."
  | tooMuchNesting => "Too much nesting."

/-- The wording of a problem with names or jumps. -/
def ScopeProblem.message : ScopeProblem → Text
  | breakOutsideLoop => "Can't use 'break' outside of a loop."
  | returnAtTopLevel => "Can't return from top-level code."
  | returnFromInitializer => "Can't return a value from an initializer."
  | selfInheritance => "A class can't inherit from itself."
  | duplicateMethod => "Methods must have different names."
  | ownInitializer => "Can't read local variable in its own initializer."
  | thisOutsideClass => "Can't use 'this' outside of a class."
  | superOutsideClass => "Can't use 'super' outside of a class."
  | superWithoutSuperclass => "Can't use 'super' in a class with no superclass."
  | duplicateName => "Already a variable with this name in this scope."

/-- The wording of a problem. -/
def Problem.message : Problem → Text
  | lexical p => p.message
  | grammar p => p.message
  | scope p => p.message
  | note t => t

/-- Where on its line a problem was found. -/
inductive Place where
  | unspecified
  | atEnd
  | atLexeme (lexeme : Text)
  deriving DecidableEq, Repr

/-- How a place is shown. -/
def Place.text : Place → Text
  | unspecified => []
  | atEnd => " at end"
  | atLexeme t => " at '" ++ t ++ "'"

/-- A problem at a place in the source. -/
structure Diagnostic where
  line : Int
  place : Place
  problem : Problem
  deriving DecidableEq, Repr

namespace Diagnostic

/-- A problem at a token; the token that ends the source is shown as the end. -/
def atToken (t : Token) (p : Problem) : Diagnostic :=
  ⟨t.line, if t.kind = .eof then .atEnd else .atLexeme t.lexeme, p⟩

/-- A problem at a name or keyword of a syntax tree. -/
def atMark (m : Mark) (p : Problem) : Diagnostic := ⟨m.line, .atLexeme m.lexeme, p⟩

/-- A problem at a line. -/
def atLine (line : Int) (p : Problem) : Diagnostic := ⟨line, .unspecified, p⟩

/-- The start of every message about a line. -/
def heading (line : Int) : Text := "[line " ++ Text.ofInt line ++ "] Error"

/-- The line shown for a diagnostic. -/
def text (d : Diagnostic) : Text := heading d.line ++ d.place.text ++ ": " ++ d.problem.message

end Diagnostic

end Lox
