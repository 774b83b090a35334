import Lox.Number.Format

/-!
# Tokens

The words of the language. A token has a kind, the text it was read from, the line on which that
text ends and, for numbers and strings, the value it denotes.
-/

namespace Lox

/-- The kinds of token. Keywords end in `Kw`. -/
inductive TokenKind where
  | leftParen | rightParen | leftBrace | rightBrace | question | comma | dot | minus | plus
  | semicolon | colon | slash | star | percent | bang | bangEqual | equal | equalEqual
  | greater | greaterEqual | less | lessEqual | identifier | string | number
  | andKw | classKw | elseKw | falseKw | funKw | forKw | ifKw | nilKw | orKw | printKw
  | returnKw | superKw | thisKw | trueKw | varKw | whileKw | breakKw | importKw | asKw
  | eof
  deriving DecidableEq, Repr

namespace TokenKind

/-- Every kind, in the order of the codes. -/
def all : List TokenKind :=
  [leftParen, rightParen, leftBrace, rightBrace, question, comma, dot, minus, plus,
    semicolon, colon, slash, star, percent, bang, bangEqual, equal, equalEqual,
    greater, greaterEqual, less, lessEqual, identifier, string, number,
    andKw, classKw, elseKw, falseKw, funKw, forKw, ifKw, nilKw, orKw, printKw,
    returnKw, superKw, thisKw, trueKw, varKw, whileKw, breakKw, importKw, asKw, eof]

/-- The keywords with their spellings. -/
def keywords : List (String × TokenKind) :=
  [("and", andKw), ("class", classKw), ("else", elseKw), ("false", falseKw), ("fun", funKw),
    ("for", forKw), ("if", ifKw), ("nil", nilKw), ("or", orKw), ("print", printKw),
    ("return", returnKw), ("super", superKw), ("this", thisKw), ("true", trueKw), ("var", varKw),
    ("while", whileKw), ("break", breakKw), ("import", importKw), ("as", asKw)]

/-- The kind of a word: a keyword's, or else an identifier. -/
def ofWord (word : Text) : TokenKind :=
  match keywords.find? fun (spelling, _) => Text.ofString spelling = word with
  | some (_, kind) => kind
  | none => identifier

/-- The name of a kind in descriptions. -/
def name : TokenKind → Text
  | leftParen => "LEFT_PAREN"
  | rightParen => "RIGHT_PAREN"
  | leftBrace => "LEFT_BRACE"
  | rightBrace => "RIGHT_BRACE"
  | question => "QUESTION_MARK"
  | comma => "COMMA"
  | dot => "DOT"
  | minus => "MINUS"
  | plus => "PLUS"
  | semicolon => "SEMICOLON"
  | colon => "COLON"
  | slash => "SLASH"
  | star => "STAR"
  | percent => "PERCENT"
  | bang => "BANG"
  | bangEqual => "BANG_EQUAL"
  | equal => "EQUAL"
  | equalEqual => "EQUAL_EQUAL"
  | greater => "GREATER"
  | greaterEqual => "GREATER_EQUAL"
  | less => "LESS"
  | lessEqual => "LESS_EQUAL"
  | identifier => "IDENTIFIER"
  | string => "STRING"
  | number => "NUMBER"
  | andKw => "AND"
  | classKw => "CLASS"
  | elseKw => "ELSE"
  | falseKw => "FALSE"
  | funKw => "FUN"
  | forKw => "FOR"
  | ifKw => "IF"
  | nilKw => "NIL"
  | orKw => "OR"
  | printKw => "PRINT"
  | returnKw => "RETURN"
  | superKw => "SUPER"
  | thisKw => "THIS"
  | trueKw => "TRUE"
  | varKw => "VAR"
  | whileKw => "WHILE"
  | breakKw => "BREAK"
  | importKw => "IMPORT"
  | asKw => "AS"
  | eof => "EOF"

/-- The kind with a given name. -/
def ofName? (t : Text) : Option TokenKind := all.find? fun kind => kind.name = t

/-- The name of the kind with a code, or a placeholder that shows the code. -/
def nameOfCode : Int → Text
  | .ofNat n =>
    match all[n]? with
    | some kind => kind.name
    | none => "unknown_token_" ++ Text.ofNat n
  | .negSucc n => "unknown_token_" ++ Text.ofInt (.negSucc n)

end TokenKind

/-- A value that source code can write down. Tokens that denote no value carry `nil`. -/
inductive Literal where
  | nil
  | bool (b : Bool)
  | number (x : Float)
  | string (t : Text)
  deriving DecidableEq

/-- The text of a truth value. -/
def Text.ofBool (b : Bool) : Text := if b then "true" else "false"

/-- How a token description shows its literal; nothing for `nil`. -/
def Literal.described? : Literal → Option Text
  | nil => none
  | bool b => some (Text.ofBool b)
  | number x => some (Number.described x)
  | string t => some t

/-- A name, keyword or operator in the source: its text and the line on which it ends. -/
structure Mark where
  lexeme : Text
  line : Int
  deriving DecidableEq, Repr

/-- A word of the source. -/
structure Token where
  kind : TokenKind
  lexeme : Text
  literal : Literal := .nil
  line : Int
  deriving DecidableEq

namespace Token

/-- The part of a token that a syntax tree keeps. -/
def mark (t : Token) : Mark := ⟨t.lexeme, t.line⟩

/-- The kind, the lexeme and, where there is one, the literal. -/
def describe (t : Token) : Text :=
  let head := t.kind.name ++ Text.byte ' ' :: t.lexeme
  match t.literal.described? with
  | some literal => head ++ Text.byte ' ' :: literal
  | none => head

end Token

end Lox
