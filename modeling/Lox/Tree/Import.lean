import Lox.Path
import Lox.Tree.Basic

/-!
# Imports

An import names a module by a path and binds it under an alias or, without one, under the file
name of the path without its extension.
-/

namespace Lox.Import

/-- The path denoted by a path token: its string, or else its lexeme without surrounding quotes. -/
def path (token : Token) : Text :=
  match token.literal with
  | .string t => t
  | _ => Text.dropRightWhile (· = Text.byte '"') (token.lexeme.dropWhile (· = Text.byte '"'))

/-- The name that an import binds. -/
def name (token : Token) : Option Mark → Text
  | some asName => asName.lexeme
  | none => Path.stem (path token)

/-- The name that an import binds, on the line of the token that spells it. -/
def binding (token : Token) (asName : Option Mark) : Mark :=
  ⟨name token asName, (asName.map Mark.line).getD token.line⟩

end Lox.Import
