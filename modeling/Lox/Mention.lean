import Lox.Path
import Lox.Scan
import Lox.Value

/-!
# What a source mentions

Which modules a source can import and whether it can read the input, as far as its tokens tell.
Whoever runs a source can use this to fetch only what may be needed.
-/

namespace Lox

/-- The string literals that follow the word `import`. -/
def Token.importPaths : List Token → List Text
  | t :: u :: rest =>
    match t.kind, u.literal with
    | .importKw, .string path => path :: importPaths (u :: rest)
    | _, _ => importPaths (u :: rest)
  | _ => []

/-- The file names that import paths of a source end in. -/
def Text.importedNames (source : Text) : List Text :=
  (Token.importPaths (Scan.ofSource source).tokens).map fun path => Path.base (Path.clean path)

/-- Whether a source names a function that reads the input. -/
def Text.mentionsInput (source : Text) : Bool :=
  (Scan.ofSource source).tokens.any fun t =>
    t.lexeme = NativeFunction.read.name || t.lexeme = NativeFunction.readNumber.name

end Lox
