import Lox.Piece

/-!
# Scanning

Scanning a source keeps the token pieces as tokens and reports the faulty pieces. The line of
either is one more than the number of line ends up to the end of its piece, so a string that runs
over several lines belongs to its last one.
-/

namespace Lox

/-- The number of line ends in a text. -/
def Text.newlines (t : Text) : Nat := t.count (byte '\n')

/-- The tokens of a source and what is wrong with its pieces. -/
structure Scan where
  tokens : List Token
  faults : List Diagnostic
  deriving DecidableEq

namespace Scan

/-- The tokens among pieces that start on the given line, closed by the end of the source. -/
def tokensFrom (line : Nat) : List Piece → List Token
  | [] => [{ kind := .eof, lexeme := [], line := line }]
  | piece :: pieces =>
    let line := line + piece.text.newlines
    match piece.kind with
    | .token kind literal => ⟨kind, piece.text, literal, line⟩ :: tokensFrom line pieces
    | _ => tokensFrom line pieces

/-- The problems among pieces that start on the given line. -/
def faultsFrom (line : Nat) : List Piece → List Diagnostic
  | [] => []
  | piece :: pieces =>
    let line := line + piece.text.newlines
    match piece.kind with
    | .fault problem => .atLine line (.lexical problem) :: faultsFrom line pieces
    | _ => faultsFrom line pieces

/-- The tokens and problems of a source. -/
def ofSource (source : Text) : Scan :=
  let pieces := source.pieces
  ⟨tokensFrom 1 pieces, faultsFrom 1 pieces⟩

end Scan

end Lox
