import Lox.Yaml.Token.Reader

/-!
# Scalars as they are written

Scalars are plain, in quotes, or blocks of lines. In plain and quoted ones line ends are folded: a
single newline is a blank, and of several all but the first stay.
-/

namespace Lox.Yaml

/-- The bytes of characters. -/
def textOf (cs : List Char) : Text := cs.flatMap Text.ofChar

/-- A scalar so far. Texts are in reverse; a line end is kept apart from those after it. -/
structure Folding where
  done : List Char := []
  blanks : List Char := []
  firstBreak : List Char := []
  moreBreaks : List Char := []
  /-- Whether a line has ended since the last word. -/
  broken : Bool := false

namespace Folding

/-- What stands for the blanks and line ends before the next word, in reverse. -/
def gap (f : Folding) : List Char :=
  if !f.broken then f.blanks
  else if f.firstBreak = ['\n'] then
    if f.moreBreaks = [] then [' '] else f.moreBreaks
  else f.moreBreaks ++ f.firstBreak

/-- The scalar with the gap before the next word. -/
def join (f : Folding) : Folding := { done := f.gap ++ f.done }

/-- The scalar with one more character. -/
def push (f : Folding) (c : Char) : Folding := { f with done := c :: f.done }

/-- One more blank. It counts only on the line of the last word. -/
def blank (f : Folding) (c : Char) : Folding :=
  if f.broken then f else { f with blanks := c :: f.blanks }

/-- One more line end. -/
def lineEnd (f : Folding) (c : Char) : Folding :=
  if f.broken then { f with moreBreaks := c :: f.moreBreaks }
  else { f with blanks := [], firstBreak := [c], broken := true }

/-- The text of the scalar. -/
def text (f : Folding) : Text := textOf f.done.reverse

end Folding

namespace Reading

/-! ### Plain scalars -/

/-- The signs that end a plain scalar in brackets. -/
def flowEnds : List Char := [',', '?', '[', ']', '{', '}']

/-- Reads a word of a plain scalar. -/
def plainWord (f : Folding) : (rounds : Nat) → Reading Folding
  | 0 => fail .endless
  | rounds + 1 => do
    let c ← current
    if isGap c || (c = ':' && isGap (← look 1)) || (0 < (← get).flow && c ∈ flowEnds) then pure f
    else
      skip
      need 2
      plainWord (f.join.push c) rounds

/-- Reads the gap after a word of a plain scalar. Tabs must not stand left of column `indent`. -/
def plainGap (start : Mark) (indent : Int) (f : Folding) : (rounds : Nat) → Reading Folding
  | 0 => fail .endless
  | rounds + 1 => do
    let c ← current
    if isBlank c then
      if f.broken && (← get).mark.column < indent && c = '\t' then failFrom start .tabInPlain
      skip
      need 1
      plainGap start indent (f.blank c) rounds
    else if isBreak c then
      need 2
      let c ← readBreak
      need 1
      plainGap start indent (f.lineEnd c) rounds
    else pure f

/-- Reads words and gaps of a plain scalar. Outside brackets its lines must not start left of
column `indent`. -/
def plainLines (start : Mark) (indent : Int) (f : Folding) : (rounds : Nat) → Reading Folding
  | 0 => fail .endless
  | rounds + 1 => do
    need 4
    if (← atAnyDocumentMark) || (← current) = '#' then pure f
    else
      let bound := (← get).rounds
      let f ← plainWord f bound
      let c ← current
      if isBlank c || isBreak c then
        need 1
        let f ← plainGap start indent f bound
        let s ← get
        if s.flow = 0 && s.mark.column < indent then pure f else plainLines start indent f rounds
      else pure f

/-- Reads a plain scalar. If a line has ended after it, a key may follow. -/
def plainScalar : Reading Sign := do
  let s ← get
  let f ← plainLines s.mark (s.indent + 1) {} s.rounds
  if f.broken then modify ({ · with keyAllowed := true })
  pure (.scalar f.text .plain)

/-! ### Quoted scalars -/

/-- The character that an escape of one letter stands for. -/
def escape? : Char → Option Char
  | '0' => some '\x00'
  | 'a' => some '\x07'
  | 'b' => some '\x08'
  | 't' => some '\t'
  | '\t' => some '\t'
  | 'n' => some '\n'
  | 'v' => some '\x0b'
  | 'f' => some '\x0c'
  | 'r' => some '\r'
  | 'e' => some '\x1b'
  | ' ' => some ' '
  | '"' => some '"'
  | '\'' => some '\''
  | '\\' => some '\\'
  | 'N' => some '\u0085'
  | '_' => some '\u00a0'
  | 'L' => some '\u2028'
  | 'P' => some '\u2029'
  | _ => none

/-- How many hexadecimal digits follow an escape. -/
def escapeLength? : Char → Option Nat
  | 'x' => some 2
  | 'u' => some 4
  | 'U' => some 8
  | _ => none

/-- The value of a hexadecimal digit. -/
def hexDigit? (c : Char) : Option Nat :=
  if c.isDigit then some (c.toNat - 48)
  else if 'a' ≤ c && c ≤ 'f' then some (c.toNat - 87)
  else if 'A' ≤ c && c ≤ 'F' then some (c.toNat - 55)
  else none

/-- The value of the next `n` hexadecimal digits, from `i` places on. -/
def hexCode (start : Mark) (i value : Nat) : (n : Nat) → Reading Nat
  | 0 => pure value
  | n + 1 => do
    match hexDigit? (← look i) with
    | some d => hexCode start (i + 1) (16 * value + d) n
    | none => failFrom start .notHexadecimal

/-- Reads an escape after its backslash has been seen. -/
def readEscape (start : Mark) : Reading Char := do
  let c ← look 1
  match escape? c, escapeLength? c with
  | some c, _ =>
    skipMany 2
    pure c
  | none, some n =>
    skipMany 2
    need n
    let code ← hexCode start 0 0 n
    if h : code.isValidChar then
      skipMany n
      pure (Char.ofNatAux code h)
    else failFrom start .badEscapeCode
  | none, none => failFrom start .unknownEscape

/-- Reads a word of a quoted scalar. An escaped line end ends it, and the gap begins. -/
def quotedWord (start : Mark) (single : Bool) (f : Folding) : (rounds : Nat) → Reading Folding
  | 0 => fail .endless
  | rounds + 1 => do
    let c ← current
    if isGap c || c = (if single then '\'' else '"') && !(single && (← look 1) = '\'') then pure f
    else if single && c = '\'' then
      skipMany 2
      need 2
      quotedWord start single (f.push c) rounds
    else if !single && c = '\\' && isBreak (← look 1) then
      need 3
      skip
      skipBreak
      pure { f with broken := true }
    else if !single && c = '\\' then
      let c ← readEscape start
      need 2
      quotedWord start single (f.push c) rounds
    else
      skip
      need 2
      quotedWord start single (f.push c) rounds

/-- Reads the gap after a word of a quoted scalar. -/
def quotedGap (f : Folding) : (rounds : Nat) → Reading Folding
  | 0 => fail .endless
  | rounds + 1 => do
    let c ← current
    if isBlank c then
      skip
      need 1
      quotedGap (f.blank c) rounds
    else if isBreak c then
      need 2
      let c ← readBreak
      need 1
      quotedGap (f.lineEnd c) rounds
    else pure f

/-- Reads words and gaps of a quoted scalar up to its closing quote. -/
def quotedLines (start : Mark) (single : Bool) (f : Folding) : (rounds : Nat) → Reading Folding
  | 0 => fail .endless
  | rounds + 1 => do
    need 4
    if ← atAnyDocumentMark then failFrom start .documentMark
    if isEnd (← current) then failFrom start .endOfFile
    let bound := (← get).rounds
    let f ← quotedWord start single f bound
    need 1
    if (← current) = (if single then '\'' else '"') then pure f
    else
      let f ← quotedGap f bound
      quotedLines start single f.join rounds

/-- Reads a quoted scalar. -/
def quotedScalar (single : Bool) : Reading Sign := do
  let s ← get
  skip
  let f ← quotedLines s.mark single {} s.rounds
  skip
  pure (.scalar f.text (if single then .singleQuoted else .doubleQuoted))

/-! ### Blocks -/

/-- What is done with line ends at the end of a block: all but the last are dropped, or all, or
none. -/
inductive Chomping where
  | clip
  | strip
  | keep
  deriving DecidableEq, Repr

/-- Reads a chomping sign, if there is one. -/
def chompingSign : Reading (Option Chomping) := do
  need 1
  match ← current with
  | '+' =>
    skip
    pure (some .keep)
  | '-' =>
    skip
    pure (some .strip)
  | _ => pure none

/-- Reads an indentation of one digit, if there is one. -/
def indentationSign (start : Mark) : Reading (Option Nat) := do
  need 1
  let c ← current
  if c = '0' then failFrom start .zeroIndentation
  else if c.isDigit then
    skip
    pure (some (c.toNat - 48))
  else pure none

/-- Reads the signs after that of a block: the chomping and the indentation, in either order. -/
def blockSigns (start : Mark) : Reading (Chomping × Option Nat) := do
  match ← chompingSign with
  | some chomping => pure (chomping, ← indentationSign start)
  | none =>
    match ← indentationSign start with
    | some n => pure ((← chompingSign).getD .clip, some n)
    | none => pure (.clip, none)

/-- Reads the rest of a line, on which only a comment may stand, and its end. -/
def restOfLine (start : Mark) : Reading Unit := do
  skipBlanks
  if (← current) = '#' then skipLine
  if !isBreakOrEnd (← current) then failFrom start .restOfLine
  if isBreak (← current) then
    need 2
    skipBreak

/-- Reads the indentation of a line of a block, up to the column `indent` if that is known. -/
def blockIndentation (indent : Nat) : (rounds : Nat) → Reading Unit
  | 0 => fail .endless
  | rounds + 1 => do
    if (indent = 0 || (← get).mark.column < indent) && (← current) = ' ' then
      skip
      need 1
      blockIndentation indent rounds

/-- Reads empty lines and the indentation of the next line of a block. Yields the line ends, latest
first, and the greatest column reached. -/
def blockBreaks (start : Mark) (indent : Nat) (breaks : List Char) (greatest : Nat) :
    (rounds : Nat) → Reading (List Char × Nat)
  | 0 => fail .endless
  | rounds + 1 => do
    need 1
    blockIndentation indent (← get).rounds
    let column := (← get).mark.column
    let greatest := max greatest column
    let c ← current
    if (indent = 0 || column < indent) && c = '\t' then failFrom start .tabIndentation
    if isBreak c then
      need 2
      let c ← readBreak
      blockBreaks start indent (c :: breaks) greatest rounds
    else pure (breaks, greatest)

/-- A block so far, in reverse: its text, the end of the last line, and the empty lines after it. -/
structure Block where
  done : List Char := []
  lastBreak : List Char := []
  emptyLines : List Char := []
  /-- Whether the last line started with a blank. -/
  blank : Bool := false

/-- The block with the line ends before the next line, which starts with a blank or not. A folded
block joins two lines by a blank, unless one of them starts with one. -/
def Block.join (b : Block) (folded nextBlank : Bool) : Block :=
  let ends :=
    if folded && !b.blank && !nextBlank && b.lastBreak = ['\n'] then
      if b.emptyLines = [] then [' '] else []
    else b.lastBreak
  { done := b.emptyLines ++ ends ++ b.done, blank := nextBlank }

/-- The text of a finished block. -/
def Block.text (b : Block) (chomping : Chomping) : Text :=
  let ends := match chomping with
    | .clip => b.lastBreak
    | .strip => []
    | .keep => b.emptyLines ++ b.lastBreak
  textOf (ends ++ b.done).reverse

/-- Reads the lines of a block at the column `indent`. -/
def blockLines (start : Mark) (folded : Bool) (indent : Nat) (b : Block) :
    (rounds : Nat) → Reading Block
  | 0 => fail .endless
  | rounds + 1 => do
    let c ← current
    if (← get).mark.column ≠ indent || isEnd c then pure b
    else
      let b := b.join folded (isBlank c)
      let bound := (← get).rounds
      let line ← readWhile (!isBreakOrEnd ·) [] bound
      need 2
      let lastBreak ← if isBreak (← current) then pure [← readBreak] else pure []
      let (emptyLines, _) ← blockBreaks start indent [] 0 bound
      blockLines start folded indent
        { b with done := line.reverse ++ b.done, lastBreak, emptyLines } rounds

/-- Reads a block. Its indentation is given after its sign, or that of its first line that is not
empty. -/
def blockScalar (folded : Bool) : Reading Sign := do
  let s ← get
  let start := s.mark
  skip
  let (chomping, increment) ← blockSigns start
  restOfLine start
  let given : Nat := match increment with
    | some n => (max s.indent 0).toNat + n
    | none => 0
  let (emptyLines, greatest) ← blockBreaks start given [] 0 s.rounds
  let indent := if given = 0 then max greatest (max (s.indent + 1).toNat 1) else given
  need 1
  let b ← blockLines start folded indent { emptyLines } s.rounds
  pure (.scalar (b.text chomping) (if folded then .folded else .literal))

end Reading

end Lox.Yaml
