import Lox.Yaml.Characters
import Lox.Yaml.Token

/-!
# Reading a YAML file

The state of reading a file, and the steps that move over blanks, line ends and comments. Tokens
that have been found wait in a queue, since a scalar turns out to be a key only at the colon after
it; then a token for the key is put in front of it.

## Design notes

Characters count as read a block at a time. What is not read cannot be at fault, so every step asks
for just as many characters as it looks at. Loops are bounded by `Reader.rounds`, which exceeds
the number of characters in the file.
-/

namespace Lox.Yaml

/-- A place at which a key may have started that no sign announces, and the number of its token. On
its own level of indentation it must turn out to be one. -/
structure SimpleKey where
  possible : Bool := false
  required : Bool := false
  number : Nat := 0
  mark : Mark := {}
  deriving DecidableEq, Repr

/-- The state of reading a file. -/
structure Reader where
  /-- The characters from the current one on. -/
  rest : List Char
  /-- How many of them have been read. -/
  unread : Nat := 0
  /-- The sizes of the blocks that have not been read. -/
  blocks : List Nat
  /-- What comes after all characters, if it is not the end. -/
  unreadable : Option Unreadable
  /-- Whether the characters held since the last reading start with a byte order mark. -/
  headIsMark : Bool := false
  mark : Mark := {}
  /-- How many line ends there are since the last sign. -/
  breaks : Nat := 0
  /-- The column of the innermost block, and of those around it. -/
  indent : Int := -1
  indents : List Int := []
  /-- How many brackets and braces are open. -/
  flow : Nat := 0
  /-- The possible key on each level of brackets, innermost first. -/
  keys : List SimpleKey := [{}]
  /-- The level of brackets of possible keys, by the numbers of their tokens. -/
  levels : List (Nat × Nat) := []
  /-- Whether a key may start at the current character. -/
  keyAllowed : Bool := true
  /-- The tokens that have been found and not been taken. -/
  queue : List Token := []
  /-- How many tokens have been taken. -/
  taken : Nat := 0
  /-- A bound on the rounds of loops. -/
  rounds : Nat

/-- The start of a file. -/
def Reader.ofBytes (t : Text) : Reader :=
  let file := Characters.ofBytes t
  { rest := file.chars, blocks := file.blocks, unreadable := file.unreadable,
    rounds := file.chars.length + 8 }

/-- A step that reads. -/
abbrev Reading := StateT Reader (Except Fault)

/-! ### Kinds of characters; the character zero stands for the end -/

/-- A blank within a line. -/
def isBlank (c : Char) : Bool := c = ' ' || c = '\t'

/-- A line end. -/
def isBreak (c : Char) : Bool :=
  c = '\r' || c = '\n' || c = '\u0085' || c = '\u2028' || c = '\u2029'

/-- The end of the file. -/
def isEnd (c : Char) : Bool := c = '\x00'

/-- The end of a line. -/
def isBreakOrEnd (c : Char) : Bool := isBreak c || isEnd c

/-- Where a word ends. -/
def isGap (c : Char) : Bool := isBlank c || isBreakOrEnd c

/-- A character of a name. -/
def isNamePart (c : Char) : Bool := c.isAlphanum || c = '_' || c = '-'

namespace Reading

/-! ### Faults -/

/-- Fails at a place that began at a mark. The line is that of the beginning, or the current one
if that is the first; lines count from one. -/
def failFrom {α : Type} (start : Mark) (problem : Problem) : Reading α := do
  let here := (← get).mark.line
  let line := if start.line ≠ 0 then start.line + 1 else if here ≠ 0 then here + 1 else 0
  throw ⟨line, problem⟩

/-- Fails at the current place. -/
def fail {α : Type} (problem : Problem) : Reading α := do failFrom (← get).mark problem

/-! ### Characters -/

/-- Reads blocks until `n` characters have been read or there are no more: how many have been
read, and the blocks left. -/
def load (n unread : Nat) : List Nat → Option (Nat × List Nat)
  | [] => none
  | size :: blocks =>
    if unread + size < n then load n (unread + size) blocks else some (unread + size, blocks)

/-- Makes sure that `n` characters have been read. Past the end there is one more each time. -/
def need (n : Nat) : Reading Unit := do
  let s ← get
  if s.unread < n then
    let headIsMark := s.rest.head? = some '\ufeff'
    match load n s.unread s.blocks with
    | some (unread, blocks) => set { s with unread, blocks, headIsMark }
    | none =>
      match s.unreadable with
      | some why => throw ⟨0, .unreadable why⟩
      | none =>
        let left := s.blocks.foldl (· + ·) 0
        set { s with unread := s.unread + left + 1, blocks := [], headIsMark }

/-- The character `i` places on. -/
def look (i : Nat) : Reading Char := return ((← get).rest[i]?).getD '\x00'

/-- The current character. -/
def current : Reading Char := look 0

/-- Moves over a character within a line. -/
def skip : Reading Unit := modify fun s =>
  { s with
    rest := s.rest.tail
    unread := s.unread - 1
    mark := { s.mark with index := s.mark.index + 1, column := s.mark.column + 1 }
    breaks := if s.rest.head?.any isBlank then s.breaks else 0 }

/-- Moves over `n` characters within a line. -/
def skipMany : (n : Nat) → Reading Unit
  | 0 => pure ()
  | n + 1 => do skip; skipMany n

/-- Moves over a line end. -/
def skipBreak : Reading Unit := modify fun s =>
  let after (n : Nat) : Reader :=
    { s with
      rest := s.rest.drop n
      unread := s.unread - n
      mark := ⟨s.mark.index + n, s.mark.line + 1, 0⟩
      breaks := s.breaks + 1 }
  match s.rest with
  | '\r' :: '\n' :: _ => after 2
  | c :: _ => if isBreak c then after 1 else s
  | [] => s

/-- Moves over a line end and yields it: all but the separators of lines and paragraphs count as
newlines. -/
def readBreak : Reading Char := do
  let c ← current
  skipBreak
  pure (if c = '\u2028' || c = '\u2029' then c else '\n')

/-- Moves over the characters of a kind. -/
def skipWhile (p : Char → Bool) : (rounds : Nat) → Reading Unit
  | 0 => fail .endless
  | rounds + 1 => do
    if p (← current) then
      skip
      need 1
      skipWhile p rounds

/-- Moves over the characters of a kind and yields them. -/
def readWhile (p : Char → Bool) (done : List Char) : (rounds : Nat) → Reading (List Char)
  | 0 => fail .endless
  | rounds + 1 => do
    let c ← current
    if p c then
      skip
      need 1
      readWhile p (c :: done) rounds
    else pure done.reverse

/-- Moves over blanks. -/
def skipBlanks : Reading Unit := do
  need 1
  skipWhile isBlank (← get).rounds

/-- Moves to the end of the line. -/
def skipLine : Reading Unit := do
  need 1
  skipWhile (!isBreakOrEnd ·) (← get).rounds

/-- Whether a mark between documents comes next, at the start of a line. -/
def atDocumentMark (c : Char) : Reading Bool := do
  pure ((← get).mark.column = 0 && (← look 0) = c && (← look 1) = c && (← look 2) = c
    && isGap (← look 3))

/-- Whether either mark between documents comes next. -/
def atAnyDocumentMark : Reading Bool := do
  if ← atDocumentMark '-' then pure true else atDocumentMark '.'

/-! ### Comments -/

/-- How far ahead comments are looked for. -/
def commentReach : Nat := 512

/-- The distance to a comment that only blanks keep apart, at most `reach` from `i` on. -/
def commentAhead (i : Nat) : (reach : Nat) → Reading (Option Nat)
  | 0 => pure none
  | reach + 1 => do
    need (i + 1)
    let c ← look i
    if isBlank c then commentAhead (i + 1) reach
    else pure (if c = '#' then some i else none)

/-- Moves over a comment on the line of the last sign. -/
def skipLineComment : Reading Unit := do
  if (← get).breaks = 0 then
    match ← commentAhead 0 commentReach with
    | some i =>
      skipMany i
      skipLine
    | none => pure ()

/-- The distance to a comment that only blanks and line ends keep apart. -/
def nextCommentAhead (i : Nat) : (reach : Nat) → Reading (Option Nat)
  | 0 => pure none
  | reach + 1 => do
    need (i + 1)
    let c ← look i
    if isBlank c || c = '\r' || c = '\n' then nextCommentAhead (i + 1) reach
    else pure (if c = '#' then some i else none)

/-- Moves over blanks and line ends up to a distance. -/
def skipTo (index : Nat) : (rounds : Nat) → Reading Unit
  | 0 => fail .endless
  | rounds + 1 => do
    if (← get).mark.index < index then
      need 1
      if isBreak (← current) then
        need 2
        skipBreak
      else skip
      skipTo index rounds

/-- Moves over a comment and the comments on the lines after it. -/
def skipComments : (rounds : Nat) → Reading Unit
  | 0 => fail .endless
  | rounds + 1 => do
    skipLine
    let c ← current
    if c = '\r' || c = '\n' || isEnd c then
      match ← nextCommentAhead 1 (commentReach - 1) with
      | some i =>
        skipTo ((← get).mark.index + i) (i + 1)
        skipComments rounds
      | none => pure ()

/-! ### To the next token -/

/-- Moves to the next token. A line end makes a key possible outside brackets; where a key is
possible there, tabs do not count as blanks. -/
def skipGap : (rounds : Nat) → Reading Unit
  | 0 => fail .endless
  | rounds + 1 => do
    need 1
    let s ← get
    if s.mark.column = 0 && s.headIsMark then skip
    need 1
    let s ← get
    skipWhile (fun c => c = ' ' || ((0 < s.flow || !s.keyAllowed) && c = '\t')) s.rounds
    if (← current) = '#' then skipComments s.rounds
    if isBreak (← current) then
      need 2
      skipBreak
      if s.flow = 0 then modify ({ · with keyAllowed := true })
      skipGap rounds

end Reading

end Lox.Yaml
