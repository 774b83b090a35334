import Lox.Yaml.Token.Property

/-!
# Tokens in order

A token that could be a key without a sign waits in the queue until it is clear what it is: at a
colon on the same line, not too far on, a token for the key is put in front of it, and one for the
start of its mapping if the key stands further right than the block around it. Blocks end where the
text returns to the left.

## Design notes

Before a token is handed out, two more have been read, and everything up to the point where it is
clear whether it is a key. A fault in those comes before any fault in how tokens follow each other.
-/

namespace Lox.Yaml

namespace Reader

/-- The number that the next token to be queued will have. -/
def nextNumber (s : Reader) : Nat := s.taken + s.queue.length

/-- Queues a sign after all others. -/
def queueSign (s : Reader) (sign : Sign) (mark : Mark) : Reader :=
  { s with queue := s.queue ++ [⟨sign, mark⟩] }

/-- Queues a sign in front of the token with a number. -/
def insertSign (s : Reader) (number : Nat) (sign : Sign) (mark : Mark) : Reader :=
  { s with queue := s.queue.insertIdx (number - s.taken) ⟨sign, mark⟩ }

/-- The possible key on the innermost level of brackets. -/
def key (s : Reader) : SimpleKey := s.keys.headD {}

/-- Forgets at which level the key with a number is. -/
def forget (s : Reader) (number : Nat) : Reader :=
  { s with levels := s.levels.filter (·.1 ≠ number) }

/-- Replaces the possible key on a level; levels count from the outermost. -/
def setKey (s : Reader) (level : Nat) (key : SimpleKey) : Reader :=
  { s with keys := s.keys.set (s.flow - level) key }

/-- Replaces the possible key on the innermost level. -/
def setInnerKey (s : Reader) (key : SimpleKey) : Reader := { s with keys := key :: s.keys.tail }

end Reader

namespace Reading

/-! ### Keys without a sign -/

/-- How many characters on a colon may stand after its key. -/
def keyReach : Nat := 1024

/-- How deep brackets and blocks may be nested. -/
def depthLimit : Nat := 10000

/-- Whether the possible key on a level still stands; if its colon would come too late, it is given
up. -/
def keyStands (level : Nat) : Reading Bool := do
  let s ← get
  match s.keys[s.flow - level]? with
  | none => pure false
  | some key =>
    if !key.possible then pure false
    else if key.mark.line < s.mark.line || key.mark.index + keyReach < s.mark.index then
      if key.required then failFrom key.mark .keyWithoutColon
      set (s.setKey level { key with possible := false })
      pure false
    else pure true

/-- Gives up the possible key on the innermost level. -/
def dropKey : Reading Unit := do
  let s ← get
  let key := s.key
  if key.possible then
    if key.required then failFrom key.mark .keyWithoutColon
    set ((s.setInnerKey { key with possible := false }).forget key.number)

/-- Notes that the next token may be a key. -/
def saveKey : Reading Unit := do
  let s ← get
  if s.keyAllowed then
    let required := s.flow = 0 && s.indent = s.mark.column
    dropKey
    modify fun s =>
      let key := ⟨true, required, s.nextNumber, s.mark⟩
      let levels := s.levels.filter (s.taken ≤ ·.1)
      { s.setInnerKey key with levels := (s.nextNumber, s.flow) :: levels }

/-- Says whether a key may start at the current character. -/
def allowKey (allowed : Bool) : Reading Unit := modify ({ · with keyAllowed := allowed })

/-! ### Blocks -/

/-- Starts a block at a column, if it is further right than the one around it and not in brackets.
`queued` puts the sign for it into the queue. -/
def openBlock (column : Nat) (queued : Reader → Reader) : Reading Unit := do
  let s ← get
  if s.flow = 0 && s.indent < column then
    if depthLimit < s.indents.length + 1 then failFrom s.key.mark .tooDeep
    set (queued { s with indent := column, indents := s.indent :: s.indents })

/-- The state after the ends of all blocks that are further right than a column. -/
def endBlocks (column : Int) (mark : Mark) (s : Reader) : (indents : List Int) → Reader
  | [] => s
  | outer :: indents =>
    if column < s.indent then
      endBlocks column mark { s.queueSign .blockEnd mark with indent := outer, indents } indents
    else s

/-- Ends all blocks that are further right than a column. In brackets there are none. -/
def closeBlocks (column : Int) (mark : Mark) : Reading Unit := modify fun s =>
  if s.flow = 0 then endBlocks column mark s s.indents else s

/-! ### Tokens -/

/-- Queues a sign that starts at a mark. -/
def queueAt (mark : Mark) (sign : Sign) : Reading Unit := modify (·.queueSign sign mark)

/-- Queues a sign of `width` characters. -/
def queueSkipping (width : Nat) (sign : Sign) : Reading Unit := do
  let mark := (← get).mark
  skipMany width
  queueAt mark sign

/-- Reads the end of the file. -/
def fetchEnd : Reading Unit := do
  modify fun s =>
    if s.mark.column = 0 then s
    else { s with mark := { s.mark with line := s.mark.line + 1, column := 0 } }
  closeBlocks (-1) (← get).mark
  dropKey
  allowKey false
  queueAt (← get).mark .streamEnd

/-- Reads what stands between documents. -/
def fetchBetween (read : Reading Sign) : Reading Unit := do
  let mark := (← get).mark
  closeBlocks (-1) mark
  dropKey
  allowKey false
  queueAt mark (← read)

/-- Reads an opening bracket or brace. -/
def fetchOpening (sign : Sign) : Reading Unit := do
  saveKey
  modify fun s =>
    { s with flow := s.flow + 1, keys := ⟨false, false, s.nextNumber, s.mark⟩ :: s.keys }
  let s ← get
  if depthLimit < s.flow then failFrom s.key.mark .tooDeep
  allowKey true
  queueSkipping 1 sign

/-- Reads a closing bracket or brace. -/
def fetchClosing (sign : Sign) : Reading Unit := do
  dropKey
  modify fun s =>
    if s.flow = 0 then s
    else { s.forget s.key.number with flow := s.flow - 1, keys := s.keys.tail }
  allowKey false
  queueSkipping 1 sign

/-- Reads a comma. -/
def fetchComma : Reading Unit := do
  dropKey
  allowKey true
  queueSkipping 1 .comma

/-- Makes sure that outside brackets a sign may stand here, and starts its block. -/
def fetchOutside (problem : Problem) (block : Sign) : Reading Unit := do
  let s ← get
  if s.flow = 0 then
    if !s.keyAllowed then fail problem
    openBlock s.mark.column (·.queueSign block s.mark)

/-- Reads the sign of an item. -/
def fetchItem : Reading Unit := do
  fetchOutside .misplacedItem .sequenceStart
  dropKey
  allowKey true
  queueSkipping 1 .item

/-- Reads the sign of a key. -/
def fetchKey : Reading Unit := do
  fetchOutside .misplacedKey .mappingStart
  dropKey
  allowKey ((← get).flow = 0)
  queueSkipping 1 .key

/-- Reads the sign of a value. If a key without a sign stands before it, its tokens are put in front
of it. -/
def fetchValue : Reading Unit := do
  if ← keyStands (← get).flow then
    let key := (← get).key
    modify (·.insertSign key.number .key key.mark)
    openBlock key.mark.column (·.insertSign key.number .mappingStart key.mark)
    modify fun s => (s.setInnerKey { key with possible := false }).forget key.number
    allowKey false
  else
    fetchOutside .misplacedValue .mappingStart
    allowKey ((← get).flow = 0)
  queueSkipping 1 .value

/-- Reads what may be a key or stand in front of one. -/
def fetchContent (read : Reading Sign) : Reading Unit := do
  saveKey
  allowKey false
  let mark := (← get).mark
  queueAt mark (← read)

/-- Reads a block of lines. -/
def fetchBlock (folded : Bool) : Reading Unit := do
  dropKey
  allowKey true
  let mark := (← get).mark
  queueAt mark (← blockScalar folded)

/-- The signs with which a plain scalar cannot start. -/
def signs : List Char :=
  ['-', '?', ':', ',', '[', ']', '{', '}', '#', '&', '*', '!', '|', '>', '\'', '"', '%', '@', '\x60']

/-- Reads a token within a document, of which the first two characters are given. -/
def fetchSign (c next : Char) : Reading Unit := do
  let inBrackets := 0 < (← get).flow
  if c = '[' then fetchOpening .openBracket
  else if c = '{' then fetchOpening .openBrace
  else if c = ']' then fetchClosing .closeBracket
  else if c = '}' then fetchClosing .closeBrace
  else if c = ',' then fetchComma
  else if c = '-' && isGap next then fetchItem
  else if c = '?' && (inBrackets || isGap next) then fetchKey
  else if c = ':' && (inBrackets || isGap next) then fetchValue
  else if c = '*' then fetchContent (.reference <$> name)
  else if c = '&' then fetchContent (.anchor <$> name)
  else if c = '!' then fetchContent tag
  else if c = '|' && !inBrackets then fetchBlock false
  else if c = '>' && !inBrackets then fetchBlock true
  else if c = '\'' then fetchContent (quotedScalar true)
  else if c = '"' then fetchContent (quotedScalar false)
  else if !(isGap c || c ∈ signs) || c = '-' || (!inBrackets && (c = '?' || c = ':')) then
    fetchContent plainScalar
  else fail .noToken

/-- Reads one more token, with the comment after it. -/
def fetch : Reading Unit := do
  need 1
  let before := (← get).mark
  skipGap (← get).rounds
  closeBlocks (← get).mark.column before
  need 4
  let c ← current
  if isEnd c then fetchEnd
  else if c = '%' && (← get).mark.column = 0 then fetchBetween directive
  else if ← atDocumentMark '-' then fetchBetween (do skipMany 3; pure .documentStart)
  else if ← atDocumentMark '.' then fetchBetween (do skipMany 3; pure .documentEnd)
  else
    fetchSign c (← look 1)
    if (← get).queue.getLast?.map Token.sign ≠ some .item then skipLineComment

/-! ### The queue -/

/-- How many tokens are read before one is handed out. -/
def lookahead : Nat := 3

/-- Reads tokens until the first one in the queue is clear. -/
def settle : (rounds : Nat) → Reading Unit
  | 0 => fail .endless
  | rounds + 1 => do
    let s ← get
    let level := (s.levels.find? (·.1 = s.taken)).map Prod.snd
    let unclear ← if s.queue.length < lookahead then pure true
      else match level with
        | none => pure false
        | some level => keyStands level
    if unclear then
      fetch
      settle rounds

/-- The next token. -/
def peek : Reading Token := do
  settle ((← get).rounds + lookahead)
  let s ← get
  pure (s.queue.headD ⟨.streamEnd, s.mark⟩)

/-- Takes the next token. -/
def take : Reading Unit := modify fun s => { s with queue := s.queue.tail, taken := s.taken + 1 }

end Reading

end Lox.Yaml
