import Lox.Yaml.Meaning
import Lox.Yaml.Token.Next

/-!
# The tree of a document

The tokens of a file make a tree of scalars, sequences and mappings. Nodes can be named by anchors,
and references stand for the node that was named last. Only the first document of a file counts;
what comes after it is not looked at, beyond the tokens that are read ahead.

## Design notes

A node is named before its content is read, so a reference can stand within the node that it stands
for. That is why references hold a number and no node.
-/

namespace Lox.Yaml

/-- A tree. Every node has the line it starts on and a short tag, and a reference the place where it
stands, its name, and the number of the named node. -/
inductive Node where
  | scalar (line : Nat) (tag value : Text)
  | sequence (line : Nat) (tag : Text) (items : List Node)
  | mapping (line : Nat) (tag : Text) (entries : List (Node × Node))
  | reference (line place : Nat) (name : Text) (target : Nat)

namespace Node

/-- The line on which a node starts. -/
def line : Node → Nat
  | scalar line _ _ | sequence line _ _ | mapping line _ _ | reference line _ _ _ => line

/-- A scalar as it is written. Without a tag of its own, quoted ones are texts. -/
def ofScalar (mark : Mark) (tag value : Text) (style : Style) : Node :=
  let tag :=
    if tag ≠ [] && tag ≠ "!" then Tag.short tag
    else if style ≠ .plain then Tag.text
    else if value = "<<" then Tag.merge
    else (Meaning.ofPlain true value).tag
  scalar (mark.line + 1) tag value

/-- The tag of a sequence or mapping: its own, or else the usual one. -/
def collectionTag (tag usual : Text) : Text :=
  if tag ≠ [] && tag ≠ "!" then Tag.short tag else usual

/-- Nothing, where a node could stand. -/
def absent (mark : Mark) : Node := scalar (mark.line + 1) Tag.null []

end Node

/-- What is known while nodes are made. -/
structure Names where
  /-- What handles stand for. -/
  handles : List (Text × Text) := []
  /-- The numbers of the nodes that have been named, the latest first. -/
  anchors : List (Text × Nat) := []
  /-- The named nodes that have been finished. -/
  nodes : List (Nat × Node) := []

/-- A step that makes nodes of tokens. -/
abbrev Composing := StateT Names Reading

namespace Composing

/-- The next token. -/
def peek : Composing Token := Reading.peek

/-- Takes the next token. -/
def take : Composing Unit := Reading.take

/-- Fails at a token that does not belong into what began at a mark. The line is that of the
beginning, or that of the token if that is the first; lines count from zero. -/
def failAt {α : Type} (start found : Mark) (problem : Problem) : Composing α :=
  throw ⟨if start.line ≠ 0 then start.line else found.line, problem⟩

/-! ### Anchors and tags -/

/-- Takes an anchor, if there is one. -/
def anchor? : Composing (Option Text) := do
  match (← peek).sign with
  | .anchor name =>
    take
    pure (some name)
  | _ => pure none

/-- A tag with where it stands: its handle and the rest of it. -/
structure WrittenTag where
  mark : Mark
  handle : Text
  suffix : Text

/-- Takes a tag, if there is one. -/
def tag? : Composing (Option WrittenTag) := do
  let token ← peek
  match token.sign with
  | .tag handle suffix =>
    take
    pure (some ⟨token.mark, handle, suffix⟩)
  | _ => pure none

/-- Takes an anchor and a tag, in either order. -/
def properties : Composing (Option Text × Option WrittenTag) := do
  let anchor ← anchor?
  let tag ← tag?
  match anchor, tag with
  | none, some _ => pure (← anchor?, tag)
  | _, _ => pure (anchor, tag)

/-- A tag in full; empty if there is none. -/
def fullTag (start : Mark) : Option WrittenTag → Composing Text
  | none => pure []
  | some tag => do
    if tag.handle = [] then pure tag.suffix
    else match (← get).handles.lookup tag.handle with
      | some stem => pure (stem ++ tag.suffix)
      | none => failAt start tag.mark .undefinedHandle

/-- Makes a node that may have a name. Its content can already refer to it. -/
def named (anchor : Option Text) (content : Composing Node) : Composing Node := do
  match anchor with
  | none => content
  | some name =>
    let number := (← get).anchors.length
    modify fun names => { names with anchors := (name, number) :: names.anchors }
    let node ← content
    modify fun names => { names with nodes := (number, node) :: names.nodes }
    pure node

/-- The node that a reference stands for. -/
def reference (mark : Mark) (name : Text) : Composing Node := do
  match (← get).anchors.lookup name with
  | some target => pure (.reference (mark.line + 1) mark.index name target)
  | none => throw ⟨0, .unknownAnchor name⟩

/-! ### Nodes -/

/-- An empty scalar, where there is an anchor or a tag and nothing else. -/
def orEmpty (start found : Mark) (anchor : Option Text) (tag : Text) : Composing Node :=
  if anchor.isSome || tag ≠ [] then named anchor (pure (.ofScalar start tag [] .plain))
  else failAt start found .noContent

mutual

/-- Makes a node. `block` allows blocks, and `bare` items without a block of their own. -/
def node (block bare : Bool) : (rounds : Nat) → Composing Node
  | 0 => throw ⟨0, .endless⟩
  | rounds + 1 => do
    let first ← peek
    match first.sign with
    | .reference name =>
      take
      reference first.mark name
    | _ =>
      let start := first.mark
      let (anchor, written) ← properties
      let token ← peek
      let tag ← fullTag start written
      let line := start.line + 1
      match token.sign with
      | .scalar text style =>
        take
        named anchor (pure (.ofScalar start tag text style))
      | .item =>
        if bare then
          named anchor do
            pure (.sequence line (Node.collectionTag tag Tag.sequence) (← bareItems [] rounds))
        else orEmpty start token.mark anchor tag
      | .openBracket =>
        take
        named anchor do
          let items ← bracketItems token.mark true [] rounds
          pure (.sequence line (Node.collectionTag tag Tag.sequence) items)
      | .openBrace =>
        take
        named anchor do
          let entries ← braceEntries token.mark true [] rounds
          pure (.mapping line (Node.collectionTag tag Tag.mapping) entries)
      | .sequenceStart =>
        if block then
          take
          named anchor do
            let items ← blockItems token.mark [] rounds
            pure (.sequence line (Node.collectionTag tag Tag.sequence) items)
        else orEmpty start token.mark anchor tag
      | .mappingStart =>
        if block then
          take
          named anchor do
            let entries ← blockEntries token.mark [] rounds
            pure (.mapping line (Node.collectionTag tag Tag.mapping) entries)
        else orEmpty start token.mark anchor tag
      | _ => orEmpty start token.mark anchor tag

/-- Makes a node, unless the next token is one of those that end what it stands in. -/
def nodeUnless (ends : List Sign) (mark : Mark) (block bare : Bool) :
    (rounds : Nat) → Composing Node
  | 0 => throw ⟨0, .endless⟩
  | rounds + 1 => do
    if (← peek).sign ∈ ends then pure (.absent mark) else node block bare rounds

/-- Makes the items of a block. -/
def blockItems (start : Mark) (done : List Node) : (rounds : Nat) → Composing (List Node)
  | 0 => throw ⟨0, .endless⟩
  | rounds + 1 => do
    let token ← peek
    match token.sign with
    | .item =>
      take
      let item ← nodeUnless [.item, .blockEnd] token.mark true false rounds
      blockItems start (item :: done) rounds
    | .blockEnd =>
      take
      pure done.reverse
    | _ => failAt start token.mark .noItem

/-- Makes items that stand at the column of the mapping around them. -/
def bareItems (done : List Node) : (rounds : Nat) → Composing (List Node)
  | 0 => throw ⟨0, .endless⟩
  | rounds + 1 => do
    let token ← peek
    match token.sign with
    | .item =>
      take
      let item ← nodeUnless [.item, .key, .value, .blockEnd] token.mark true false rounds
      bareItems (item :: done) rounds
    | _ => pure done.reverse

/-- Makes the entries of a block. -/
def blockEntries (start : Mark) (done : List (Node × Node)) :
    (rounds : Nat) → Composing (List (Node × Node))
  | 0 => throw ⟨0, .endless⟩
  | rounds + 1 => do
    let token ← peek
    match token.sign with
    | .key =>
      take
      let key ← nodeUnless [.key, .value, .blockEnd] token.mark true true rounds
      let token ← peek
      let value ← if token.sign = .value then do
          take
          nodeUnless [.key, .value, .blockEnd] token.mark true true rounds
        else pure (.absent token.mark)
      blockEntries start ((key, value) :: done) rounds
    | .blockEnd =>
      take
      pure done.reverse
    | _ => failAt start token.mark .noKey

/-- Makes the items between brackets. -/
def bracketItems (start : Mark) (first : Bool) (done : List Node) :
    (rounds : Nat) → Composing (List Node)
  | 0 => throw ⟨0, .endless⟩
  | rounds + 1 => do
    let token ← peek
    if !first && token.sign = .comma then take
    else if !first && token.sign ≠ .closeBracket then failAt start token.mark .noItemEnd
    let token ← peek
    match token.sign with
    | .closeBracket =>
      take
      pure done.reverse
    | .key =>
      take
      let item ← pair token.mark rounds
      bracketItems start false (item :: done) rounds
    | _ =>
      let item ← node false false rounds
      bracketItems start false (item :: done) rounds

/-- Makes a mapping of one entry, which stands between brackets without braces. -/
def pair (mark : Mark) : (rounds : Nat) → Composing Node
  | 0 => throw ⟨0, .endless⟩
  | rounds + 1 => do
    let token ← peek
    let key ← if token.sign ∈ [.value, .comma, .closeBracket] then do
        take
        pure (.absent token.mark)
      else node false false rounds
    let token ← peek
    let value ← if token.sign = .value then do
        take
        nodeUnless [.comma, .closeBracket] token.mark false false rounds
      else pure (.absent token.mark)
    let _ ← peek
    pure (.mapping (mark.line + 1) Tag.mapping [(key, value)])

/-- Makes the entries between braces. -/
def braceEntries (start : Mark) (first : Bool) (done : List (Node × Node)) :
    (rounds : Nat) → Composing (List (Node × Node))
  | 0 => throw ⟨0, .endless⟩
  | rounds + 1 => do
    let token ← peek
    if !first && token.sign = .comma then take
    else if !first && token.sign ≠ .closeBrace then failAt start token.mark .noEntryEnd
    let token ← peek
    match token.sign with
    | .closeBrace =>
      take
      pure done.reverse
    | .key =>
      take
      let next ← peek
      let key ← nodeUnless [.value, .comma, .closeBrace] next.mark false false rounds
      let token ← peek
      let value ← if token.sign = .value then do
          take
          let next ← peek
          nodeUnless [.comma, .closeBrace] next.mark false false rounds
        else pure (.absent token.mark)
      braceEntries start false ((key, value) :: done) rounds
    | _ =>
      let key ← node false false rounds
      let token ← peek
      braceEntries start false ((key, .absent token.mark) :: done) rounds

end

/-! ### Documents -/

/-- The handles that need not be defined. -/
def usualHandles : List (Text × Text) := [("!", "!"), ("!!", Tag.stem)]

/-- Reads the directives before a document. -/
def directives (versioned : Bool) : (rounds : Nat) → Composing Unit
  | 0 => throw ⟨0, .endless⟩
  | rounds + 1 => do
    let token ← peek
    match token.sign with
    | .version major minor =>
      if versioned then failAt {} token.mark .duplicateVersion
      if major ≠ 1 || minor ≠ 1 then failAt {} token.mark .badVersion
      take
      directives true rounds
    | .handle name stem =>
      let names ← get
      if (names.handles.lookup name).isSome then failAt {} token.mark .duplicateHandle
      set { names with handles := names.handles ++ [(name, stem)] }
      take
      directives versioned rounds
    | _ => pure ()

/-- Makes the first document, if there is one. -/
def document (rounds : Nat) : Composing (Option Node) := do
  let token ← peek
  let root ← match token.sign with
    | .streamEnd => return none
    | .version _ _ | .handle _ _ | .documentStart => do
      directives false rounds
      let token ← peek
      if token.sign ≠ .documentStart then failAt {} token.mark .noDocumentStart
      take
      modify fun names => { names with handles := names.handles ++ usualHandles }
      let token ← peek
      match token.sign with
      | .version _ _ | .handle _ _ | .documentStart | .documentEnd | .streamEnd =>
        pure (.absent token.mark)
      | _ => node true false rounds
    | _ => do
      modify fun names => { names with handles := usualHandles }
      node true false rounds
  let _ ← peek
  pure (some root)

end Composing

/-- A tree with the nodes that its references stand for. -/
structure Document where
  root : Node
  named : List (Nat × Node)
  /-- A bound on how many nodes there are. -/
  size : Nat

namespace Document

/-- The first document of a file, if there is one. -/
def ofBytes (t : Text) : Except Fault (Option Document) := do
  let reader := Reader.ofBytes t
  let ((root, names), reader) ← (Composing.document (8 * reader.rounds)).run {} |>.run reader
  pure (root.map fun root => ⟨root, names.nodes, reader.taken + 1⟩)

/-- The node that a node stands for: itself, unless it is a reference. -/
def follow (d : Document) : Node → Node
  | .reference line place name target =>
    (d.named.lookup target).getD (.reference line place name target)
  | n => n

end Document

end Lox.Yaml
