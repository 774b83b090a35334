import Lox.Text.Quoted
import Lox.Yaml.Node

/-!
# Settings

A settings file is a YAML mapping with known keys. Everything in it that does not fit is noted, and
the file counts only if nothing is. Nulls say nothing. The key `<<` merges other mappings into the
one around it: what that one says itself goes first, then the merged ones in order.
-/

namespace Lox

open Yaml

/-- What a settings file says. -/
structure Settings where
  moduleRoot : Option Text := none
  exclude : Option (List Text) := none
  respectIgnores : Option Bool := none
  maxCallDepth : Option Int := none
  logLevel : Option Text := none
  historyFile : Option Text := none
  prompt : Option Text := none
  deriving DecidableEq, Repr

namespace Settings

/-- The keys of a settings file. -/
inductive Field where
  | moduleRoot
  | exclude
  | respectIgnores
  | maxCallDepth
  | logLevel
  | historyFile
  | prompt
  deriving DecidableEq, Repr

/-- The field with a key. -/
def Field.ofKey? (key : Text) : Option Field :=
  if key = "module_root" then some moduleRoot
  else if key = "exclude" then some exclude
  else if key = "respect_gitignore" then some respectIgnores
  else if key = "max_call_depth" then some maxCallDepth
  else if key = "log_level" then some logLevel
  else if key = "history_file" then some historyFile
  else if key = "prompt" then some prompt
  else none

/-- What is asked of a node. For some values it matters whether they are there at all. -/
inductive Wanted where
  | text
  | texts
  | truth
  | integer
  | settings
  | maybe (wanted : Wanted)
  deriving DecidableEq, Repr

/-- The kind of value in words. -/
def Wanted.name : Wanted → Text
  | text => "string"
  | texts => "[]string"
  | truth => "bool"
  | integer => "int"
  | settings => "driver.configFile"
  | maybe wanted => "*" ++ wanted.name

/-- What does not fit in a settings file, with its line. -/
inductive Mismatch where
  | wrongKind (line : Nat) (tag value : Text) (wanted : Wanted)
  | repeatedKey (line : Nat) (key : Text) (first : Nat)
  | repeatedField (line : Nat) (key : Text)
  | unknownField (line : Nat) (key : Text)
  deriving DecidableEq, Repr

/-- A value as it is shown in messages: the first bytes of it. -/
def Mismatch.shown (tag value : Text) : Text :=
  if tag = Tag.sequence ∨ tag = Tag.mapping then value
  else if value.length ≤ 10 then " \x60" ++ value ++ "\x60"
  else " \x60" ++ value.take 7 ++ "...\x60"

/-- The mismatch in words. -/
def Mismatch.message : Mismatch → Text
  | wrongKind line tag value wanted =>
    "line " ++ Text.ofNat line ++ ": cannot unmarshal " ++ tag ++ shown tag value ++ " into "
      ++ wanted.name
  | repeatedKey line key first =>
    "line " ++ Text.ofNat line ++ ": mapping key " ++ key.quoted ++ " already defined at line "
      ++ Text.ofNat first
  | repeatedField line key =>
    "line " ++ Text.ofNat line ++ ": field " ++ key ++ " already set in type "
      ++ Wanted.settings.name
  | unknownField line key =>
    "line " ++ Text.ofNat line ++ ": field " ++ key ++ " not found in type "
      ++ Wanted.settings.name

/-- A step that takes settings from a document, with the mismatches so far, latest first. -/
abbrev Taking := StateT (List Mismatch) (Except Yaml.Fault)

namespace Taking

/-- Notes a mismatch. -/
def note (m : Mismatch) : Taking Unit := modify (m :: ·)

/-- The meaning of a scalar. -/
def meaning (tag value : Text) : Taking Meaning :=
  match Meaning.ofTagged tag value with
  | .ok m => pure m
  | .error problem => throw ⟨0, problem⟩

/-- Whether two keys are written the same. -/
def sameKey : Node → Node → Bool
  | .scalar _ _ value, .scalar _ _ other => value = other
  | .sequence _ _ _, .sequence _ _ _ => true
  | .mapping _ _ _, .mapping _ _ _ => true
  | .reference _ _ name _, .reference _ _ other _ => name = other
  | _, _ => false

/-- A key as it is shown in messages. -/
def keyText : Node → Text
  | .scalar _ _ value => value
  | .reference _ _ name _ => name
  | _ => []

/-- The keys that are there more than once. -/
def repeatedKeys : List (Node × Node) → List Mismatch
  | [] => []
  | (key, _) :: rest =>
    (rest.filter fun entry => sameKey key entry.1).map
        (fun entry => .repeatedKey entry.1.line (keyText entry.1) key.line)
      ++ repeatedKeys rest

/-- Notes keys that are there more than once, and whether there are any. -/
def checkKeys (entries : List (Node × Node)) : Taking Bool := do
  let repeated := repeatedKeys entries
  modify (repeated.reverse ++ ·)
  pure repeated.isEmpty

/-- Notes that a node is of the wrong kind. A sequence or mapping with the tag of a null is not even
taken for a value. -/
def wrong {α : Type} (wanted : Wanted) (node : Node) : Taking (Option α) := do
  let inner := match wanted with
    | .maybe wanted => wanted
    | wanted => wanted
  let forTag (tag : Text) := if tag = Tag.null then wanted else inner
  match node with
  | .scalar line tag value => note (.wrongKind line tag value inner)
  | .sequence line tag _ => note (.wrongKind line tag [] (forTag tag))
  | .mapping line tag entries =>
    if ← checkKeys entries then note (.wrongKind line tag [] (forTag tag))
  | .reference _ _ _ _ => pure ()
  pure none

/-- A scalar as some value; a null says nothing. -/
def scalar {α : Type} (wanted : Wanted) (read : (value : Text) → Meaning → Option α)
    (node : Node) : Taking (Option α) := do
  match node with
  | .scalar _ tag value =>
    match ← meaning tag value with
    | .null => pure none
    | m =>
      match read value m with
      | some x => pure (some x)
      | none => wrong wanted node
  | _ => wrong wanted node

/-- The text of any scalar: as it is written, unless a tag gave it another one. -/
def text? (value : Text) : Meaning → Option Text
  | .text t => some t
  | _ => some value

/-- A node as a text. -/
def text (d : Document) (wanted : Wanted) (node : Node) : Taking (Option Text) :=
  scalar wanted text? (d.follow node)

/-- A node as a list of texts; nulls in it do not count. -/
def texts (d : Document) (node : Node) : Taking (Option (List Text)) := do
  match d.follow node with
  | .sequence _ _ items => some <$> items.filterMapM (text d .text)
  | node => scalar .texts (fun _ _ => none) node

/-- A node as a truth value. -/
def truth (d : Document) (node : Node) : Taking (Option Bool) :=
  scalar (.maybe .truth) (fun _ => Meaning.bool?) (d.follow node)

/-- A node as an integer. -/
def integer (d : Document) (node : Node) : Taking (Option Int) :=
  scalar (.maybe .integer) (fun _ => Meaning.int?) (d.follow node)

/-- Settings with one field set to what a node says. -/
def field (d : Document) (settings : Settings) (node : Node) : Field → Taking Settings
  | .moduleRoot => return { settings with moduleRoot := ← text d .text node }
  | .exclude => return { settings with exclude := ← texts d node }
  | .respectIgnores => return { settings with respectIgnores := ← truth d node }
  | .maxCallDepth => return { settings with maxCallDepth := ← integer d node }
  | .logLevel => return { settings with logLevel := ← text d .text node }
  | .historyFile => return { settings with historyFile := ← text d .text node }
  | .prompt => return { settings with prompt := ← text d (.maybe .text) node }

/-- Settings, with the keys that count as taken. Merged mappings do not change what those say. -/
structure Progress where
  settings : Settings := {}
  taken : List Text := []

/-- Whether a key merges other mappings. -/
def isMerge : Node → Bool
  | .scalar _ tag value => value = "<<" && tag = Tag.merge
  | _ => false

/-- Takes the entries of a mapping, apart from one that merges. `merged` says whether it is merged
itself, and `seen` which fields it has set. -/
def entries (d : Document) (merged : Bool) (seen : List Field) (p : Progress) :
    List (Node × Node) → Taking Progress
  | [] => pure p
  | (key, value) :: rest => do
    if isMerge key then entries d merged seen p rest
    else
      match ← text d .text key with
      | none => entries d merged seen p rest
      | some name =>
        if merged && name ∈ p.taken then entries d merged seen p rest
        else
          let p := { p with taken := name :: p.taken }
          match Field.ofKey? name with
          | none =>
            note (.unknownField key.line name)
            entries d merged seen p rest
          | some f =>
            if f ∈ seen then
              note (.repeatedField key.line name)
              entries d merged seen p rest
            else
              let settings ← field d p.settings value f
              entries d merged (f :: seen) { p with settings } rest

/-- The node that a mapping merges. -/
def mergeNode? (es : List (Node × Node)) : Option Node :=
  (es.reverse.find? fun entry => isMerge entry.1).map Prod.snd

mutual

/-- Takes a mapping with what it merges. `within` are the places of the references that are being
followed. -/
def mapping (d : Document) (within : List Nat) (merged : Bool) (p : Progress)
    (es : List (Node × Node)) : (rounds : Nat) → Taking Progress
  | 0 => throw ⟨0, .endless⟩
  | rounds + 1 => do
    if ← checkKeys es then
      let p ← entries d merged [] p es
      match mergeNode? es with
      | none => pure p
      | some (.sequence _ _ items) => mergeAll d within p items rounds
      | some node => mergeAll d within p [node] rounds
    else pure p

/-- Merges mappings and references to mappings. -/
def mergeAll (d : Document) (within : List Nat) (p : Progress) :
    (nodes : List Node) → (rounds : Nat) → Taking Progress
  | _, 0 => throw ⟨0, .endless⟩
  | [], _ + 1 => pure p
  | node :: rest, rounds + 1 => do
    match d.follow node with
    | .mapping _ _ es =>
      let inner ← match node with
        | .reference _ place name _ =>
          if place ∈ within then throw ⟨0, .selfReference name⟩ else pure (place :: within)
        | _ => pure within
      let p ← mapping d inner true p es rounds
      mergeAll d within p rest rounds
    | _ => throw ⟨0, .badMerge⟩

end

/-- The settings of a document. -/
def document (d : Document) : Taking Settings := do
  match d.root with
  | .mapping _ _ es => Progress.settings <$> mapping d [] false {} es ((d.size + 2) * (d.size + 2))
  | root =>
    let _ : Option Unit ← scalar .settings (fun _ _ => none) root
    pure {}

end Taking

/-- Why a file says nothing. -/
inductive Refusal where
  | faulty (fault : Yaml.Fault)
  | mismatched (mismatches : List Mismatch)
  deriving DecidableEq, Repr

/-- The reason in words. -/
def Refusal.message : Refusal → Text
  | faulty fault => fault.text
  | mismatched ms =>
    "yaml: unmarshal errors:\n  " ++ Text.joinWith "\n  " (ms.map Mismatch.message)

/-- The settings in a file. A file without a document says nothing. -/
def ofBytes (t : Text) : Except Refusal Settings := do
  match Document.ofBytes t with
  | .error fault => .error (.faulty fault)
  | .ok none => .ok {}
  | .ok (some d) =>
    match (Taking.document d).run [] with
    | .error fault => .error (.faulty fault)
    | .ok (settings, []) => .ok settings
    | .ok (_, ms) => .error (.mismatched ms.reverse)

end Settings

end Lox
