import Lox.Path

/-!
# Files and folders

A tree of files and folders, and how paths are followed in it.
-/

namespace Lox

/-- A file or a folder. The entries of a folder have different names, in byte order. -/
inductive Entry where
  | file (content : Text)
  | folder (entries : List (Text × Entry))

namespace Entry

/-- A folder without entries. -/
def emptyFolder : Entry := folder []

/-- Whether an entry is a folder. -/
def isFolder : Entry → Bool
  | folder _ => true
  | file _ => false

/-- The entries of a folder; a file has none. -/
def entries : Entry → List (Text × Entry)
  | folder es => es
  | file _ => []

/-- The entry of a folder with a name. -/
def child? (e : Entry) (name : Text) : Option Entry := e.entries.lookup name

/-- Puts an entry among others, in place of one of the same name. -/
def place (name : Text) (e : Entry) : List (Text × Entry) → List (Text × Entry)
  | [] => [(name, e)]
  | (other, f) :: rest =>
    if other = name then (name, e) :: rest
    else if Text.precedes name other then (name, e) :: (other, f) :: rest
    else (other, f) :: place name e rest

/-- Puts an entry at a place below a folder. What is on the way and no folder becomes one. -/
def insert (here : Entry) (path : List Text) (e : Entry) : Entry :=
  match path with
  | [] => e
  | name :: rest =>
    let inner := (here.child? name).getD emptyFolder
    folder (place name (inner.insert rest e) here.entries)

/-- Makes a folder at a place, unless there is one. -/
def makeFolder (here : Entry) (path : List Text) : Entry :=
  match path with
  | [] => here
  | name :: rest =>
    let inner := (here.child? name).getD emptyFolder
    folder (place name (inner.makeFolder rest) here.entries)

/-- The content of the file at a place below a folder. -/
def content? (here : Entry) (path : List Text) : Option Text :=
  match path, here with
  | [], file content => some content
  | [], folder _ => none
  | name :: rest, here => (here.child? name).bind (·.content? rest)

mutual

/-- The contents of the files at or below an entry with a name, if their names are wanted. -/
def contentsAt (wanted : List Text) (name : Text) : Entry → List Text
  | file content => if name ∈ wanted then [content] else []
  | folder es => contentsIn wanted es

/-- The contents of the files at or below some entries, if their names are wanted. -/
def contentsIn (wanted : List Text) : List (Text × Entry) → List Text
  | [] => []
  | (name, e) :: rest => contentsAt wanted name e ++ contentsIn wanted rest

end

/-- Why there is no entry at a path. -/
inductive Absence where
  /-- Some name on the way is not there. -/
  | missing
  /-- Some name on the way is a file. -/
  | notFolder
  /-- Some name on the way, or the path itself, is longer than any can be. -/
  | tooLong
  /-- The path holds a byte that no path can hold. -/
  | notPath
  deriving DecidableEq, Repr

/-- The reason in words. -/
def Absence.text : Absence → Text
  | missing => "no such file or directory"
  | notFolder => "not a directory"
  | tooLong => "file name too long"
  | notPath => "invalid argument"

/-- The greatest length of a name. -/
def nameLimit : Nat := 255

/-- Follows the names of a path. Those above are the folders passed on the way, nearest first; two
dots lead back to the nearest. -/
def follow (above : List Entry) (here : Entry) : (names : List Text) → Except Absence Entry
  | [] => .ok here
  | name :: rest =>
    match here with
    | file _ => .error .notFolder
    | folder es =>
      if name = [] ∨ name = "." then follow above (folder es) rest
      else if name = ".." then
        match above with
        | [] => follow [] (folder es) rest
        | up :: above => follow above up rest
      else if nameLimit < name.length then .error .tooLong
      else
        match es.lookup name with
        | none => .error .missing
        | some e => follow (folder es :: above) e rest

end Entry

/-- All files, and the folder from which relative paths are seen. -/
structure Disk where
  root : Entry
  cwd : Text

namespace Disk

/-- A path as seen from the root. -/
def fromRoot (d : Disk) (path : Text) : Text :=
  if Path.isAbsolute path then path else d.cwd ++ [Path.slash] ++ path

/-- The length from which on a path is too long. -/
def pathLimit : Nat := 4096

/-- The entry at a path. There is none at the empty path. -/
def lookup (d : Disk) (path : Text) : Except Entry.Absence Entry :=
  if path = [] then .error .missing
  else if path.contains 0 then .error .notPath
  else if pathLimit ≤ path.length then .error .tooLong
  else Entry.follow [] d.root ((d.fromRoot path).splitOn Path.slash)

/-- The cleaned absolute form of a path. -/
def absolute (d : Disk) (path : Text) : Text := Path.resolve d.cwd path

/-- The content of the file at a path, or what is wrong with it. -/
def read (d : Disk) (path : Text) : Except Text Text :=
  match d.lookup path with
  | .error why => .error ("open " ++ path ++ ": " ++ why.text)
  | .ok (.folder _) => .error ("read " ++ path ++ ": is a directory")
  | .ok (.file content) => .ok content

end Disk

end Lox
