import Lox.Files.Ignore

/-!
# Module search

Modules are found by searching a folder for files whose path ends in the import path. Excluded and
ignored folders are not searched, and ignored files are not found.
-/

namespace Lox

namespace Entry

section Visible

variable (exclude : List Text) (ignored : List Text → Bool → Bool)

mutual

/-- The files at or below an entry that is at a path, by their paths. -/
def visibleAt (path : List Text) (name : Text) : Entry → List (List Text)
  | file _ => if ignored path false then [] else [path]
  | folder es => if name ∈ exclude ∨ ignored path true then [] else visibleIn path es

/-- The files at or below some entries of the folder at a path. -/
def visibleIn (path : List Text) : List (Text × Entry) → List (List Text)
  | [] => []
  | (name, e) :: rest => visibleAt (path ++ [name]) name e ++ visibleIn path rest

end

/-- The files below a folder, by their paths from it, that are not ignored and in no folder that is
excluded or ignored. -/
def visibleFiles (root : Entry) : List (List Text) := visibleIn exclude ignored [] root.entries

end Visible

end Entry

/-- Where to search for modules, which folders to leave out by name, and whether to look for lists
of ignored files. -/
structure ModuleSearch where
  root : Text
  exclude : List Text
  respectIgnores : Bool

/-- Why an import path leads to no file. -/
inductive SearchFailure where
  | noIgnoreLists (root : Text) (why : Entry.Absence)
  | noRoot (root : Text) (why : Entry.Absence)
  | notFound (path : Text)
  | ambiguous (path : Text) (count : Nat)
  deriving DecidableEq, Repr

/-- The failure in words. -/
def SearchFailure.message : SearchFailure → Text
  | noIgnoreLists root why =>
    "locator: read ignore files under " ++ root ++ ": open " ++ root ++ ": " ++ why.text
  | noRoot root why => "locator: walk " ++ root ++ ": lstat " ++ root ++ ": " ++ why.text
  | notFound path => "Can't find '" ++ path ++ "'."
  | ambiguous path count => Text.ofNat count ++ " modules named '" ++ path ++ "' found."

namespace ModuleSearch

/-- Whether a file, by its path from the root, fits an import path: the path is the cleaned import
path, or ends in a slash and the cleaned import path. -/
def fits (path : Text) (file : List Text) : Bool :=
  let cleaned := Path.clean path
  let wanted := (Text.afterPrefix? "./" cleaned).getD cleaned
  let relative := Text.joinWith [Path.slash] file
  relative == wanted || (Path.slash :: wanted).isSuffixOf relative

/-- The files below `root` that fit an import path, in byte order. -/
def select (exclude : List Text) (ignored : List Text → Bool → Bool) (root : Text) (tree : Entry)
    (path : Text) : List Text :=
  let files := (tree.visibleFiles exclude ignored).filter (fits path)
  (files.map fun file => Path.join [root, Text.joinWith [Path.slash] file]).mergeSort Text.precedes

variable (s : ModuleSearch)

/-- The rule by which files below a root are ignored. -/
def ignoreRule (disk : Disk) : Except SearchFailure (List Text → Bool → Bool) :=
  if s.respectIgnores then
    match disk.lookup s.root with
    | .error why => .error (.noIgnoreLists s.root why)
    | .ok (.file _) => .error (.noIgnoreLists s.root .notFolder)
    | .ok tree => .ok (ignores (tree.ignorePatterns []))
  else .ok fun _ _ => false

/-- All files that fit an import path, in byte order, when files are ignored by a given rule. -/
def candidatesBy (ignored : List Text → Bool → Bool) (disk : Disk) (path : Text) :
    Except SearchFailure (List Text) :=
  match disk.lookup s.root with
  | .error why => .error (.noRoot s.root why)
  | .ok tree => .ok (select s.exclude ignored s.root tree path)

/-- All files that fit an import path, in byte order. -/
def candidates (disk : Disk) (path : Text) : Except SearchFailure (List Text) :=
  match s.ignoreRule disk with
  | .error failure => .error failure
  | .ok ignored => s.candidatesBy ignored disk path

/-- The only one of the files that fit an import path. -/
def choose (path : Text) : List Text → Except SearchFailure Text
  | [] => .error (.notFound path)
  | [file] => .ok file
  | files => .error (.ambiguous path files.length)

/-- The file that an import path stands for. -/
def locate (disk : Disk) (path : Text) : Except SearchFailure Text :=
  match s.candidates disk path with
  | .error failure => .error failure
  | .ok files => choose path files

end ModuleSearch

end Lox
