import Lox.Files.Entry
import Lox.Files.Glob
import Lox.Text.Blank

/-!
# Ignored files

Folders can hold lists of patterns for files and folders that are to be ignored. A pattern counts
below the folder of its list, and of all patterns that match, the last one decides.
-/

namespace Lox

/-- A pattern for paths. A pattern with a slash before its end is matched against the whole path
below its domain, segment by segment; any other is matched against each name of the path. -/
structure IgnorePattern where
  domain : List Text
  /-- Matching paths are kept, not ignored. -/
  keeps : Bool
  foldersOnly : Bool
  segments : List Text
  deriving DecidableEq, Repr

namespace IgnorePattern

/-- Drops blanks at the end, unless the last one is written with a backslash. -/
def trimEnd (t : Text) : Text :=
  if (Text.beforeSuffix? "\\ " t).isSome then t else t.dropRightWhile (· = Text.byte ' ')

/-- The pattern on a line of a list. -/
def ofLine (domain : List Text) (line : Text) : IgnorePattern :=
  let (keeps, t) := match Text.afterPrefix? "!" line with
    | some t => (true, t)
    | none => (false, line)
  let t := trimEnd t
  let (foldersOnly, t) := match Text.beforeSuffix? "/" t with
    | some t => (true, t)
    | none => (false, t)
  { domain, keeps, foldersOnly, segments := t.splitOn Path.slash }

/-- The length from which on a line is too long to be read. -/
def lineLimit : Nat := 65536

/-- The lines of a list that hold patterns: no comments and no blank lines. A line that is too long
ends the list. -/
def patternLines (content : Text) : List Text :=
  let lines := (content.splitOn (Text.byte '\n')).takeWhile (·.length < lineLimit)
  let lines := lines.map fun line => (Text.beforeSuffix? "\r" line).getD line
  lines.filter fun line => line.head? ≠ some (Text.byte '#') && line.trim ≠ []

/-- The patterns of a list. -/
def ofContent (domain : List Text) (content : Text) : List IgnorePattern :=
  (patternLines content).map (ofLine domain)

/-- Whether a name of a path matches, searching from the front; if the pattern is for folders, the
path must go on after the name or lead to a folder. -/
def acceptsName (glob : Glob) (foldersOnly isFolder : Bool) : List Text → Bool
  | [] => false
  | name :: rest =>
    if glob.accepts name then !(foldersOnly && !isFolder && rest.isEmpty)
    else acceptsName glob foldersOnly isFolder rest

/-- What is left of a path after the first name that matches; nothing is left if none does. -/
def skipTo (glob : Glob) : List Text → Bool × List Text
  | [] => (false, [])
  | name :: rest => if glob.accepts name then (true, rest) else skipTo glob rest

/-- Two stars, which stand for any number of folders. -/
def anyFolders : Text := "**"

/-- Whether a text has two stars in a row. -/
def hasTwoStars (t : Text) : Bool := t.suffixes.any fun s => (Text.afterPrefix? anyFolders s).isSome

/-- Matches segments against a path. `matched` says whether the last segment found its name, and
`skipping` whether names may be skipped before the next one. The result is whether the segments
match, and what is left of the path; nothing if some segment cannot match. -/
def acceptsSegments (matched skipping : Bool) :
    (segments path : List Text) → Option (Bool × List Text)
  | [], path => some (matched, path)
  | segment :: rest, path =>
    if segment = [] then acceptsSegments matched false rest path
    else if segment = anyFolders then
      if rest = [] then some (matched, path) else acceptsSegments matched true rest path
    else if hasTwoStars segment then none
    else
      match Glob.ofText? segment, path with
      | none, _ => none
      | _, [] => none
      | some glob, name :: more =>
        if skipping then
          let (found, left) := skipTo glob (name :: more)
          acceptsSegments found false rest left
        else if glob.accepts name then acceptsSegments true false rest more
        else none

/-- Whether a pattern matches a path below its domain. -/
def acceptsBelow (p : IgnorePattern) (path : List Text) (isFolder : Bool) : Bool :=
  match p.segments with
  | [segment] =>
    match Glob.ofText? segment with
    | some glob => acceptsName glob p.foldersOnly isFolder path
    | none => false
  | segments =>
    match acceptsSegments false false segments path with
    | some (matched, left) => matched && !(p.foldersOnly && !isFolder && left.isEmpty)
    | none => false

/-- What is left of a path below a folder; nothing unless it lies strictly below. -/
def below? : (domain path : List Text) → Option (List Text)
  | [], path => if path = [] then none else some path
  | d :: domain, name :: path => if d = name then below? domain path else none
  | _ :: _, [] => none

/-- Whether a pattern matches a path. -/
def accepts (p : IgnorePattern) (path : List Text) (isFolder : Bool) : Bool :=
  match below? p.domain path with
  | some rest => p.acceptsBelow rest isFolder
  | none => false

end IgnorePattern

/-- Whether patterns ignore a path: the last one that matches decides. -/
def ignores (patterns : List IgnorePattern) (path : List Text) (isFolder : Bool) : Bool :=
  match patterns.reverse.find? (·.accepts path isFolder) with
  | some p => !p.keeps
  | none => false

namespace Entry

/-- The patterns of the lists that a folder itself holds. -/
def ownPatterns (domain : List Text) (folder : Entry) : List IgnorePattern :=
  let list (path : List Text) : List IgnorePattern :=
    ((folder.content? path).map (IgnorePattern.ofContent domain)).getD []
  list [".git", "info", "exclude"] ++ list [".gitignore"]

mutual

/-- The patterns of a folder and of all folders below it, the weakest first. -/
def ignorePatterns (domain : List Text) : Entry → List IgnorePattern
  | file _ => []
  | folder es => ownPatterns domain (folder es) ++ innerPatterns domain es

/-- The patterns of the folders among some entries of a folder. -/
def innerPatterns (domain : List Text) : List (Text × Entry) → List IgnorePattern
  | [] => []
  | (name, e) :: rest =>
    let inner := if name = ".git" then [] else ignorePatterns (domain ++ [name]) e
    inner ++ innerPatterns domain rest

end

end Entry

end Lox
