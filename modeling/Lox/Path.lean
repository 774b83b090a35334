import Lox.Text.Basic

/-!
# Paths

Slash-separated paths as text, and the lexical operations on them: nothing here looks at a
directory.
-/

namespace Lox.Path

open Text (byte)

/-- The separator. -/
def slash : UInt8 := byte '/'

/-- Whether a path starts at the root. -/
def isAbsolute (p : Text) : Bool := p.head? = some slash

/-- The non-empty components of a path. -/
def parts (p : Text) : List Text := (p.splitOn slash).filter (· ≠ [])

/-- Adds a component to cleaned components in reverse order. A step up removes the last component
if there is one to remove, and is dropped at the root. -/
def push (absolute : Bool) (done : List Text) (part : Text) : List Text :=
  if part = "." then done
  else if part = ".." then
    match done with
    | [] => if absolute then [] else [part]
    | last :: rest => if last = ".." then part :: done else rest
  else part :: done

/-- The components of the shortest equivalent path. -/
def cleanParts (p : Text) : List Text :=
  ((parts p).foldl (push (isAbsolute p)) []).reverse

/-- The path with the given components. -/
def ofParts (absolute : Bool) (parts : List Text) : Text :=
  if absolute then slash :: Text.joinWith [slash] parts
  else if parts = [] then "." else Text.joinWith [slash] parts

/-- The shortest path with the same meaning: no empty component, no `.`, and `..` only in front of
a relative path. -/
def clean (p : Text) : Text := ofParts (isAbsolute p) (cleanParts p)

/-- The cleaned path made of the non-empty ones among the given paths; empty if there are none. -/
def join (paths : List Text) : Text :=
  match paths.filter (· ≠ []) with
  | [] => []
  | ps => clean (Text.joinWith [slash] ps)

/-- The cleaned path up to the last slash. -/
def parent (p : Text) : Text := clean (Text.dropRightWhile (· ≠ slash) p)

/-- A path as seen from the directory `dir`, cleaned. -/
def resolve (dir p : Text) : Text := if isAbsolute p then clean p else join [dir, p]

/-- The last component; `.` for an empty path and `/` for one of slashes only. -/
def base (p : Text) : Text :=
  if p = [] then "."
  else match (p.dropRightWhile (· = slash)).reverse.takeWhile (· ≠ slash) with
    | [] => [slash]
    | last => last.reverse

/-- The last component without its extension: its last dot and all after it are dropped. -/
def stem (p : Text) : Text :=
  let name := base p
  match name.reverse.dropWhile (· ≠ byte '.') with
  | [] => name
  | _ :: before => before.reverse

end Lox.Path
