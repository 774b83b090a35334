import Lox.Text.Glyph

/-!
# Globs

Patterns for a single name: `*` stands for any run of bytes, `?` for one character, `[a-z]` for one
of a class and `[^a-z]` for one outside it; a backslash takes its meaning from the next character.

## Design notes

Each stretch is matched at the first place where it fits, and this place is never reconsidered.
-/

namespace Lox

/-- A character of a pattern, with or without a special meaning. -/
inductive GlobSign where
  | special (c : Char)
  | plain (g : Glyph)
  deriving DecidableEq, Repr

/-- A part of a pattern that stands for a fixed number of characters. -/
inductive GlobAtom where
  | exactly (g : Glyph)
  | any
  | oneOf (negated : Bool) (ranges : List (Char × Char))
  deriving DecidableEq, Repr

/-- A part of a pattern. -/
inductive GlobItem where
  | star
  | atom (a : GlobAtom)
  deriving DecidableEq, Repr

/-- A stretch of a pattern without stars, and whether a star stands before it. -/
structure GlobStretch where
  star : Bool
  atoms : List GlobAtom
  deriving DecidableEq, Repr

/-- A pattern for a name. -/
abbrev Glob := List GlobStretch

namespace GlobSign

/-- The character that a sign stands for in a class; a hyphen or a closing bracket must be written
with a backslash. -/
def inClass? : GlobSign → Option Char
  | special c => if c = '-' || c = ']' then none else some c
  | plain (.char c) => some c
  | plain (.stray _) => none

/-- The character that a sign stands for outside a class. -/
def glyph : GlobSign → Glyph
  | special c => .char c
  | plain g => g

/-- The characters that can have a special meaning, apart from the backslash. -/
def specials : List Char := ['*', '?', '[', ']', '-', '^']

/-- The signs of a pattern; none if it ends in a lone backslash. -/
def ofGlyphs : List Glyph → Option (List GlobSign)
  | [] => some []
  | .char '\\' :: g :: rest => (ofGlyphs rest).map (plain g :: ·)
  | [.char '\\'] => none
  | .char c :: rest =>
    let sign := if c ∈ specials then special c else plain (.char c)
    (ofGlyphs rest).map (sign :: ·)
  | .stray b :: rest => (ofGlyphs rest).map (plain (.stray b) :: ·)

end GlobSign

namespace GlobItem

mutual

/-- The parts of a pattern. -/
def ofSigns : List GlobSign → Option (List GlobItem)
  | [] => some []
  | .special '*' :: rest => (ofSigns rest).map (star :: ·)
  | .special '?' :: rest => (ofSigns rest).map (atom .any :: ·)
  | .special '[' :: .special '^' :: rest => classOf true [] rest
  | .special '[' :: rest => classOf false [] rest
  | s :: rest => (ofSigns rest).map (atom (.exactly s.glyph) :: ·)

/-- The parts of a pattern that goes on inside a class, of which some ranges are known. -/
def classOf (negated : Bool) (ranges : List (Char × Char)) :
    List GlobSign → Option (List GlobItem)
  | [] => none
  | .special ']' :: rest =>
    if ranges = [] then none
    else (ofSigns rest).map (atom (.oneOf negated ranges) :: ·)
  | lo :: .special '-' :: hi :: rest =>
    match lo.inClass?, hi.inClass? with
    | some a, some b => classOf negated ((a, b) :: ranges) rest
    | _, _ => none
  | lo :: rest =>
    match lo.inClass? with
    | some a => classOf negated ((a, a) :: ranges) rest
    | none => none

end

/-- The stretches of a pattern that goes on with the stretch `current`. -/
def stretches (current : GlobStretch) : List GlobItem → Glob
  | [] => [current]
  | star :: rest =>
    if current.atoms = [] then stretches ⟨true, []⟩ rest
    else current :: stretches ⟨true, []⟩ rest
  | atom a :: rest => stretches ⟨current.star, current.atoms ++ [a]⟩ rest

end GlobItem

namespace GlobAtom

/-- What is left of a text after the part of it that an atom stands for. -/
def match? (a : GlobAtom) (t : Text) : Option Text :=
  match a with
  | exactly g => Text.afterPrefix? g.bytes t
  | any =>
    match t with
    | [] => none
    | b :: rest => some (Text.firstGlyph b rest).2
  | oneOf negated ranges =>
    match t with
    | [] => none
    | b :: rest =>
      let (g, rest) := Text.firstGlyph b rest
      let inside := ranges.any fun (lo, hi) => lo ≤ g.shown && g.shown ≤ hi
      if inside = negated then none else some rest

/-- What is left of a text after the part of it that some atoms stand for. -/
def matchAll? : List GlobAtom → Text → Option Text
  | [], t => some t
  | a :: rest, t => (a.match? t).bind (matchAll? rest)

end GlobAtom

/-- All ends of a text, longest first. -/
def Text.suffixes : Text → List Text
  | [] => [[]]
  | b :: rest => (b :: rest) :: suffixes rest

namespace Glob

/-- Reads a pattern; nothing if it is malformed. -/
def ofText? (t : Text) : Option Glob :=
  if t = [] then some []
  else
    ((GlobSign.ofGlyphs t.glyphs).bind GlobItem.ofSigns).map (GlobItem.stretches ⟨false, []⟩)

/-- Whether a name matches a pattern. -/
def accepts : Glob → Text → Bool
  | [], name => name.isEmpty
  | ⟨star, atoms⟩ :: rest, name =>
    if star && atoms.isEmpty then true
    else
      let starts := if star then name.suffixes else [name]
      let ends := starts.filterMap (GlobAtom.matchAll? atoms)
      match ends.find? fun t => t.isEmpty || !rest.isEmpty with
      | some t => accepts rest t
      | none => false

end Glob

end Lox
