import Lox.Text.Basic

/-!
# Tables of names

Finite maps from names to values: the bindings of a frame, the fields of an object, the methods of
a class, the names of a scope. A table holds one entry for each name, in the order in which the
names were first inserted.
-/

namespace Lox

/-- A finite map from names. -/
structure Table (α : Type) where
  entries : List (Text × α) := []

namespace Table

variable {α : Type}

instance : EmptyCollection (Table α) := ⟨⟨[]⟩⟩

/-- The value of the first entry for a name. -/
def lookup (x : Text) : List (Text × α) → Option α
  | [] => none
  | (y, a) :: entries => if y = x then some a else lookup x entries

/-- Replaces the value of a name, or adds an entry for it at the end. -/
def update (x : Text) (a : α) : List (Text × α) → List (Text × α)
  | [] => [(x, a)]
  | (y, b) :: entries => if y = x then (y, a) :: entries else (y, b) :: update x a entries

/-- The value of a name. -/
def find? (t : Table α) (x : Text) : Option α := lookup x t.entries

/-- Whether a name has a value. -/
def contains (t : Table α) (x : Text) : Bool := (t.find? x).isSome

/-- Gives a name a value. -/
def insert (t : Table α) (x : Text) (a : α) : Table α := ⟨update x a t.entries⟩

/-- The table with a single entry. -/
def single (x : Text) (a : α) : Table α := ⟨[(x, a)]⟩

/-- The number of names. -/
def size (t : Table α) : Nat := t.entries.length

/-- The names in the order of their insertion. -/
def keys (t : Table α) : List Text := t.entries.map Prod.fst

/-- The names in byte order. -/
def sortedKeys (t : Table α) : List Text := t.keys.mergeSort Text.precedes

theorem lookup_update_self (x : Text) (a : α) (entries : List (Text × α)) :
    lookup x (update x a entries) = some a := by
  induction entries with
  | nil => simp [update, lookup]
  | cons e entries ih =>
    obtain ⟨y, b⟩ := e
    by_cases h : y = x <;> simp [update, lookup, h, ih]

theorem lookup_update_of_ne {x y : Text} (h : y ≠ x) (a : α) (entries : List (Text × α)) :
    lookup y (update x a entries) = lookup y entries := by
  induction entries with
  | nil => simp [update, lookup, h.symm]
  | cons e entries ih =>
    obtain ⟨z, b⟩ := e
    by_cases hz : z = x
    · subst hz
      simp [update, lookup, h.symm]
    · simp only [update, hz, if_false, lookup, ih]

@[simp] theorem find?_empty (x : Text) : (∅ : Table α).find? x = none := rfl

@[simp] theorem find?_insert_self (t : Table α) (x : Text) (a : α) :
    (t.insert x a).find? x = some a :=
  lookup_update_self x a t.entries

theorem find?_insert_of_ne (t : Table α) {x y : Text} (h : y ≠ x) (a : α) :
    (t.insert x a).find? y = t.find? y :=
  lookup_update_of_ne h a t.entries

theorem contains_insert (t : Table α) (x y : Text) (a : α) :
    (t.insert x a).contains y = (decide (y = x) || t.contains y) := by
  by_cases h : y = x
  · subst h
    simp [contains]
  · simp [contains, find?_insert_of_ne t h, h]

end Table

end Lox
