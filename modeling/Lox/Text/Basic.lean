/-!
# Text

Source, input, file contents and output are byte strings. Most of them are UTF-8, but nothing
requires it, so text is a list of bytes and characters are a view of it (`Lox.Text.Glyph`).
-/

namespace Lox

/-- A byte string. -/
abbrev Text := List UInt8

namespace Text

instance : LawfulBEq Text := inferInstance

/-- The UTF-8 bytes of a string. -/
def ofString (s : String) : Text := s.toUTF8.data.toList

instance : Coe String Text := ⟨ofString⟩

/-- The byte of an ASCII character. -/
def byte (c : Char) : UInt8 := c.toUInt8

/-- The concatenation of several texts. -/
def concat (parts : List Text) : Text := parts.flatten

/-- The decimal numeral of a natural number. -/
def ofNat (n : Nat) : Text := (Nat.toDigits 10 n).map byte

/-- The decimal numeral of an integer, with a minus sign below zero. -/
def ofInt : Int → Text
  | .ofNat n => ofNat n
  | .negSucc n => byte '-' :: ofNat (n + 1)

/-- The value of a run of ASCII decimal digits. -/
def toNat (digits : Text) : Nat :=
  digits.foldl (fun n d => 10 * n + (d.toNat - 48)) 0

/-- The parts of a text between the occurrences of a separator byte: always one more than there
are separators. -/
def splitOn (sep : UInt8) : Text → List Text
  | [] => [[]]
  | b :: t =>
    if b = sep then [] :: splitOn sep t
    else match splitOn sep t with
      | [] => [[b]]
      | part :: parts => (b :: part) :: parts

/-- The texts in order, with `sep` between neighbours. -/
def joinWith (sep : Text) : List Text → Text
  | [] => []
  | [t] => t
  | t :: u :: ts => t ++ sep ++ joinWith sep (u :: ts)

/-- The text without its longest run of trailing bytes that satisfy `p`. -/
def dropRightWhile (p : UInt8 → Bool) (t : Text) : Text :=
  (t.reverse.dropWhile p).reverse

/-- The longest run of leading bytes that satisfy `p`, and the rest. -/
def cut (p : UInt8 → Bool) (t : Text) : Text × Text := (t.takeWhile p, t.dropWhile p)

/-- What follows `head`, when the text starts with it. -/
def afterPrefix? : (head t : Text) → Option Text
  | [], t => some t
  | _ :: _, [] => none
  | a :: head, b :: t => if a = b then afterPrefix? head t else none

/-- What precedes `tail`, when the text ends with it. -/
def beforeSuffix? (tail t : Text) : Option Text :=
  (afterPrefix? tail.reverse t.reverse).map List.reverse

/-- ASCII letters become lower case, all else stays. -/
def lower (t : Text) : Text :=
  t.map fun b => if 0x41 ≤ b ∧ b ≤ 0x5A then b + 0x20 else b

/-- Byte order: the order in which names and paths are listed. -/
def precedes (s t : Text) : Bool := decide (s ≤ t)

theorem cut_append (p : UInt8 → Bool) (t : Text) : (t.cut p).1 ++ (t.cut p).2 = t :=
  List.takeWhile_append_dropWhile

theorem joinWith_cons_cons (sep t u : Text) (ts : List Text) :
    joinWith sep (t :: u :: ts) = t ++ sep ++ joinWith sep (u :: ts) := rfl

theorem splitOn_ne_nil (sep : UInt8) (t : Text) : splitOn sep t ≠ [] := by
  cases t with
  | nil => simp [splitOn]
  | cons b t =>
    simp only [splitOn]
    split
    · simp
    · split <;> simp

theorem afterPrefix?_eq_some_iff {head t rest : Text} :
    afterPrefix? head t = some rest ↔ t = head ++ rest := by
  induction head generalizing t with
  | nil => simp [afterPrefix?, eq_comm]
  | cons a head ih =>
    cases t with
    | nil => simp [afterPrefix?]
    | cons b t =>
      by_cases h : a = b
      · simp [afterPrefix?, h, ih]
      · simp [afterPrefix?, h, Ne.symm h]

end Text

end Lox
