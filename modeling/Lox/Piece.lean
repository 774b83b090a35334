import Lox.Diagnostic
import Lox.Number.Read

/-!
# Pieces of source

Source code is a sequence of pieces: blanks, comments, tokens and faulty stretches. Each piece is
the longest one that starts where the previous one ended, and together they are the whole source.
-/

namespace Lox

/-- What a stretch of source is. -/
inductive PieceKind where
  | blank
  | lineComment
  | blockComment
  | token (kind : TokenKind) (literal : Literal)
  | fault (problem : LexicalProblem)
  deriving DecidableEq

/-- A stretch of source. -/
structure Piece where
  kind : PieceKind
  text : Text
  deriving DecidableEq

namespace Piece

/-- Whether a byte may start a word. -/
def isWordStart (b : UInt8) : Bool :=
  decide ((0x61 ≤ b ∧ b ≤ 0x7A) ∨ (0x41 ≤ b ∧ b ≤ 0x5A) ∨ b = 0x5F)

/-- Whether a byte may continue a word. -/
def isWordPart (b : UInt8) : Bool := isWordStart b || Number.isDigit b

/-- The rest of a block comment up to and including its closing mark, and what follows. -/
def closeComment? : Text → Option (Text × Text)
  | [] => none
  | [_] => none
  | a :: b :: t =>
    if a = Text.byte '*' ∧ b = Text.byte '/' then some ([a, b], t)
    else (closeComment? (b :: t)).map fun (body, rest) => (a :: body, rest)

/-- The digits of a fraction after the point that the text starts with. A point that no digit
follows is not part of a number. -/
def fraction? : Text → Option (Text × Text)
  | p :: d :: t =>
    if p = Text.byte '.' ∧ Number.isDigit d then some (Text.cut Number.isDigit (d :: t)) else none
  | _ => none

/-- A number that starts with the digit `b`. -/
def number (b : UInt8) (t : Text) : Piece × Text :=
  let (digits, rest) := Text.cut Number.isDigit (b :: t)
  let (fraction, lexeme, rest) := match fraction? rest with
    | some (fraction, rest) => (fraction, digits ++ Text.byte '.' :: fraction, rest)
    | none => ([], digits, rest)
  match Number.ofNumeral? digits fraction with
  | some x => (⟨.token .number (.number x), lexeme⟩, rest)
  | none => (⟨.fault .numberTooLarge, lexeme⟩, rest)

/-- A keyword or an identifier that starts with the byte `b`. -/
def word (b : UInt8) (t : Text) : Piece × Text :=
  let (lexeme, rest) := Text.cut isWordPart (b :: t)
  (⟨.token (TokenKind.ofWord lexeme) .nil, lexeme⟩, rest)

/-- A string whose opening quote `b` is followed by `t`. It runs to the next quote; there are no
escapes. -/
def string (b : UInt8) (t : Text) : Piece × Text :=
  match t.cut (· ≠ Text.byte '"') with
  | (body, quote :: rest) => (⟨.token .string (.string body), b :: body ++ [quote]⟩, rest)
  | (body, []) => (⟨.fault .unterminatedString, b :: body⟩, [])

/-- What a slash starts: a comment or a division sign. -/
def slash (b : UInt8) (t : Text) : Piece × Text :=
  match t with
  | c :: t' =>
    if c = Text.byte '/' then
      let (body, rest) := t.cut (· ≠ Text.byte '\n')
      (⟨.lineComment, b :: body⟩, rest)
    else if c = Text.byte '*' then
      match closeComment? t' with
      | some (body, rest) => (⟨.blockComment, b :: c :: body⟩, rest)
      | none => (⟨.fault .unterminatedComment, b :: c :: t'⟩, [])
    else (⟨.token .slash .nil, [b]⟩, t)
  | [] => (⟨.token .slash .nil, [b]⟩, t)

/-- An operator of one byte. -/
def operator (kind : TokenKind) (b : UInt8) (t : Text) : Piece × Text :=
  (⟨.token kind .nil, [b]⟩, t)

/-- An operator that an equals sign makes another one. -/
def operatorEqual (plain withEqual : TokenKind) (b : UInt8) (t : Text) : Piece × Text :=
  match t with
  | c :: rest =>
    if c = Text.byte '=' then (⟨.token withEqual .nil, [b, c]⟩, rest) else operator plain b t
  | [] => operator plain b t

/-- A character that starts no other piece. -/
def unexpected (b : UInt8) (t : Text) : Piece × Text :=
  let (glyph, rest) := Text.firstGlyph b t
  (⟨.fault (.unexpected glyph), glyph.bytes⟩, rest)

/-- The first piece of the text `b :: t`, and the rest. -/
def first (b : UInt8) (t : Text) : Piece × Text :=
  match Char.ofUInt8 b with
  | ' ' | '\r' | '\t' | '\n' => (⟨.blank, [b]⟩, t)
  | '(' => operator .leftParen b t
  | ')' => operator .rightParen b t
  | '{' => operator .leftBrace b t
  | '}' => operator .rightBrace b t
  | '?' => operator .question b t
  | ',' => operator .comma b t
  | '.' => operator .dot b t
  | '-' => operator .minus b t
  | '+' => operator .plus b t
  | ';' => operator .semicolon b t
  | ':' => operator .colon b t
  | '*' => operator .star b t
  | '%' => operator .percent b t
  | '!' => operatorEqual .bang .bangEqual b t
  | '=' => operatorEqual .equal .equalEqual b t
  | '>' => operatorEqual .greater .greaterEqual b t
  | '<' => operatorEqual .less .lessEqual b t
  | '/' => slash b t
  | '"' => string b t
  | _ =>
    if Number.isDigit b then number b t
    else if isWordStart b then word b t
    else unexpected b t

theorem closeComment?_append {t body rest : Text} (h : closeComment? t = some (body, rest)) :
    t = body ++ rest := by
  fun_induction closeComment? t generalizing body rest with
  | case1 => simp at h
  | case2 => simp at h
  | case3 a b t hab =>
    simp only [Option.some.injEq, Prod.mk.injEq] at h
    obtain ⟨rfl, rfl⟩ := h
    rfl
  | case4 a b t hab ih =>
    simp only [Option.map_eq_some_iff, Prod.mk.injEq, Prod.exists] at h
    obtain ⟨u, r, hu, rfl, rfl⟩ := h
    rw [List.cons_append, ← ih hu]

theorem fraction?_append {t fraction rest : Text} (h : fraction? t = some (fraction, rest)) :
    t = Text.byte '.' :: fraction ++ rest := by
  unfold fraction? at h
  split at h
  · next p d t =>
    split at h
    · next hp =>
      have hcut := Text.cut_append Number.isDigit (d :: t)
      rw [Option.some.inj h] at hcut
      rw [hp.1, List.cons_append, hcut]
    · simp at h
  · simp at h

/-! ### Nothing is lost -/

theorem number_append (b : UInt8) (t : Text) : b :: t = (number b t).1.text ++ (number b t).2 := by
  have hcut := Text.cut_append Number.isDigit (b :: t)
  unfold number
  cases hf : fraction? (Text.cut Number.isDigit (b :: t)).2 with
  | none =>
    simp only [hf]
    split <;> exact hcut.symm
  | some found =>
    have hrest := fraction?_append hf
    simp only [hf]
    split <;> (simp only [List.append_assoc]; rw [← hrest]; exact hcut.symm)

theorem word_append (b : UInt8) (t : Text) : b :: t = (word b t).1.text ++ (word b t).2 :=
  (Text.cut_append isWordPart (b :: t)).symm

theorem string_append (b : UInt8) (t : Text) :
    b :: t = (string b t).1.text ++ (string b t).2 := by
  have hcut := Text.cut_append (· ≠ Text.byte '"') t
  unfold string
  split
  · next body quote rest h =>
    rw [h] at hcut
    simp only [List.cons_append, List.append_assoc, List.nil_append]
    rw [hcut]
  · next body h =>
    rw [h] at hcut
    rw [← hcut]
    simp

theorem slash_append (b : UInt8) (t : Text) : b :: t = (slash b t).1.text ++ (slash b t).2 := by
  unfold slash
  split
  · next c t' =>
    split
    · exact congrArg (b :: ·) (Text.cut_append (· ≠ Text.byte '\n') (c :: t')).symm
    · split
      · split
        · next body rest h =>
          simp only [List.cons_append]
          rw [← closeComment?_append h]
        · simp
      · rfl
  · rfl

theorem operatorEqual_append (plain withEqual : TokenKind) (b : UInt8) (t : Text) :
    b :: t = (operatorEqual plain withEqual b t).1.text ++
      (operatorEqual plain withEqual b t).2 := by
  unfold operatorEqual
  split
  · split <;> rfl
  · rfl

/-- The first piece and the rest make up the text. -/
theorem first_append (b : UInt8) (t : Text) : b :: t = (first b t).1.text ++ (first b t).2 := by
  unfold first
  split
  all_goals try
    first | rfl | exact operatorEqual_append _ _ b t | exact slash_append b t
          | exact string_append b t
  split
  · exact number_append b t
  · split
    · exact word_append b t
    · exact Text.firstGlyph_bytes b t

/-! ### Every piece is non-empty -/

theorem number_ne_nil {b : UInt8} (hb : Number.isDigit b = true) (t : Text) :
    (number b t).1.text ≠ [] := by
  have hdigits : (Text.cut Number.isDigit (b :: t)).1 ≠ [] := by
    simp [Text.cut, hb]
  unfold number
  split
  next digits rest h =>
    rw [h] at hdigits
    split
    next fraction lexeme rest' h' =>
      have hlexeme : lexeme ≠ [] := by
        split at h' <;> simp only [Prod.mk.injEq] at h'
        · simp [← h'.2.1]
        · rw [← h'.2.1]
          exact hdigits
      split <;> exact hlexeme

theorem word_ne_nil {b : UInt8} (hb : isWordStart b = true) (t : Text) :
    (word b t).1.text ≠ [] := by
  simp [word, Text.cut, isWordPart, hb]

theorem string_ne_nil (b : UInt8) (t : Text) : (string b t).1.text ≠ [] := by
  unfold string
  split <;> simp

theorem slash_ne_nil (b : UInt8) (t : Text) : (slash b t).1.text ≠ [] := by
  unfold slash
  split
  · split
    · simp
    · split
      · split <;> simp
      · simp
  · simp

theorem operatorEqual_ne_nil (plain withEqual : TokenKind) (b : UInt8) (t : Text) :
    (operatorEqual plain withEqual b t).1.text ≠ [] := by
  unfold operatorEqual
  split
  · split <;> simp [operator]
  · simp [operator]

theorem first_ne_nil (b : UInt8) (t : Text) : (first b t).1.text ≠ [] := by
  unfold first
  split
  all_goals try
    first | exact List.cons_ne_nil _ _ | exact operatorEqual_ne_nil _ _ b t
          | exact slash_ne_nil b t | exact string_ne_nil b t
  split
  · exact number_ne_nil (by assumption) t
  · split
    · exact word_ne_nil (by assumption) t
    · unfold unexpected
      cases hg : (Text.firstGlyph b t).1 with
      | char c => simpa [hg, Glyph.bytes] using Text.ofChar_ne_nil c
      | stray s => simp [hg, Glyph.bytes]

theorem length_first_lt (b : UInt8) (t : Text) : (first b t).2.length < (b :: t).length := by
  have happend := congrArg List.length (first_append b t)
  have hpos := List.length_pos_iff.2 (first_ne_nil b t)
  rw [List.length_append] at happend
  omega

end Piece

namespace Text

/-- The pieces of a text, in order. -/
def pieces : Text → List Piece
  | [] => []
  | b :: t => (Piece.first b t).1 :: pieces (Piece.first b t).2
termination_by t => t.length
decreasing_by exact Piece.length_first_lt b t

/-- The pieces of a text make up the text. -/
theorem flatMap_pieces (t : Text) : t.pieces.flatMap Piece.text = t := by
  fun_induction pieces t with
  | case1 => rfl
  | case2 b t ih =>
    rw [List.flatMap_cons, ih]
    exact (Piece.first_append b t).symm

end Text

end Lox
