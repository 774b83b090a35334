import Lox.Proofs.Source.Pieces

/-!
# The lexical grammar

What a stretch of source can be is said here by a grammar of its own: blanks, comments, operators,
numerals, keywords, identifiers and strings, and what is left open at the end of a source. Whatever
the grammar admits is read as what it is, as far as it goes.
-/

namespace Lox

open Text (byte)

/-! ### The grammar -/

/-- The operators with their spellings. -/
def TokenKind.operators : List (String × TokenKind) :=
  [("(", leftParen), (")", rightParen), ("\x7b", leftBrace), ("\x7d", rightBrace), ("?", question),
    (",", comma), (".", dot), ("-", minus), ("+", plus), (";", semicolon), (":", colon),
    ("/", slash), ("*", star), ("%", percent), ("!", bang), ("!=", bangEqual), ("=", equal),
    ("==", equalEqual), (">", greater), (">=", greaterEqual), ("<", less), ("<=", lessEqual)]

namespace Text

/-- A letter or an underscore, followed by letters, digits and underscores. -/
def IsWord (t : Text) : Prop :=
  ∃ b rest, t = b :: rest ∧ Piece.isWordStart b = true ∧ ∀ a ∈ rest, Piece.isWordPart a = true

theorem IsWord.isWordPart {t : Text} (h : t.IsWord) : ∀ a ∈ t, Piece.isWordPart a = true := by
  obtain ⟨b, rest, rfl, hb, hrest⟩ := h
  refine List.forall_mem_cons.mpr ⟨?_, hrest⟩
  simp [Piece.isWordPart, hb]

theorem IsWord.isWordStart {b : UInt8} {t : Text} (h : IsWord (b :: t)) :
    Piece.isWordStart b = true := by
  obtain ⟨c, rest, heq, hc, -⟩ := h
  obtain ⟨rfl, -⟩ := List.cons.inj heq
  exact hc

theorem IsWord.ne_nil {t : Text} (h : t.IsWord) : t ≠ [] := by
  obtain ⟨b, rest, rfl, -⟩ := h
  exact List.cons_ne_nil b rest

/-- One digit or more. -/
def IsDigits (t : Text) : Prop := t ≠ [] ∧ ∀ d ∈ t, Number.isDigit d = true

/-- Digits, and a point with more digits after it or neither of them. -/
inductive IsNumeral : (digits fraction text : Text) → Prop
  | whole {digits : Text} : IsDigits digits → IsNumeral digits [] digits
  | point {digits fraction : Text} : IsDigits digits → IsDigits fraction →
      IsNumeral digits fraction (digits ++ byte '.' :: fraction)

theorem IsNumeral.ne_nil {digits fraction text : Text} (h : IsNumeral digits fraction text) :
    text ≠ [] := by
  cases h with
  | whole hdigits => exact hdigits.1
  | point => simp

theorem IsNumeral.isDigit {digits fraction : Text} {b : UInt8} {t : Text}
    (h : IsNumeral digits fraction (b :: t)) : Number.isDigit b = true := by
  generalize htext : b :: t = text at h
  cases h with
  | whole hdigits => exact hdigits.2 b (htext ▸ List.mem_cons_self)
  | point hdigits hfraction =>
    obtain ⟨d, rest, rfl⟩ := List.exists_cons_of_ne_nil hdigits.1
    obtain ⟨rfl, -⟩ := List.cons.inj htext
    exact hdigits.2 b List.mem_cons_self

/-- The mark that closes a comment. -/
def closing : Text := [byte '*', byte '/']

end Text

/-- The lexical grammar: what a stretch of source can be by itself. -/
inductive Lexeme : PieceKind → Text → Prop
  | blank {b : UInt8} : b ∈ [byte ' ', byte '\r', byte '\t', byte '\n'] → Lexeme .blank [b]
  | lineComment {body : Text} : byte '\n' ∉ body →
      Lexeme .lineComment (byte '/' :: byte '/' :: body)
  | blockComment {body : Text} : ¬ Text.closing <:+: body →
      Lexeme .blockComment (byte '/' :: byte '*' :: (body ++ Text.closing))
  | operator {spelling : String} {kind : TokenKind} : (spelling, kind) ∈ TokenKind.operators →
      Lexeme (.token kind .nil) spelling
  | number {digits fraction text : Text} {x : Float} : Text.IsNumeral digits fraction text →
      Number.ofNumeral? digits fraction = some x → Lexeme (.token .number (.number x)) text
  | numberTooLarge {digits fraction text : Text} : Text.IsNumeral digits fraction text →
      Number.ofNumeral? digits fraction = none → Lexeme (.fault .numberTooLarge) text
  | keyword {spelling : String} {kind : TokenKind} : (spelling, kind) ∈ TokenKind.keywords →
      Lexeme (.token kind .nil) spelling
  | identifier {text : Text} : text.IsWord →
      (∀ entry ∈ TokenKind.keywords, text ≠ Text.ofString entry.1) →
      Lexeme (.token .identifier .nil) text
  | string {body : Text} : byte '"' ∉ body →
      Lexeme (.token .string (.string body)) (byte '"' :: (body ++ [byte '"']))

/-- Strings and comments that nothing closes before the end of the source. -/
inductive Unclosed : LexicalProblem → Text → Prop
  | string {body : Text} : byte '"' ∉ body → Unclosed .unterminatedString (byte '"' :: body)
  | comment {body : Text} : ¬ Text.closing <:+: body →
      Unclosed .unterminatedComment (byte '/' :: byte '*' :: body)

/-! ### Cutting -/

theorem Text.eq_byte_of_ofUInt8 {b : UInt8} {c : Char} (h : Char.ofUInt8 b = c) : b = byte c := by
  subst h
  apply UInt8.toNat_inj.mp
  have hb : b.toNat < 256 := b.toNat_lt
  show b.toNat = (UInt32.toUInt8 b.toUInt32).toNat
  simp

theorem Text.cut_append_of_all {p : UInt8 → Bool} {t : Text} (h : ∀ a ∈ t, p a = true) (u : Text) :
    (t ++ u).cut p = (t ++ (u.cut p).1, (u.cut p).2) := by
  unfold Text.cut
  rw [List.takeWhile_append_of_pos h, List.dropWhile_append_of_pos h]

theorem Text.cut_of_all {p : UInt8 → Bool} {t : Text} (h : ∀ a ∈ t, p a = true) :
    t.cut p = (t, []) := by
  have hcut := Text.cut_append_of_all h []
  simpa [Text.cut] using hcut

theorem Text.cut_cons_of_neg {p : UInt8 → Bool} {b : UInt8} (h : p b = false) (t : Text) :
    Text.cut p (b :: t) = ([], b :: t) := by
  simp [Text.cut, h]

theorem Text.cut_of_notMem {sep : UInt8} {t : Text} (h : sep ∉ t) : t.cut (· ≠ sep) = (t, []) :=
  Text.cut_of_all fun _ ha => decide_eq_true fun heq => h (heq ▸ ha)

/-- A text is cut at the first separator. -/
theorem Text.cut_append_of_notMem {sep : UInt8} {t : Text} (h : sep ∉ t) (u : Text) :
    (t ++ sep :: u).cut (· ≠ sep) = (t, sep :: u) := by
  have hbefore : ∀ a ∈ t, decide (a ≠ sep) = true := by
    intro a ha
    exact decide_eq_true fun heq => h (heq ▸ ha)
  rw [Text.cut_append_of_all hbefore, Text.cut_cons_of_neg (by simp), List.append_nil]

namespace Piece

/-- A comment is closed by the first closing mark. -/
theorem closeComment?_of_not_infix {body : Text} (h : ¬ Text.closing <:+: body) (rest : Text) :
    closeComment? (body ++ Text.closing ++ rest) = some (body ++ Text.closing, rest) := by
  induction body with
  | nil => simp [closeComment?, Text.closing]
  | cons a body ih =>
    rw [List.infix_cons_iff, not_or] at h
    obtain ⟨c, tail, hc⟩ : ∃ c tail, body ++ Text.closing = c :: tail :=
      List.exists_cons_of_ne_nil (by simp [Text.closing])
    -- the mark does not start at `a`: `c` belongs to the body or is the star of the mark
    have hmark : ¬ (a = byte '*' ∧ c = byte '/') := by
      rintro ⟨rfl, rfl⟩
      cases body with
      | nil => exact absurd (List.cons.inj hc).1 (by decide)
      | cons d body =>
        obtain ⟨rfl, -⟩ := List.cons.inj hc
        exact h.1 ⟨body, rfl⟩
    have ih := ih h.2
    rw [hc, List.cons_append] at ih
    rw [List.cons_append, List.cons_append, hc, List.cons_append, closeComment?, if_neg hmark, ih]
    rfl

/-- What closes a comment is the first closing mark. -/
theorem closeComment?_eq_some {t text rest : Text} (h : closeComment? t = some (text, rest)) :
    ∃ body, text = body ++ Text.closing ∧ ¬ Text.closing <:+: body := by
  fun_induction closeComment? t generalizing text rest with
  | case1 => cases h
  | case2 => cases h
  | case3 a b t hab =>
    obtain ⟨rfl, rfl⟩ := hab
    obtain ⟨rfl, rfl⟩ := Prod.mk.inj (Option.some.inj h)
    exact ⟨[], rfl, by decide⟩
  | case4 a b t hab ih =>
    obtain ⟨⟨text', rest'⟩, hclose, heq⟩ := Option.map_eq_some_iff.mp h
    obtain ⟨rfl, rfl⟩ := Prod.mk.inj heq
    obtain ⟨body, rfl, hbody⟩ := ih hclose
    refine ⟨a :: body, rfl, ?_⟩
    rw [List.infix_cons_iff, not_or]
    refine ⟨?_, hbody⟩
    rintro ⟨v, hv⟩
    obtain ⟨rfl, rfl⟩ := List.cons.inj hv
    exact hab ⟨rfl, (List.cons.inj (closeComment?_append hclose)).1⟩

theorem closeComment?_eq_none_iff {t : Text} :
    closeComment? t = none ↔ ¬ Text.closing <:+: t := by
  fun_induction closeComment? t with
  | case1 => simp [Text.closing]
  | case2 a => simp [Text.closing, List.infix_cons_iff]
  | case3 a b t hab =>
    obtain ⟨rfl, rfl⟩ := hab
    have hmarked : Text.closing <:+: byte '*' :: byte '/' :: t := ⟨[], t, rfl⟩
    simp [hmarked]
  | case4 a b t hab ih =>
    have hmark : ¬ Text.closing <+: a :: b :: t := by
      rintro ⟨v, hv⟩
      simp only [Text.closing, List.cons_append, List.cons.injEq] at hv
      exact hab ⟨hv.1.symm, hv.2.1.symm⟩
    rw [Option.map_eq_none_iff, ih, List.infix_cons_iff (a := a)]
    simp [hmark]

/-! ### Whatever the grammar admits is read -/

theorem slash_of_lineComment {body : Text} (h : byte '\n' ∉ body) (u : Text) :
    slash (byte '/') (byte '/' :: body ++ u) =
      (⟨.lineComment, byte '/' :: byte '/' :: body ++ (u.cut (· ≠ byte '\n')).1⟩,
        (u.cut (· ≠ byte '\n')).2) := by
  have hbody : ∀ a ∈ byte '/' :: body, decide (a ≠ byte '\n') = true := by
    intro a ha
    refine decide_eq_true ?_
    rintro rfl
    rcases List.mem_cons.mp ha with hslash | ha
    · exact absurd hslash (by decide)
    · exact h ha
  have hcut := Text.cut_append_of_all hbody u
  rw [List.cons_append] at hcut ⊢
  simp only [slash, if_true, hcut, List.cons_append]

theorem slash_of_blockComment {body : Text} (h : ¬ Text.closing <:+: body) (u : Text) :
    slash (byte '/') (byte '*' :: (body ++ Text.closing) ++ u) =
      (⟨.blockComment, byte '/' :: byte '*' :: (body ++ Text.closing)⟩, u) := by
  have hne : byte '*' ≠ byte '/' := by decide
  simp only [slash, List.cons_append, if_neg hne, if_true, closeComment?_of_not_infix h u]

theorem slash_of_unclosed {body : Text} (h : ¬ Text.closing <:+: body) :
    slash (byte '/') (byte '*' :: body) =
      (⟨.fault .unterminatedComment, byte '/' :: byte '*' :: body⟩, []) := by
  have hne : byte '*' ≠ byte '/' := by decide
  simp only [slash, if_neg hne, if_true, closeComment?_eq_none_iff.mpr h]

theorem first_of_isDigit {b : UInt8} (h : Number.isDigit b = true) (t : Text) :
    first b t = number b t := by
  unfold first
  split
  case h_24 => rw [if_pos h]
  all_goals
    next hc =>
      rw [Text.eq_byte_of_ofUInt8 hc] at h
      exact absurd h (by decide)

theorem first_of_isWordStart {b : UInt8} (h : isWordStart b = true) (t : Text) :
    first b t = word b t := by
  unfold first
  split
  case h_24 =>
    have hd : ¬ Number.isDigit b = true := by
      simp only [isWordStart, Number.isDigit, decide_eq_true_eq, UInt8.le_iff_toNat_le,
        ← UInt8.toNat_inj, UInt8.reduceToNat] at h ⊢
      omega
    rw [if_neg hd, if_pos h]
  all_goals
    next hc =>
      rw [Text.eq_byte_of_ofUInt8 hc] at h
      exact absurd h (by decide)

theorem string_of_not_mem {body : Text} (h : byte '"' ∉ body) (t : Text) :
    string (byte '"') (body ++ byte '"' :: t) =
      (⟨.token .string (.string body), byte '"' :: body ++ [byte '"']⟩, t) := by
  unfold string
  rw [Text.cut_append_of_notMem h]

theorem string_of_unclosed {body : Text} (h : byte '"' ∉ body) :
    string (byte '"') body = (⟨.fault .unterminatedString, byte '"' :: body⟩, []) := by
  unfold string
  rw [Text.cut_of_notMem h]

/-- What a numeral is, by its value. -/
def ofValue? : Option Float → PieceKind
  | some x => .token .number (.number x)
  | none => .fault .numberTooLarge

theorem number_of_fraction? {b : UInt8} {t digits rest fraction rest' : Text}
    (hcut : Text.cut Number.isDigit (b :: t) = (digits, rest))
    (hf : fraction? rest = some (fraction, rest')) :
    number b t = (⟨ofValue? (Number.ofNumeral? digits fraction),
      digits ++ byte '.' :: fraction⟩, rest') := by
  unfold number
  rw [hcut]
  dsimp only
  rw [hf]
  dsimp only
  cases Number.ofNumeral? digits fraction <;> rfl

theorem number_of_no_fraction {b : UInt8} {t digits rest : Text}
    (hcut : Text.cut Number.isDigit (b :: t) = (digits, rest)) (hf : fraction? rest = none) :
    number b t = (⟨ofValue? (Number.ofNumeral? digits []), digits⟩, rest) := by
  unfold number
  rw [hcut]
  dsimp only
  rw [hf]
  dsimp only
  cases Number.ofNumeral? digits [] <;> rfl

theorem fraction?_of_isDigits {fraction : Text} (h : fraction.IsDigits) (t : Text) :
    fraction? (byte '.' :: fraction ++ t) =
      some (fraction ++ (t.cut Number.isDigit).1, (t.cut Number.isDigit).2) := by
  obtain ⟨d, rest, rfl⟩ := List.exists_cons_of_ne_nil h.1
  have hd : Number.isDigit d = true := h.2 d List.mem_cons_self
  rw [← Text.cut_append_of_all h.2]
  simp [fraction?, hd]

theorem isDigits_of_fraction? {t fraction rest : Text} (h : fraction? t = some (fraction, rest)) :
    fraction.IsDigits := by
  unfold fraction? at h
  split at h
  · split at h
    · next hp =>
      obtain ⟨rfl, -⟩ := Prod.mk.inj (Option.some.inj h)
      exact ⟨by simp [hp.2], fun a ha => List.mem_takeWhile_imp ha⟩
    · cases h
  · cases h

/-- A numeral is read up to its last digit, or beyond. -/
theorem prefix_number {digits fraction : Text} {b : UInt8} {t : Text}
    (h : Text.IsNumeral digits fraction (b :: t)) (u : Text) :
    b :: t <+: (number b (t ++ u)).1.text := by
  generalize htext : b :: t = text at h
  cases h with
  | whole hdigits =>
    have hcut := Text.cut_append_of_all hdigits.2 u
    rw [← htext, List.cons_append, htext] at hcut
    cases hf : fraction? (u.cut Number.isDigit).2 with
    | none =>
      rw [number_of_no_fraction hcut hf]
      exact List.prefix_append _ _
    | some found =>
      rw [number_of_fraction? hcut hf, List.append_assoc]
      exact List.prefix_append _ _
  | point hdigits hfraction =>
    have hcut := Text.cut_append_of_all hdigits.2 (byte '.' :: fraction ++ u)
    rw [List.cons_append, Text.cut_cons_of_neg (by decide), List.append_nil,
      ← List.cons_append, ← List.append_assoc, ← htext, List.cons_append] at hcut
    rw [number_of_fraction? hcut (fraction?_of_isDigits hfraction u), ← List.cons_append,
      ← List.append_assoc]
    exact List.prefix_append _ _

theorem kind_number {digits fraction : Text} {b : UInt8} {t : Text}
    (h : Text.IsNumeral digits fraction (b :: t)) :
    (number b t).1.kind = ofValue? (Number.ofNumeral? digits fraction) := by
  generalize htext : b :: t = text at h
  cases h with
  | whole hdigits =>
    have hcut := Text.cut_of_all hdigits.2
    rw [← htext] at hcut
    rw [number_of_no_fraction hcut rfl, htext]
  | point hdigits hfraction =>
    have hcut := Text.cut_append_of_all hdigits.2 (byte '.' :: fraction)
    rw [Text.cut_cons_of_neg (by decide), List.append_nil, ← htext] at hcut
    have hf := fraction?_of_isDigits hfraction []
    rw [List.append_nil, Text.cut_of_all (List.forall_mem_nil _), List.append_nil] at hf
    rw [number_of_fraction? hcut hf]

/-- Digits are a numeral, with their fraction if they have one. -/
theorem isNumeral_number {b : UInt8} (hb : Number.isDigit b = true) (t : Text) :
    ∃ digits fraction, Text.IsNumeral digits fraction (number b t).1.text ∧
      (number b t).1.kind = ofValue? (Number.ofNumeral? digits fraction) := by
  have hdigits : Text.IsDigits (Text.cut Number.isDigit (b :: t)).1 :=
    ⟨by simp [Text.cut, hb], fun a ha => List.mem_takeWhile_imp ha⟩
  cases hf : fraction? (Text.cut Number.isDigit (b :: t)).2 with
  | none =>
    rw [number_of_no_fraction rfl hf]
    exact ⟨_, [], .whole hdigits, rfl⟩
  | some found =>
    obtain ⟨fraction, rest⟩ := found
    rw [number_of_fraction? rfl hf]
    exact ⟨_, fraction, .point hdigits (isDigits_of_fraction? hf), rfl⟩

theorem prefix_word {b : UInt8} {t : Text} (h : Text.IsWord (b :: t)) (u : Text) :
    b :: t <+: (word b (t ++ u)).1.text := by
  unfold word
  rw [← List.cons_append, Text.cut_append_of_all h.isWordPart]
  exact List.prefix_append _ _

theorem word_of_isWord {b : UInt8} {t : Text} (h : Text.IsWord (b :: t)) :
    word b t = (⟨.token (TokenKind.ofWord (b :: t)) .nil, b :: t⟩, []) := by
  unfold word
  rw [Text.cut_of_all h.isWordPart]

theorem isWord_word {b : UInt8} (hb : isWordStart b = true) (t : Text) :
    Text.IsWord (word b t).1.text := by
  have hpart : isWordPart b = true := by simp [isWordPart, hb]
  refine ⟨b, t.takeWhile isWordPart, ?_, hb, fun a ha => List.mem_takeWhile_imp ha⟩
  simp [word, Text.cut, hpart]

/-- The first piece starts where the text does. -/
theorem singleton_prefix_first (b : UInt8) (t : Text) : [b] <+: (first b t).1.text := by
  obtain ⟨c, text, h⟩ := List.exists_cons_of_ne_nil (first_ne_nil b t)
  have happend := first_append b t
  rw [h, List.cons_append] at happend
  obtain ⟨rfl, -⟩ := List.cons.inj happend
  rw [h]
  exact ⟨text, rfl⟩

end Piece

/-! ### Keywords and operators -/

namespace TokenKind

theorem isWord_of_mem_keywords {entry : String × TokenKind} (h : entry ∈ keywords) :
    Text.IsWord entry.1 := by
  have hall : ∀ entry ∈ keywords, (Text.ofString entry.1).head?.any Piece.isWordStart = true ∧
      (Text.ofString entry.1).all Piece.isWordPart = true := by decide
  obtain ⟨hhead, hrest⟩ := hall entry h
  cases htext : Text.ofString entry.1 with
  | nil =>
    rw [htext] at hhead
    cases hhead
  | cons b rest =>
    rw [htext] at hhead hrest
    rw [List.all_cons, Bool.and_eq_true, List.all_eq_true] at hrest
    exact ⟨b, rest, rfl, hhead, hrest.2⟩

theorem ofWord_of_mem_keywords {entry : String × TokenKind} (h : entry ∈ keywords) :
    ofWord entry.1 = entry.2 := by
  have hall : ∀ entry ∈ keywords, ofWord entry.1 = entry.2 := by decide
  exact hall entry h

theorem ofWord_of_not_keyword {word : Text}
    (h : ∀ entry ∈ keywords, word ≠ Text.ofString entry.1) : ofWord word = .identifier := by
  unfold ofWord
  split
  · next spelling kind hfind =>
    have hmem : (spelling, kind) ∈ keywords := List.mem_of_find?_eq_some hfind
    have heq : Text.ofString spelling = word := by simpa using List.find?_some hfind
    exact absurd heq.symm (h _ hmem)
  · rfl

/-- A word is a keyword or an identifier. -/
theorem ofWord_cases (word : Text) :
    (∃ entry ∈ keywords, word = Text.ofString entry.1 ∧ ofWord word = entry.2) ∨
      (∀ entry ∈ keywords, word ≠ Text.ofString entry.1) ∧ ofWord word = .identifier := by
  by_cases h : ∃ entry ∈ keywords, word = Text.ofString entry.1
  · obtain ⟨entry, hentry, rfl⟩ := h
    exact .inl ⟨entry, hentry, rfl, ofWord_of_mem_keywords hentry⟩
  · push Not at h
    exact .inr ⟨h, ofWord_of_not_keyword h⟩

example : keywords.length = 19 := rfl

/-- An operator is one byte, or two of which the second is an equals sign; and it is read. -/
theorem first_of_mem_operators {entry : String × TokenKind} (h : entry ∈ operators) :
    ∃ b, (Text.ofString entry.1 = [b] ∧
        Piece.first b [] = (⟨.token entry.2 .nil, [b]⟩, [])) ∨
      (Text.ofString entry.1 = [b, byte '='] ∧
        ∀ t, Piece.first b (byte '=' :: t) = (⟨.token entry.2 .nil, [b, byte '=']⟩, t)) := by
  simp only [operators, List.mem_cons, List.not_mem_nil, or_false] at h
  rcases h with rfl | rfl | rfl | rfl | rfl | rfl | rfl | rfl | rfl | rfl | rfl | rfl | rfl | rfl |
    rfl | rfl | rfl | rfl | rfl | rfl | rfl | rfl
  all_goals
    first
    | exact ⟨_, .inl ⟨rfl, rfl⟩⟩
    | exact ⟨_, .inr ⟨rfl, fun _ => rfl⟩⟩

/-- The spelling of an operator or a keyword. -/
def text (kind : TokenKind) : Text :=
  match (operators ++ keywords).find? fun entry => entry.2 = kind with
  | some entry => entry.1
  | none => []

theorem text_of_mem {entry : String × TokenKind} (h : entry ∈ operators ++ keywords) :
    Text.ofString entry.1 = entry.2.text := by
  have hall : ∀ entry ∈ operators ++ keywords, Text.ofString entry.1 = entry.2.text := by decide
  exact hall entry h

end TokenKind

namespace Lexeme

variable {kind : PieceKind} {text : Text} {b : UInt8} {t : Text}

theorem numeral {digits fraction : Text} (h : Text.IsNumeral digits fraction text) :
    Lexeme (Piece.ofValue? (Number.ofNumeral? digits fraction)) text := by
  cases hx : Number.ofNumeral? digits fraction with
  | some x => exact .number h hx
  | none => exact .numberTooLarge h hx

theorem word (h : text.IsWord) : Lexeme (.token (TokenKind.ofWord text) .nil) text := by
  rcases TokenKind.ofWord_cases text with ⟨entry, hentry, rfl, hkind⟩ | ⟨hnot, hkind⟩
  · rw [hkind]
    exact .keyword hentry
  · rw [hkind]
    exact .identifier h hnot

/-- A stretch that the grammar admits is read as what it is if nothing follows, and otherwise the
piece read may only go on beyond it. -/
theorem prefix_first (h : Lexeme kind (b :: t)) (u : Text) :
    b :: t <+: (Piece.first b (t ++ u)).1.text ∧ (Piece.first b t).1.kind = kind := by
  generalize htext : b :: t = text at h
  cases h with
  | blank hb =>
    obtain ⟨rfl, rfl⟩ := List.cons.inj htext
    refine ⟨Piece.singleton_prefix_first b u, ?_⟩
    simp only [List.mem_cons, List.not_mem_nil, or_false] at hb
    rcases hb with rfl | rfl | rfl | rfl <;> rfl
  | @lineComment body hbody =>
    obtain ⟨rfl, rfl⟩ := List.cons.inj htext
    have hfirst : ∀ u, Piece.first (byte '/') (byte '/' :: body ++ u) = _ :=
      Piece.slash_of_lineComment hbody
    refine ⟨?_, ?_⟩
    · rw [hfirst u]
      exact List.prefix_append _ _
    · rw [← List.append_nil (byte '/' :: body), hfirst []]
  | @blockComment body hbody =>
    obtain ⟨rfl, rfl⟩ := List.cons.inj htext
    have hfirst : ∀ u, Piece.first (byte '/') (byte '*' :: (body ++ Text.closing) ++ u) = _ :=
      Piece.slash_of_blockComment hbody
    refine ⟨?_, ?_⟩
    · rw [hfirst u]
    · rw [← List.append_nil (byte '*' :: _), hfirst []]
  | operator hmem =>
    obtain ⟨c, ⟨hc, hone⟩ | ⟨hc, htwo⟩⟩ := TokenKind.first_of_mem_operators hmem
    · rw [hc] at htext ⊢
      obtain ⟨rfl, rfl⟩ := List.cons.inj htext
      exact ⟨Piece.singleton_prefix_first b u, by rw [hone]⟩
    · rw [hc] at htext ⊢
      obtain ⟨rfl, rfl⟩ := List.cons.inj htext
      refine ⟨?_, by rw [htwo]⟩
      rw [List.cons_append, htwo]
  | number hnumeral hx =>
    subst htext
    rw [Piece.first_of_isDigit hnumeral.isDigit, Piece.first_of_isDigit hnumeral.isDigit]
    exact ⟨Piece.prefix_number hnumeral u, by rw [Piece.kind_number hnumeral, hx]; rfl⟩
  | numberTooLarge hnumeral hx =>
    subst htext
    rw [Piece.first_of_isDigit hnumeral.isDigit, Piece.first_of_isDigit hnumeral.isDigit]
    exact ⟨Piece.prefix_number hnumeral u, by rw [Piece.kind_number hnumeral, hx]; rfl⟩
  | keyword hmem =>
    have hword := TokenKind.isWord_of_mem_keywords hmem
    have hkind := TokenKind.ofWord_of_mem_keywords hmem
    dsimp only at hword hkind
    rw [← htext] at hword hkind ⊢
    rw [Piece.first_of_isWordStart hword.isWordStart, Piece.first_of_isWordStart hword.isWordStart]
    exact ⟨Piece.prefix_word hword u, by rw [Piece.word_of_isWord hword, hkind]⟩
  | identifier hword hnot =>
    subst htext
    rw [Piece.first_of_isWordStart hword.isWordStart, Piece.first_of_isWordStart hword.isWordStart]
    refine ⟨Piece.prefix_word hword u, ?_⟩
    rw [Piece.word_of_isWord hword, TokenKind.ofWord_of_not_keyword hnot]
  | @string body hbody =>
    obtain ⟨rfl, rfl⟩ := List.cons.inj htext
    have hfirst : ∀ u, Piece.first (byte '"') (body ++ byte '"' :: u) = _ :=
      Piece.string_of_not_mem hbody
    refine ⟨?_, ?_⟩
    · rw [List.append_assoc, List.singleton_append, hfirst u]
      exact List.prefix_refl _
    · rw [hfirst []]

/-- A stretch that the grammar admits is by itself one piece. -/
theorem first_eq (h : Lexeme kind (b :: t)) : Piece.first b t = (⟨kind, b :: t⟩, []) := by
  obtain ⟨⟨more, hstart⟩, hkind⟩ := h.prefix_first []
  rw [List.append_nil] at hstart
  have happend := Piece.first_append b t
  rw [← hstart, List.append_assoc] at happend
  obtain ⟨rfl, hrest⟩ := List.append_eq_nil_iff.mp (List.self_eq_append_right.mp happend)
  rw [List.append_nil] at hstart
  refine Prod.ext ?_ hrest
  rw [hstart, ← hkind]

theorem ne_nil (h : Lexeme kind text) : text ≠ [] := by
  cases h with
  | operator hmem =>
    obtain ⟨c, ⟨hc, -⟩ | ⟨hc, -⟩⟩ := TokenKind.first_of_mem_operators hmem <;> simp [hc]
  | number hnumeral => exact hnumeral.ne_nil
  | numberTooLarge hnumeral => exact hnumeral.ne_nil
  | keyword hmem => exact (TokenKind.isWord_of_mem_keywords hmem).ne_nil
  | identifier hword => exact hword.ne_nil
  | _ => simp

theorem kind_ne_unexpected (h : Lexeme kind text) (g : Glyph) : kind ≠ .fault (.unexpected g) := by
  cases h <;> simp

/-- Where a kind has only one spelling, it is that. -/
theorem text_eq {kind : TokenKind} {literal : Literal} (h : Lexeme (.token kind literal) text)
    (hk : kind ∉ [.identifier, .number, .string]) : text = kind.text := by
  cases h with
  | operator hmem => exact TokenKind.text_of_mem (List.mem_append_left _ hmem)
  | keyword hmem => exact TokenKind.text_of_mem (List.mem_append_right _ hmem)
  | identifier | number | string => exact absurd hk (by decide)

theorem of_mem_operators {kind : TokenKind}
    (h : (text, kind) ∈ TokenKind.operators.map fun entry => (Text.ofString entry.1, entry.2)) :
    Lexeme (.token kind .nil) text := by
  obtain ⟨entry, hentry, heq⟩ := List.mem_map.mp h
  obtain ⟨rfl, rfl⟩ := Prod.mk.inj heq
  exact .operator hentry

end Lexeme

/-- What nothing closes is one piece. -/
theorem Unclosed.first_eq {problem : LexicalProblem} {b : UInt8} {t : Text}
    (h : Unclosed problem (b :: t)) : Piece.first b t = (⟨.fault problem, b :: t⟩, []) := by
  cases h with
  | string hbody => exact Piece.string_of_unclosed hbody
  | comment hbody => exact Piece.slash_of_unclosed hbody

end Lox
