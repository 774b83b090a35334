import Lox.Proofs.Source.Splitting

/-!
# Tokens written apart

A space ends every token, and starts none. So the tokens of any source, written again with single
spaces between them, are read back as they are: nothing merges with its neighbour or turns into a
comment, and what was wrong with the source is gone.
-/

namespace Lox

open Text (byte)

/-- The byte that separates tokens that are written apart. -/
abbrev Text.space : UInt8 := byte ' '

/-- A token wherever it stands: its kind, its text and its value. -/
def Token.reading (t : Token) : TokenKind × Text × Literal := (t.kind, t.lexeme, t.literal)

/-- The lexemes of tokens with single spaces between them. -/
def Token.spaced (tokens : List Token) : Text :=
  Text.joinWith [Text.space] (tokens.map Token.lexeme)

/-! ### A space ends every token -/

/-- A run of bytes of a class ends at the first byte of no such class. -/
theorem Text.cut_append_cons {p : UInt8 → Bool} {t : Text} (h : ∀ a ∈ t, p a = true) {b : UInt8}
    (hb : p b = false) (u : Text) : (t ++ b :: u).cut p = (t, b :: u) := by
  rw [Text.cut_append_of_all h, Text.cut_cons_of_neg hb, List.append_nil]

namespace Piece

theorem number_append_space {digits fraction : Text} {b : UInt8} {t : Text}
    (h : Text.IsNumeral digits fraction (b :: t)) (u : Text) :
    number b (t ++ Text.space :: u) =
      (⟨ofValue? (Number.ofNumeral? digits fraction), b :: t⟩, Text.space :: u) := by
  generalize htext : b :: t = text at h
  cases h with
  | whole hdigits =>
    have hcut := Text.cut_append_cons hdigits.2 (b := Text.space) (by decide) u
    rw [← htext, List.cons_append, htext] at hcut
    exact number_of_no_fraction hcut (by cases u <;> rfl)
  | point hdigits hfraction =>
    have hcut := Text.cut_append_cons hdigits.2 (b := byte '.') (by decide)
      (fraction ++ Text.space :: u)
    rw [← List.cons_append, ← List.append_assoc, ← htext, List.cons_append] at hcut
    have hf := fraction?_of_isDigits hfraction (Text.space :: u)
    rw [Text.cut_cons_of_neg (by decide), List.append_nil] at hf
    exact number_of_fraction? hcut hf

theorem word_append_space {b : UInt8} {t : Text} (h : Text.IsWord (b :: t)) (u : Text) :
    word b (t ++ Text.space :: u) =
      (⟨.token (TokenKind.ofWord (b :: t)) .nil, b :: t⟩, Text.space :: u) := by
  unfold word
  rw [← List.cons_append, Text.cut_append_cons h.isWordPart (by decide)]

end Piece

/-- No operator goes on with a space. -/
theorem TokenKind.first_append_space {entry : String × TokenKind} (h : entry ∈ operators)
    (u : Text) : ∃ b t, Text.ofString entry.1 = b :: t ∧
      Piece.first b (t ++ Text.space :: u) = (⟨.token entry.2 .nil, b :: t⟩, Text.space :: u) := by
  simp only [operators, List.mem_cons, List.not_mem_nil, or_false] at h
  rcases h with rfl | rfl | rfl | rfl | rfl | rfl | rfl | rfl | rfl | rfl | rfl | rfl | rfl | rfl |
    rfl | rfl | rfl | rfl | rfl | rfl | rfl | rfl
  all_goals exact ⟨_, _, rfl, rfl⟩

/-- A token in front of a space is read as that token, and no further. -/
theorem Lexeme.first_append_space {kind : TokenKind} {literal : Literal} {b : UInt8} {t : Text}
    (h : Lexeme (.token kind literal) (b :: t)) (u : Text) :
    Piece.first b (t ++ Text.space :: u) = (⟨.token kind literal, b :: t⟩, Text.space :: u) := by
  generalize htext : b :: t = text at h
  cases h with
  | operator hmem =>
    obtain ⟨c, rest, hc, hfirst⟩ := TokenKind.first_append_space hmem u
    rw [hc] at htext ⊢
    obtain ⟨rfl, rfl⟩ := List.cons.inj htext
    exact hfirst
  | number hnumeral hx =>
    subst htext
    rw [Piece.first_of_isDigit hnumeral.isDigit, Piece.number_append_space hnumeral, hx]
    rfl
  | keyword hmem =>
    have hword := TokenKind.isWord_of_mem_keywords hmem
    have hkind := TokenKind.ofWord_of_mem_keywords hmem
    dsimp only at hword hkind
    rw [← htext] at hword hkind ⊢
    rw [Piece.first_of_isWordStart hword.isWordStart, Piece.word_append_space hword, hkind]
  | identifier hword hnot =>
    subst htext
    rw [Piece.first_of_isWordStart hword.isWordStart, Piece.word_append_space hword,
      TokenKind.ofWord_of_not_keyword hnot]
  | @string body hbody =>
    -- the space stands behind the closing quote, whatever is between the quotes
    obtain ⟨rfl, rfl⟩ := List.cons.inj htext
    rw [List.append_assoc, List.singleton_append]
    exact Piece.string_of_not_mem hbody (Text.space :: u)

/-! ### The pieces of tokens written apart -/

namespace Piece

/-- What the token of a piece is, if the piece is one. -/
def reading? (p : Piece) : Option (TokenKind × Text × Literal) :=
  match p.kind with
  | .token kind literal => some (kind, p.text, literal)
  | _ => none

/-- The piece between two tokens that are written apart. -/
def gap : Piece := ⟨.blank, [Text.space]⟩

theorem exists_kind_of_reading? {p : Piece} (h : p.reading?.isSome = true) :
    ∃ kind literal, p.kind = .token kind literal := by
  obtain ⟨kind, text⟩ := p
  cases kind with
  | token kind literal => exact ⟨kind, literal, rfl⟩
  | _ => cases h

theorem text_of_reading? {p : Piece} {r : TokenKind × Text × Literal} (h : p.reading? = some r) :
    p.text = r.2.1 := by
  obtain ⟨kind, text⟩ := p
  cases kind with
  | token kind literal =>
    cases h
    rfl
  | _ => cases h

/-- The texts of the tokens among pieces. -/
theorem map_text_filter (pieces : List Piece) :
    (pieces.filter (·.reading?.isSome)).map Piece.text =
      (pieces.filterMap reading?).map (·.2.1) := by
  induction pieces with
  | nil => rfl
  | cons p pieces ih =>
    cases hp : p.reading? with
    | none => simp [hp, ih]
    | some r => simp [hp, ih, text_of_reading? hp]

/-- Gaps are no tokens. -/
theorem filterMap_reading?_intersperse (pieces : List Piece) :
    (pieces.intersperse gap).filterMap reading? = pieces.filterMap reading? := by
  induction pieces with
  | nil => rfl
  | cons p pieces ih =>
    cases pieces with
    | nil => rfl
    | cons q pieces =>
      have hgap : gap.reading? = none := rfl
      rw [List.intersperse_cons_cons, List.filterMap_cons, List.filterMap_cons_none hgap, ih]
      rfl

/-- Nothing is wrong with tokens and the gaps between them. -/
theorem isFaulty_intersperse {pieces : List Piece} (h : ∀ p ∈ pieces, p.reading?.isSome = true) :
    ∀ p ∈ pieces.intersperse gap, p.isFaulty = false := by
  have htoken : ∀ p : Piece, p.reading?.isSome = true → p.isFaulty = false := by
    intro p hp
    obtain ⟨kind, literal, hk⟩ := exists_kind_of_reading? hp
    simp [isFaulty, hk]
  induction pieces with
  | nil => exact List.forall_mem_nil _
  | cons p pieces ih =>
    obtain ⟨hp, hrest⟩ := List.forall_mem_cons.mp h
    cases pieces with
    | nil => exact List.forall_mem_singleton.mpr (htoken p hp)
    | cons q pieces =>
      rw [List.intersperse_cons_cons]
      exact List.forall_mem_cons.mpr
        ⟨htoken p hp, List.forall_mem_cons.mpr ⟨rfl, ih hrest⟩⟩

end Piece

/-- Tokens written apart are read as these tokens, with gaps between them. -/
theorem Text.pieces_spaced {pieces : List Piece} (hkind : ∀ p ∈ pieces, p.reading?.isSome = true)
    (hlexeme : ∀ p ∈ pieces, Lexeme p.kind p.text) :
    (Text.joinWith [space] (pieces.map Piece.text)).pieces = pieces.intersperse Piece.gap := by
  induction pieces with
  | nil => rw [List.map_nil, Text.joinWith, Text.pieces, List.intersperse_nil]
  | cons p pieces ih =>
    obtain ⟨kind, text⟩ := p
    obtain ⟨hp, hkinds⟩ := List.forall_mem_cons.mp hkind
    obtain ⟨hl, hlexemes⟩ := List.forall_mem_cons.mp hlexeme
    obtain ⟨tokenKind, literal, rfl⟩ : ∃ k l, kind = .token k l := Piece.exists_kind_of_reading? hp
    obtain ⟨b, t, rfl⟩ : ∃ b t, text = b :: t := List.exists_cons_of_ne_nil hl.ne_nil
    cases pieces with
    | nil =>
      rw [List.map_singleton, Text.joinWith, Text.pieces, hl.first_eq, Text.pieces,
        List.intersperse_singleton]
    | cons q pieces =>
      -- the token up to the space, the space itself, and then the others
      have hspace : ∀ u, Piece.first space u = (Piece.gap, u) := fun _ => rfl
      rw [List.map_cons, List.map_cons, Text.joinWith_cons_cons, ← List.map_cons, List.append_assoc,
        List.singleton_append, List.cons_append, Text.pieces, hl.first_append_space, Text.pieces,
        hspace, ih hkinds hlexemes, List.intersperse_cons_cons]

/-! ### Scanning the tokens of a scan -/

namespace Scan

/-- The tokens among pieces, wherever they start. -/
theorem map_reading_tokensFrom (line : Nat) (pieces : List Piece) :
    (tokensFrom line pieces).map Token.reading =
      pieces.filterMap Piece.reading? ++ [(.eof, [], .nil)] := by
  induction pieces generalizing line with
  | nil => rfl
  | cons p pieces ih =>
    obtain ⟨kind, text⟩ := p
    cases kind with
    | token kind literal => exact congrArg (_ :: ·) (ih (line + text.newlines))
    | _ => exact ih (line + text.newlines)

/-- Scanning is stable. The tokens of any source, faulty or not, are some that mark no end and then
one that does. Their lexemes with single spaces between them are a source with which nothing is
wrong, and its tokens have the same kinds, lexemes and values in the same order. -/
theorem stable_under_rescanning (source : Text) :
    ∃ words stop, (ofSource source).tokens = words ++ [stop] ∧ stop.kind = .eof ∧
      (∀ t ∈ words, t.kind ≠ .eof) ∧
      (ofSource (Token.spaced words)).faults = [] ∧
      (ofSource (Token.spaced words)).tokens.map Token.reading =
        (ofSource source).tokens.map Token.reading := by
  have htokens : (ofSource source).tokens =
      (ofSource source).tokens.takeWhile (·.kind ≠ .eof) ++ _ :=
    tokensFrom_eq fun p hp => Text.isEnd_of_mem_pieces hp
  refine ⟨_, _, htokens, rfl, ?_, ?_⟩
  · intro t ht
    simpa using List.mem_takeWhile_imp ht
  generalize (ofSource source).tokens.takeWhile (·.kind ≠ .eof) = words at htokens ⊢
  -- the token pieces of the source are lexemes, and they are the words
  let pieces := source.pieces.filter (·.reading?.isSome)
  have hkind : ∀ p ∈ pieces, p.reading?.isSome = true := fun p hp => (List.mem_filter.mp hp).2
  have hlexeme : ∀ p ∈ pieces, Lexeme p.kind p.text := by
    intro p hp
    obtain ⟨kind, literal, hk⟩ := Piece.exists_kind_of_reading? (hkind p hp)
    exact (Text.Splits.pieces source).lexeme_of_mem (List.mem_filter.mp hp).1 hk
  have hreadings : words.map Token.reading = source.pieces.filterMap Piece.reading? := by
    have h := map_reading_tokensFrom 1 source.pieces
    change (ofSource source).tokens.map Token.reading = _ at h
    rw [htokens, List.map_append] at h
    exact List.append_inj_left' h rfl
  have hspaced : Token.spaced words = Text.joinWith [Text.space] (pieces.map Piece.text) := by
    rw [Piece.map_text_filter, ← hreadings, List.map_map]
    rfl
  have hpieces : (Token.spaced words).pieces = pieces.intersperse Piece.gap := by
    rw [hspaced, Text.pieces_spaced hkind hlexeme]
  constructor
  · change faultsFrom 1 (Token.spaced words).pieces = []
    rw [hpieces, faultsFrom_eq_nil_iff]
    exact Piece.isFaulty_intersperse hkind
  · change (tokensFrom 1 (Token.spaced words).pieces).map _ = (tokensFrom 1 source.pieces).map _
    rw [map_reading_tokensFrom, map_reading_tokensFrom, hpieces,
      Piece.filterMap_reading?_intersperse, List.filterMap_filter]
    congr 2
    funext p
    cases p.reading? <;> simp

end Scan

end Lox
