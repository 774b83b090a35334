import Lox.Proofs.Source.Lexicon

/-!
# Splitting a source

A source splits into pieces of the lexical grammar, each as long as the grammar allows at its
position; where nothing fits, one glyph is a piece by itself. There is one such split, and it is the
one that is read. Tokens and problems are the pieces of it, on the lines on which they end.
-/

namespace Lox

open Text (byte)

/-- A glyph at the start of a text: a character, or one byte where no character starts. -/
def Glyph.Starts : Glyph → Text → Prop
  | char c, t => Text.ofChar c <+: t
  | stray b, t => [b] <+: t ∧ ∀ c, ¬ Text.ofChar c <+: t

/-- A piece at the start of a source, with the text after it: the longest stretch that the grammar
admits there; or what nothing closes; or, where there is neither, a single glyph. -/
inductive Piece.Stands : Piece → Text → Prop
  | lexeme {kind : PieceKind} {text rest : Text} : Lexeme kind text →
      (∀ kind' text', Lexeme kind' text' → text' <+: text ++ rest → text'.length ≤ text.length) →
      (∀ problem, ¬ Unclosed problem (text ++ rest)) → Stands ⟨kind, text⟩ rest
  | unclosed {problem : LexicalProblem} {text : Text} : Unclosed problem text →
      Stands ⟨.fault problem, text⟩ []
  | unexpected {g : Glyph} {rest : Text} : g.Starts (g.bytes ++ rest) →
      (∀ kind text, Lexeme kind text → ¬ text <+: g.bytes ++ rest) →
      (∀ problem, ¬ Unclosed problem (g.bytes ++ rest)) →
      Stands ⟨.fault (.unexpected g), g.bytes⟩ rest

/-- A source as consecutive pieces, with nothing left over. -/
inductive Text.Splits : Text → List Piece → Prop
  | nil : Splits [] []
  | cons {p : Piece} {rest : Text} {pieces : List Piece} : p.Stands rest → Splits rest pieces →
      Splits (p.text ++ rest) (p :: pieces)

theorem Text.starts_firstGlyph (b : UInt8) (t : Text) : (firstGlyph b t).1.Starts (b :: t) := by
  unfold firstGlyph
  cases hd : decode? (b :: t) with
  | some found => exact ⟨found.2, (decode?_eq_some_iff.mp hd).symm⟩
  | none => exact ⟨⟨t, rfl⟩, decode?_eq_none_iff.mp hd⟩

/-- One glyph only stands at the start of a text. -/
theorem Glyph.Starts.firstGlyph_eq {g : Glyph} {b : UInt8} {t rest : Text} (h : g.Starts (b :: t))
    (heq : g.bytes ++ rest = b :: t) : Text.firstGlyph b t = (g, rest) := by
  unfold Text.firstGlyph
  cases g with
  | char c => rw [Text.decode?_eq_some_iff.mpr heq.symm]
  | stray s =>
    rw [Text.decode?_eq_none_iff.mpr h.2]
    obtain ⟨rfl, rfl⟩ := List.cons.inj heq
    rfl

/-! ### Whatever is read is admitted by the grammar -/

namespace Piece

theorem lexeme_operator {kind : TokenKind} {b : UInt8} (h : Lexeme (.token kind .nil) [b])
    (t : Text) : Lexeme (operator kind b t).1.kind (operator kind b t).1.text := h

theorem lexeme_operatorEqual {plain withEqual : TokenKind} {b : UInt8}
    (hplain : Lexeme (.token plain .nil) [b])
    (hequal : Lexeme (.token withEqual .nil) [b, byte '=']) (t : Text) :
    Lexeme (operatorEqual plain withEqual b t).1.kind
      (operatorEqual plain withEqual b t).1.text := by
  cases t with
  | nil => exact hplain
  | cons c t =>
    by_cases hc : c = byte '='
    · subst hc
      exact hequal
    · simp only [operatorEqual, if_neg hc]
      exact hplain

theorem lexeme_string (t : Text) :
    Lexeme (string (byte '"') t).1.kind (string (byte '"') t).1.text ∨
      ∃ problem, Unclosed problem (byte '"' :: t) := by
  by_cases h : byte '"' ∈ t
  · obtain ⟨body, rest, rfl, hbody⟩ := List.eq_append_cons_of_mem h
    rw [string_of_not_mem hbody]
    exact .inl (.string hbody)
  · exact .inr ⟨_, .string h⟩

theorem lexeme_slash (t : Text) :
    Lexeme (slash (byte '/') t).1.kind (slash (byte '/') t).1.text ∨
      ∃ problem, Unclosed problem (byte '/' :: t) := by
  cases t with
  | nil => exact .inl (.of_mem_operators (by decide))
  | cons c t =>
    by_cases hc : c = byte '/'
    · subst hc
      have hbody : byte '\n' ∉ t.takeWhile (· ≠ byte '\n') := by
        intro hmem
        simpa using List.mem_takeWhile_imp hmem
      exact .inl (.lineComment hbody)
    · by_cases hs : c = byte '*'
      · subst hs
        by_cases hclosing : Text.closing <:+: t
        · cases hclose : closeComment? t with
          | none => exact absurd hclosing (closeComment?_eq_none_iff.mp hclose)
          | some found =>
            obtain ⟨body, hbody, hnot⟩ := closeComment?_eq_some hclose
            simp only [slash, if_neg hc, if_true, hclose, hbody]
            exact .inl (.blockComment hnot)
        · exact .inr ⟨_, .comment hclosing⟩
      · left
        simp only [slash, if_neg hc, if_neg hs]
        exact .of_mem_operators (by decide)

theorem first_cases (b : UInt8) (t : Text) :
    Lexeme (first b t).1.kind (first b t).1.text ∨ (∃ problem, Unclosed problem (b :: t)) ∨
      ∀ t, first b t = unexpected b t := by
  generalize hp : first b t = p
  unfold first at hp
  split at hp
  case h_24 =>
    by_cases hd : Number.isDigit b = true
    · rw [if_pos hd] at hp
      subst hp
      obtain ⟨digits, fraction, hnumeral, hkind⟩ := isNumeral_number hd t
      rw [hkind]
      exact .inl (.numeral hnumeral)
    · by_cases hw : isWordStart b = true
      · rw [if_neg hd, if_pos hw] at hp
        subst hp
        exact .inl (.word (isWord_word hw t))
      · refine .inr (.inr fun t' => ?_)
        unfold first
        split
        case h_24 => rw [if_neg hd, if_neg hw]
        all_goals contradiction
  all_goals
    next hc =>
      obtain rfl := Text.eq_byte_of_ofUInt8 hc
      subst hp
      first
      | exact .inl (.blank (by decide))
      | exact .inl (lexeme_operator (.of_mem_operators (by decide)) t)
      | exact .inl (lexeme_operatorEqual (.of_mem_operators (by decide))
          (.of_mem_operators (by decide)) t)
      | exact (lexeme_slash t).imp_right .inl
      | exact (lexeme_string t).imp_right .inl

theorem unexpected_of_firstGlyph {b : UInt8} {t rest : Text} {g : Glyph}
    (h : Text.firstGlyph b t = (g, rest)) :
    unexpected b t = (⟨.fault (.unexpected g), g.bytes⟩, rest) := by
  unfold unexpected
  rw [h]

/-- The piece that is read stands at the start of the source. -/
theorem stands_first (b : UInt8) (t : Text) : (first b t).1.Stands (first b t).2 := by
  have happend := first_append b t
  by_cases hu : ∃ problem, Unclosed problem (b :: t)
  · obtain ⟨problem, hu⟩ := hu
    rw [hu.first_eq]
    exact .unclosed hu
  have hclosed : ∀ problem, ¬ Unclosed problem ((first b t).1.text ++ (first b t).2) := by
    intro problem h
    exact hu ⟨problem, happend ▸ h⟩
  rcases first_cases b t with hlexeme | hopen | hunexpected
  · refine .lexeme hlexeme ?_ hclosed
    intro kind text h hstart
    rw [← happend] at hstart
    obtain ⟨c, text, rfl⟩ := List.exists_cons_of_ne_nil h.ne_nil
    obtain ⟨u, hu⟩ := hstart
    obtain ⟨rfl, rfl⟩ := List.cons.inj hu
    exact (h.prefix_first u).1.length_le
  · exact absurd hopen hu
  · -- no other first byte is at the start of anything that the grammar admits
    have hnone : ∀ kind text, Lexeme kind text → ¬ text <+: b :: t := by
      intro kind text h hstart
      obtain ⟨c, text, rfl⟩ := List.exists_cons_of_ne_nil h.ne_nil
      obtain ⟨u, hu⟩ := hstart
      obtain ⟨rfl, rfl⟩ := List.cons.inj hu
      have hkind := congrArg (fun found => found.1.kind) (h.first_eq.symm.trans (hunexpected text))
      exact h.kind_ne_unexpected _ hkind
    have hglyph := Text.starts_firstGlyph b t
    have hbytes := Text.firstGlyph_bytes b t
    cases hg : Text.firstGlyph b t with
    | mk g rest =>
      rw [hg] at hglyph hbytes
      rw [hbytes] at hglyph hnone
      rw [hunexpected, unexpected_of_firstGlyph hg] at hclosed ⊢
      exact .unexpected hglyph hnone hclosed

namespace Stands

variable {p : Piece} {rest : Text} {b : UInt8} {t : Text}

theorem ne_nil (h : p.Stands rest) : p.text ≠ [] := by
  cases h with
  | lexeme h => exact h.ne_nil
  | unclosed h => cases h <;> exact List.cons_ne_nil _ _
  | @unexpected g =>
    cases g with
    | char c => exact Text.ofChar_ne_nil c
    | stray s => exact List.cons_ne_nil _ _

/-- A piece that is a token is a lexeme. -/
theorem lexeme_of_kind (h : p.Stands rest) {kind : TokenKind} {literal : Literal}
    (hk : p.kind = .token kind literal) : Lexeme p.kind p.text := by
  cases h with
  | lexeme hread => exact hread
  | _ => cases hk

/-- One piece only stands at the start of a source. -/
theorem first_eq (h : p.Stands rest) (heq : p.text ++ rest = b :: t) : first b t = (p, rest) := by
  cases h with
  | @lexeme kind text _ hlexeme hlongest hclosed =>
    obtain ⟨c, text, rfl⟩ := List.exists_cons_of_ne_nil hlexeme.ne_nil
    obtain ⟨rfl, rfl⟩ := List.cons.inj heq
    have happend := first_append c (text ++ rest)
    rcases first_cases c (text ++ rest) with hread | ⟨problem, hopen⟩ | hunexpected
    · -- each of the two is at least as long as the other
      have hle := hlongest _ _ hread ⟨_, happend.symm⟩
      have htext := (hlexeme.prefix_first rest).1.eq_of_length_le hle
      have hself := hlexeme.first_eq
      rw [← htext] at hread happend
      rw [hread.first_eq] at hself
      obtain ⟨hpiece, -⟩ := Prod.mk.inj hself
      have hrest : rest = (first c (text ++ rest)).2 :=
        List.append_cancel_left (List.cons.inj happend).2
      refine Prod.ext ?_ hrest.symm
      rw [← hpiece, htext]
      rfl
    · exact absurd hopen (hclosed problem)
    · have hkind :=
        congrArg (fun found => found.1.kind) (hlexeme.first_eq.symm.trans (hunexpected text))
      exact absurd hkind (hlexeme.kind_ne_unexpected _)
  | unclosed hopen =>
    rw [List.append_nil] at heq
    cases heq
    exact hopen.first_eq
  | @unexpected g _ hstarts hnone hclosed =>
    rw [heq] at hstarts hnone hclosed
    rcases first_cases b t with hread | ⟨problem, hopen⟩ | hunexpected
    · exact absurd ⟨_, (first_append b t).symm⟩ (hnone _ _ hread)
    · exact absurd hopen (hclosed problem)
    · rw [hunexpected, unexpected_of_firstGlyph (hstarts.firstGlyph_eq heq)]

end Stands

end Piece

namespace Text.Splits

/-- Every source splits into the pieces that are read. -/
theorem pieces (source : Text) : source.Splits source.pieces := by
  fun_induction Text.pieces source with
  | case1 => exact .nil
  | case2 b t ih =>
    rw [Piece.first_append b t]
    exact .cons (Piece.stands_first b t) ih

theorem lexeme_of_mem {source : Text} {pieces : List Piece} (h : source.Splits pieces) {p : Piece}
    (hp : p ∈ pieces) {kind : TokenKind} {literal : Literal} (hk : p.kind = .token kind literal) :
    Lexeme p.kind p.text := by
  induction h with
  | nil => cases hp
  | cons hfirst _ ih =>
    rcases List.mem_cons.mp hp with rfl | hp
    · exact hfirst.lexeme_of_kind hk
    · exact ih hp

/-- No source splits in two ways. -/
theorem eq_pieces {source : Text} {pieces : List Piece} (h : source.Splits pieces) :
    pieces = source.pieces := by
  induction h with
  | nil => rw [Text.pieces]
  | @cons p rest pieces hp _ ih =>
    obtain ⟨b, t, htext⟩ : ∃ b t, p.text ++ rest = b :: t :=
      List.exists_cons_of_ne_nil fun h => hp.ne_nil (List.append_eq_nil_iff.mp h).1
    rw [htext, Text.pieces, hp.first_eq htext, ih]

end Text.Splits

/-! ### What is made of the pieces -/

namespace Piece

/-- Each piece with the source up to its end. -/
def withEnds (pieces : List Piece) : List (Piece × Text) :=
  pieces.mapIdx fun i p => (p, (pieces.take (i + 1)).flatMap Piece.text)

/-- The token of a piece that ends on the given line. -/
def token? (p : Piece) (line : Nat) : Option Token :=
  match p.kind with
  | .token kind literal => some ⟨kind, p.text, literal, line⟩
  | _ => none

/-- The report of a faulty piece that ends on the given line. -/
def report? (p : Piece) (line : Nat) : Option Diagnostic :=
  match p.kind with
  | .fault problem => some (.atLine line (.lexical problem))
  | _ => none

theorem withEnds_cons (p : Piece) (pieces : List Piece) :
    withEnds (p :: pieces) =
      (p, p.text) :: (withEnds pieces).map fun (q, t) => (q, p.text ++ t) := by
  apply List.ext_getElem
  · simp [withEnds]
  · intro i hi hi'
    cases i <;> simp [withEnds]

/-- What is made of each piece and its line, for pieces that start on a given line. -/
theorem filterMap_withEnds_cons {α : Type} (f : Piece → Nat → Option α) (line : Nat) (p : Piece)
    (pieces : List Piece) :
    (withEnds (p :: pieces)).filterMap (fun (q, t) => f q (line + t.newlines)) =
      (f p (line + p.text.newlines)).toList ++
        (withEnds pieces).filterMap (fun (q, t) => f q (line + p.text.newlines + t.newlines)) := by
  have hlines : ∀ t : Text, line + Text.newlines (p.text ++ t) =
      line + p.text.newlines + t.newlines := by
    intro t
    rw [Nat.add_assoc]
    exact congrArg (line + ·) List.count_append
  rw [withEnds_cons, List.filterMap_cons, List.filterMap_map]
  simp only [Function.comp_def, hlines]
  cases f p (line + p.text.newlines) <;> rfl

end Piece

namespace Scan

theorem tokensFrom_eq_filterMap (line : Nat) (pieces : List Piece) :
    tokensFrom line pieces =
      (Piece.withEnds pieces).filterMap (fun (p, t) => p.token? (line + t.newlines)) ++
        [{ kind := .eof, lexeme := [], line := (line + newlines pieces : Nat) }] := by
  induction pieces generalizing line with
  | nil => rfl
  | cons p pieces ih =>
    have hcons : tokensFrom line (p :: pieces) =
        (p.token? (line + p.text.newlines)).toList ++
          tokensFrom (line + p.text.newlines) pieces := by
      obtain ⟨kind, text⟩ := p
      cases kind <;> rfl
    have hn : line + newlines (p :: pieces) = line + p.text.newlines + newlines pieces := by
      simp [newlines, Nat.add_assoc]
    rw [hcons, ih, Piece.filterMap_withEnds_cons Piece.token?, hn, List.append_assoc]

theorem faultsFrom_eq_filterMap (line : Nat) (pieces : List Piece) :
    faultsFrom line pieces =
      (Piece.withEnds pieces).filterMap fun (p, t) => p.report? (line + t.newlines) := by
  induction pieces generalizing line with
  | nil => rfl
  | cons p pieces ih =>
    have hcons : faultsFrom line (p :: pieces) =
        (p.report? (line + p.text.newlines)).toList ++
          faultsFrom (line + p.text.newlines) pieces := by
      obtain ⟨kind, text⟩ := p
      cases kind <;> rfl
    rw [hcons, ih, Piece.filterMap_withEnds_cons Piece.report?]

/-- A source is in one way a sequence of pieces of the lexical grammar, each the longest one at its
position. Its tokens are the token pieces and a mark of the end, its problems are the faulty pieces,
and each of them is on the line on which its piece ends. -/
theorem follows_lexical_grammar (source : Text) :
    ∃ pieces, source.Splits pieces ∧ (∀ others, source.Splits others → others = pieces) ∧
      pieces.flatMap Piece.text = source ∧
      (ofSource source).tokens =
        (Piece.withEnds pieces).filterMap (fun (p, before) => p.token? (1 + before.newlines)) ++
          [{ kind := .eof, lexeme := [], line := (1 + source.newlines : Nat) }] ∧
      (ofSource source).faults =
        (Piece.withEnds pieces).filterMap fun (p, before) => p.report? (1 + before.newlines) := by
  refine ⟨source.pieces, Text.Splits.pieces source, fun others h => h.eq_pieces,
    Text.flatMap_pieces source, ?_, faultsFrom_eq_filterMap 1 source.pieces⟩
  rw [← newlines_pieces]
  exact tokensFrom_eq_filterMap 1 source.pieces

end Scan

end Lox
