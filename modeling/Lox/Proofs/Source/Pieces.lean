import Lox.Proofs.Source.Glyphs
import Lox.Proofs.Tree.Lines
import Lox.Scan

/-!
# Scanning two sources on successive lines

A line end closes every piece but a string or comment that nothing has closed. So if a source leaves
none of these open, the pieces of a longer one that goes on in the next line are those of the source
and, after the line end, those of what follows, whatever else is wrong with either.
-/

namespace Lox

/-- The byte that ends a line. -/
abbrev Text.newline : UInt8 := Text.byte '\n'

namespace Piece

/-- Whether a piece is faulty. -/
def isFaulty (p : Piece) : Bool :=
  match p.kind with
  | .fault _ => true
  | _ => false

/-- Whether a piece is a string or a comment that nothing closes. -/
def isOpen (p : Piece) : Bool :=
  match p.kind with
  | .fault .unterminatedString => true
  | .fault .unterminatedComment => true
  | _ => false

theorem isOpen_of_isFaulty {p : Piece} (h : p.isFaulty = false) : p.isOpen = false := by
  obtain ⟨kind, text⟩ := p
  cases kind with
  | fault problem => cases h
  | _ => rfl

end Piece

theorem Text.cut_append_newline {p : UInt8 → Bool} (hp : p newline = false) (t v : Text) :
    (t ++ newline :: v).cut p = ((t.cut p).1, (t.cut p).2 ++ newline :: v) := by
  unfold Text.cut
  induction t with
  | nil => simp [hp]
  | cons b t ih =>
    obtain ⟨h₁, h₂⟩ := Prod.mk.inj ih
    by_cases hb : p b = true
    · simp [hb, h₁, h₂]
    · simp [hb]

theorem Text.cut_append_right {p : UInt8 → Bool} {t body rest : Text} {b : UInt8} {v : Text}
    (h : t.cut p = (body, b :: rest)) : (t ++ v).cut p = (body, b :: rest ++ v) := by
  unfold Text.cut at h ⊢
  obtain ⟨h₁, h₂⟩ := Prod.mk.inj h
  induction t generalizing body with
  | nil => cases h₂
  | cons c t ih =>
    by_cases hc : p c = true
    · rw [List.takeWhile_cons_of_pos hc] at h₁
      rw [List.dropWhile_cons_of_pos hc] at h₂
      have ih := ih (Prod.ext rfl h₂) rfl h₂
      obtain ⟨ih₁, ih₂⟩ := Prod.mk.inj ih
      simp [hc, ← h₁, ih₁, ih₂]
    · rw [List.takeWhile_cons_of_neg hc] at h₁
      rw [List.dropWhile_cons_of_neg hc] at h₂
      simp [hc, ← h₁, ← h₂]

namespace Piece

theorem closeComment?_append_right {t body rest : Text} (v : Text)
    (h : closeComment? t = some (body, rest)) :
    closeComment? (t ++ v) = some (body, rest ++ v) := by
  fun_induction closeComment? t generalizing body rest with
  | case1 => cases h
  | case2 => cases h
  | case3 a b t hab =>
    obtain ⟨rfl, rfl⟩ := Prod.mk.inj (Option.some.inj h)
    simp [closeComment?, hab]
  | case4 a b t hab ih =>
    obtain ⟨⟨body', rest'⟩, hr, heq⟩ := Option.map_eq_some_iff.mp h
    obtain ⟨rfl, rfl⟩ := Prod.mk.inj heq
    have ih := ih hr
    simp only [List.cons_append] at ih ⊢
    simp only [closeComment?, hab, if_false, ih, Option.map_some]

theorem fraction?_append_newline (t v : Text) :
    fraction? (t ++ Text.newline :: v) =
      (fraction? t).map fun found => (found.1, found.2 ++ Text.newline :: v) := by
  match t with
  | [] => cases v <;> rfl
  | [p] => simp [fraction?, show Number.isDigit Text.newline = false by decide]
  | p :: d :: t =>
    simp only [List.cons_append, fraction?]
    split
    · rw [← List.cons_append, Text.cut_append_newline (by decide)]
      rfl
    · rfl

theorem number_append_newline (b : UInt8) (t v : Text) :
    number b (t ++ Text.newline :: v) = ((number b t).1, (number b t).2 ++ Text.newline :: v) := by
  unfold number
  rw [← List.cons_append, Text.cut_append_newline (by decide)]
  dsimp only
  rw [fraction?_append_newline]
  cases fraction? (Text.cut Number.isDigit (b :: t)).2 with
  | none =>
    dsimp only [Option.map_none]
    split <;> rfl
  | some found =>
    dsimp only [Option.map_some]
    split <;> rfl

theorem word_append_newline (b : UInt8) (t v : Text) :
    word b (t ++ Text.newline :: v) = ((word b t).1, (word b t).2 ++ Text.newline :: v) := by
  unfold word
  rw [← List.cons_append, Text.cut_append_newline (by decide)]

theorem string_append_newline (b : UInt8) {t : Text} (v : Text)
    (h : (string b t).1.isOpen = false) :
    string b (t ++ Text.newline :: v) = ((string b t).1, (string b t).2 ++ Text.newline :: v) := by
  unfold string at h ⊢
  cases hcut : t.cut (· ≠ Text.byte '"') with
  | mk body rest =>
    cases rest with
    | nil =>
      rw [hcut] at h
      cases h
    | cons quote rest => rw [Text.cut_append_right hcut]; rfl

theorem slash_append_newline (b : UInt8) {t : Text} (v : Text)
    (h : (slash b t).1.isOpen = false) :
    slash b (t ++ Text.newline :: v) = ((slash b t).1, (slash b t).2 ++ Text.newline :: v) := by
  cases t with
  | nil => rfl
  | cons c t =>
    simp only [slash, List.cons_append] at h ⊢
    by_cases hc : c = Text.byte '/'
    · rw [if_pos hc, if_pos hc, ← List.cons_append, Text.cut_append_newline (by decide)]
    · rw [if_neg hc] at h ⊢
      rw [if_neg hc]
      by_cases hs : c = Text.byte '*'
      · rw [if_pos hs] at h ⊢
        rw [if_pos hs]
        cases hclose : closeComment? t with
        | none =>
          rw [hclose] at h
          cases h
        | some found => rw [closeComment?_append_right _ hclose]
      · rw [if_neg hs, if_neg hs]
        rfl

theorem operatorEqual_append_newline (plain withEqual : TokenKind) (b : UInt8) (t v : Text) :
    operatorEqual plain withEqual b (t ++ Text.newline :: v) =
      ((operatorEqual plain withEqual b t).1,
        (operatorEqual plain withEqual b t).2 ++ Text.newline :: v) := by
  cases t with
  | nil => rfl
  | cons c t =>
    simp only [operatorEqual, List.cons_append]
    split <;> rfl

theorem unexpected_append_newline (b : UInt8) (t v : Text) :
    unexpected b (t ++ Text.newline :: v) =
      ((unexpected b t).1, (unexpected b t).2 ++ Text.newline :: v) := by
  unfold unexpected
  rw [Text.firstGlyph_append_ascii (by decide)]

/-- A piece that is not left open does not reach into the next line. -/
theorem first_append_newline {b : UInt8} {t : Text} (v : Text)
    (h : (first b t).1.isOpen = false) :
    first b (t ++ Text.newline :: v) = ((first b t).1, (first b t).2 ++ Text.newline :: v) := by
  unfold first at h ⊢
  generalize Char.ofUInt8 b = c at h ⊢
  split at h
  case h_24 =>
    by_cases hd : Number.isDigit b = true
    · simp only [hd, if_true]
      exact number_append_newline b t v
    · by_cases hw : isWordStart b = true
      · simp only [hd, hw, if_true]
        exact word_append_newline b t v
      · simp only [hd, hw]
        exact unexpected_append_newline b t v
  all_goals
    first | rfl | exact operatorEqual_append_newline _ _ b t v | exact slash_append_newline b v h
          | exact string_append_newline b v h

end Piece

/-- The pieces of two texts on successive lines. -/
theorem Text.pieces_append_newline {t : Text} (v : Text)
    (h : ∀ p ∈ t.pieces, p.isOpen = false) :
    (t ++ newline :: v).pieces = t.pieces ++ ⟨.blank, [newline]⟩ :: v.pieces := by
  fun_induction Text.pieces t with
  | case1 =>
    rw [List.nil_append, Text.pieces]
    rfl
  | case2 b t ih =>
    obtain ⟨hp, hps⟩ := List.forall_mem_cons.mp h
    rw [List.cons_append, Text.pieces, Piece.first_append_newline v hp, ih hps, List.cons_append]

/-! ### Tokens and problems -/

/-- Whether a piece stands for the end of the source. -/
def Piece.isEnd (p : Piece) : Bool :=
  match p.kind with
  | .token .eof _ => true
  | _ => false

theorem TokenKind.ofWord_ne_eof (word : Text) : TokenKind.ofWord word ≠ .eof := by
  have hk : ∀ entry ∈ TokenKind.keywords, entry.2 ≠ .eof := by decide
  unfold TokenKind.ofWord
  split
  · next entry kind hfind => exact hk _ (List.mem_of_find?_eq_some hfind)
  · nofun

namespace Piece

theorem isEnd_number (b : UInt8) (t : Text) : (number b t).1.isEnd = false := by
  unfold number
  dsimp only
  split <;> rfl

theorem isEnd_word (b : UInt8) (t : Text) : (word b t).1.isEnd = false := by
  unfold word isEnd
  dsimp only
  split
  · next h => exact absurd (PieceKind.token.inj h).1 (TokenKind.ofWord_ne_eof _)
  · rfl

theorem isEnd_string (b : UInt8) (t : Text) : (string b t).1.isEnd = false := by
  unfold string
  split <;> rfl

theorem isEnd_slash (b : UInt8) (t : Text) : (slash b t).1.isEnd = false := by
  unfold slash
  split
  · split
    · rfl
    · split
      · split <;> rfl
      · rfl
  · rfl

theorem isEnd_operatorEqual {plain withEqual : TokenKind} {b : UInt8} {t : Text}
    (hp : (operator plain b t).1.isEnd = false) (he : (operator withEqual b t).1.isEnd = false) :
    (operatorEqual plain withEqual b t).1.isEnd = false := by
  unfold operatorEqual
  split
  · split
    · exact he
    · exact hp
  · exact hp

/-- No piece is taken for the end of the source. -/
theorem isEnd_first (b : UInt8) (t : Text) : (first b t).1.isEnd = false := by
  unfold first
  split
  all_goals try
    first | rfl | exact isEnd_operatorEqual rfl rfl | exact isEnd_slash b t | exact isEnd_string b t
  split
  · exact isEnd_number b t
  · split
    · exact isEnd_word b t
    · rfl

end Piece

theorem Text.isEnd_of_mem_pieces {t : Text} {p : Piece} (h : p ∈ t.pieces) : p.isEnd = false := by
  fun_induction Text.pieces t with
  | case1 => cases h
  | case2 b t ih =>
    rcases List.mem_cons.mp h with rfl | h
    · exact Piece.isEnd_first b t
    · exact ih h

namespace Scan

variable {pieces : List Piece} {line : Nat}

/-- The number of line ends in pieces. -/
def newlines (pieces : List Piece) : Nat := (pieces.map fun p => p.text.newlines).sum

theorem faultsFrom_eq_nil_iff :
    faultsFrom line pieces = [] ↔ ∀ p ∈ pieces, p.isFaulty = false := by
  induction pieces generalizing line with
  | nil => simp [faultsFrom]
  | cons p pieces ih =>
    obtain ⟨kind, text⟩ := p
    cases kind <;> simp [faultsFrom, Piece.isFaulty, ih]

theorem tokensFrom_append (h : ∀ p ∈ pieces, p.isEnd = false) (more : List Piece) :
    tokensFrom line (pieces ++ more) =
      (tokensFrom line pieces).takeWhile (·.kind ≠ .eof) ++
        tokensFrom (line + newlines pieces) more := by
  induction pieces generalizing line with
  | nil => simp [tokensFrom, newlines]
  | cons p pieces ih =>
    obtain ⟨hp, hps⟩ := List.forall_mem_cons.mp h
    obtain ⟨kind, text⟩ := p
    have hn : line + newlines (⟨kind, text⟩ :: pieces) =
        line + text.newlines + newlines pieces := by
      simp [newlines, Nat.add_assoc]
    cases kind with
    | token kind literal =>
      have hk : kind ≠ .eof := by
        rintro rfl
        cases hp
      simp [tokensFrom, hn, ih hps, hk]
    | _ => simp [tokensFrom, hn, ih hps]

theorem tokensFrom_add (k : Nat) :
    tokensFrom (line + k) pieces = (tokensFrom line pieces).map (Token.mapLine (· + k)) := by
  induction pieces generalizing line with
  | nil => simp [tokensFrom, Token.mapLine]
  | cons p pieces ih =>
    obtain ⟨kind, text⟩ := p
    have hn : line + k + text.newlines = line + text.newlines + k := by omega
    cases kind with
    | token kind literal => simp [tokensFrom, hn, ih, Token.mapLine]
    | _ => simp [tokensFrom, hn, ih]

theorem faultsFrom_append (more : List Piece) :
    faultsFrom line (pieces ++ more) =
      faultsFrom line pieces ++ faultsFrom (line + newlines pieces) more := by
  induction pieces generalizing line with
  | nil => simp [faultsFrom, newlines]
  | cons p pieces ih =>
    obtain ⟨kind, text⟩ := p
    have hn : line + newlines (⟨kind, text⟩ :: pieces) =
        line + text.newlines + newlines pieces := by
      simp [newlines, Nat.add_assoc]
    cases kind <;> simp [faultsFrom, hn, ih]

theorem faultsFrom_add (k : Nat) :
    faultsFrom (line + k) pieces = (faultsFrom line pieces).map (Diagnostic.mapLine (· + k)) := by
  induction pieces generalizing line with
  | nil => rfl
  | cons p pieces ih =>
    obtain ⟨kind, text⟩ := p
    have hn : line + k + text.newlines = line + text.newlines + k := by omega
    cases kind with
    | fault problem => simp [faultsFrom, hn, ih, Diagnostic.mapLine, Diagnostic.atLine]
    | _ => simp [faultsFrom, hn, ih]

/-- The scan of two sources on successive lines, if the first one leaves nothing open. -/
theorem ofSource_append_of_closed {a : Text} (b : Text) (ha : ∀ p ∈ a.pieces, p.isOpen = false) :
    ofSource (a ++ Text.newline :: b) =
      { tokens := (ofSource a).tokens.takeWhile (·.kind ≠ .eof) ++
          (ofSource b).tokens.map (Token.mapLine (· + (newlines a.pieces + 1 : Nat)))
        faults := (ofSource a).faults ++
          (ofSource b).faults.map (Diagnostic.mapLine (· + (newlines a.pieces + 1 : Nat))) } := by
  unfold ofSource
  dsimp only
  rw [Text.pieces_append_newline b ha]
  congr 1
  · rw [tokensFrom_append fun p hp => Text.isEnd_of_mem_pieces hp, ← tokensFrom_add]
    rfl
  · rw [faultsFrom_append, ← faultsFrom_add]
    rfl

/-- The scan of two sources on successive lines, if nothing is wrong with the pieces of either. -/
theorem ofSource_append_newline {a b : Text} (ha : (ofSource a).faults = [])
    (hb : (ofSource b).faults = []) :
    ofSource (a ++ Text.newline :: b) =
      { tokens := (ofSource a).tokens.takeWhile (·.kind ≠ .eof) ++
          (ofSource b).tokens.map (Token.mapLine (· + (newlines a.pieces + 1 : Nat)))
        faults := [] } := by
  have hclosed : ∀ p ∈ a.pieces, p.isOpen = false := fun p hp =>
    Piece.isOpen_of_isFaulty (faultsFrom_eq_nil_iff.mp ha p hp)
  rw [ofSource_append_of_closed b hclosed, ha, hb]
  rfl

/-! ### Line by line -/

/-- The line ends of a source are those of its pieces. -/
theorem newlines_pieces (source : Text) : newlines source.pieces = source.newlines := by
  have h : ∀ pieces : List Piece, newlines pieces = Text.newlines (pieces.flatMap Piece.text) := by
    intro pieces
    induction pieces with
    | nil => rfl
    | cons p pieces ih =>
      have hcons : newlines (p :: pieces) = p.text.newlines + newlines pieces := by
        simp [newlines]
      rw [hcons, ih, List.flatMap_cons]
      exact List.count_append.symm
  rw [h, Text.flatMap_pieces]

/-- Every piece that is faulty is reported. -/
theorem exists_fault {p : Piece} {problem : LexicalProblem} (hp : p ∈ pieces)
    (hk : p.kind = .fault problem) (line : Nat) :
    ∃ d ∈ faultsFrom line pieces, d.problem = .lexical problem := by
  induction pieces generalizing line with
  | nil => cases hp
  | cons q pieces ih =>
    unfold faultsFrom
    rcases List.mem_cons.mp hp with rfl | hp
    · simp only [hk]
      exact ⟨_, List.mem_cons_self, rfl⟩
    · obtain ⟨d, hd, hproblem⟩ := ih hp (line + q.text.newlines)
      dsimp only
      split
      · exact ⟨d, List.mem_cons_of_mem _ hd, hproblem⟩
      · exact ⟨d, hd, hproblem⟩

/-- A source of which no string and no comment is reported as unterminated leaves none open. -/
theorem isOpen_of_faults {source : Text}
    (h : ∀ d ∈ (ofSource source).faults, d.problem ≠ .lexical .unterminatedString ∧
      d.problem ≠ .lexical .unterminatedComment) :
    ∀ p ∈ source.pieces, p.isOpen = false := by
  intro p hp
  obtain ⟨kind, text⟩ := p
  cases kind with
  | fault problem =>
    obtain ⟨d, hd, hproblem⟩ := exists_fault hp rfl 1
    cases problem with
    | unterminatedString => exact absurd hproblem (h d hd).1
    | unterminatedComment => exact absurd hproblem (h d hd).2
    | _ => rfl
  | _ => rfl

/-- The one token that marks the end is the last one. -/
theorem tokensFrom_eq (h : ∀ p ∈ pieces, p.isEnd = false) :
    tokensFrom line pieces = (tokensFrom line pieces).takeWhile (·.kind ≠ .eof) ++
      [{ kind := .eof, lexeme := [], line := (line + newlines pieces : Nat) }] := by
  have happend : tokensFrom line (pieces ++ []) = _ := tokensFrom_append h []
  rwa [List.append_nil] at happend

/-- Sources on successive lines are scanned one by one. If the first one leaves no string and no
comment open, the tokens of both are its tokens up to the end mark and, further below, those of the
second one; and so are the problems. -/
theorem composes_over_lines (a b : Text)
    (ha : ∀ d ∈ (ofSource a).faults, d.problem ≠ .lexical .unterminatedString ∧
      d.problem ≠ .lexical .unterminatedComment) :
    ∃ before stop, (ofSource a).tokens = before ++ [stop] ∧ stop.kind = .eof ∧
      (∀ t ∈ before, t.kind ≠ .eof) ∧
      (ofSource (a ++ Text.newline :: b)).tokens =
        before ++ (ofSource b).tokens.map (Token.mapLine (· + (1 + a.newlines : Nat))) ∧
      (ofSource (a ++ Text.newline :: b)).faults = (ofSource a).faults ++
        (ofSource b).faults.map (Diagnostic.mapLine (· + (1 + a.newlines : Nat))) := by
  have hscan := ofSource_append_of_closed b (isOpen_of_faults ha)
  rw [newlines_pieces, Nat.add_comm a.newlines 1] at hscan
  refine ⟨(ofSource a).tokens.takeWhile (·.kind ≠ .eof), _,
    tokensFrom_eq fun p hp => Text.isEnd_of_mem_pieces hp, rfl, ?_, ?_, ?_⟩
  · intro t ht
    simpa using List.mem_takeWhile_imp ht
  · rw [hscan]
  · rw [hscan]

/-- A source that ends in the middle of a character and, on the next line, one that starts with what
could be the rest of an operator and leaves a string open. -/
theorem composes_over_lines_cut :
    let a : Text := Text.ofString "\"\n\" =" ++ [0xE2, 0x82]
    let b : Text := "=\n\""
    (ofSource a).faults = [.atLine 2 (.lexical (.unexpected (.stray 0xE2))),
      .atLine 2 (.lexical (.unexpected (.stray 0x82)))] ∧
    ∃ before stop, (ofSource a).tokens = before ++ [stop] ∧ stop.kind = .eof ∧
      (∀ t ∈ before, t.kind ≠ .eof) ∧
      (ofSource (a ++ Text.newline :: b)).tokens =
        before ++ (ofSource b).tokens.map (Token.mapLine (· + (1 + a.newlines : Nat))) ∧
      (ofSource (a ++ Text.newline :: b)).faults = (ofSource a).faults ++
        (ofSource b).faults.map (Diagnostic.mapLine (· + (1 + a.newlines : Nat))) := by
  intro a b
  have h : (ofSource a).faults = [.atLine 2 (.lexical (.unexpected (.stray 0xE2))),
      .atLine 2 (.lexical (.unexpected (.stray 0x82)))] := by
    cbv
  refine ⟨h, composes_over_lines a b ?_⟩
  rw [h]
  decide

end Scan

end Lox
