import Lox.Proofs.Grammar.Soundness
import Lox.Proofs.Scope.Walk
import Lox.Proofs.Source.Splitting
import Lox.Source

/-!
# Accepted sources

A source that passes scanning, parsing and resolution without a report is accepted. Every part of
its tree is regular, and the resolver has nothing to report wherever it comes.
-/

namespace Lox

/-! ### The tokens of a source -/

/-- Every token but the end mark is a piece of the source. -/
theorem Scan.exists_piece {pieces : List Piece} {line : Nat} {t : Token}
    (h : t ∈ Scan.tokensFrom line pieces) (hk : t.kind ≠ .eof) :
    ∃ piece ∈ pieces, piece.kind = .token t.kind t.literal ∧ piece.text = t.lexeme := by
  induction pieces generalizing line with
  | nil =>
    obtain rfl := List.mem_singleton.mp h
    exact absurd rfl hk
  | cons piece pieces ih =>
    unfold Scan.tokensFrom at h
    have later : ∀ {line}, t ∈ Scan.tokensFrom line pieces →
        ∃ piece' ∈ piece :: pieces, piece'.kind = .token t.kind t.literal ∧
          piece'.text = t.lexeme := by
      intro line h
      obtain ⟨piece', hp, hs⟩ := ih h
      exact ⟨piece', List.mem_cons_of_mem _ hp, hs⟩
    split at h
    · next kind literal hpiece =>
      rcases List.mem_cons.mp h with rfl | h
      · exact ⟨piece, List.mem_cons_self, hpiece, rfl⟩
      · exact later h
    · exact later h

/-- A token is spelled as its kind and its literal say. -/
theorem Scan.lexeme {source : Text} {t : Token} (h : t ∈ (Scan.ofSource source).tokens)
    (hk : t.kind ≠ .eof) : Lexeme (.token t.kind t.literal) t.lexeme := by
  obtain ⟨piece, hp, hkind, htext⟩ := Scan.exists_piece h hk
  rw [← hkind, ← htext]
  exact (Text.Splits.pieces source).lexeme_of_mem hp hkind

theorem Scan.lexeme_of_thisKw {source : Text} {t : Token}
    (h : t ∈ (Scan.ofSource source).tokens) (hk : t.kind = .thisKw) : t.lexeme = "this" := by
  have hread := Scan.lexeme h (by simp [hk])
  rw [hk] at hread
  exact hread.text_eq (by decide)

/-! ### Regular trees -/

theorem Site.regular_iff {x : Site} :
    x.Regular ↔ x.part.Regular ∧ ∀ y ∈ x.parts, y.Regular := by
  constructor
  · exact fun h => ⟨h _ (.refl _), fun y hy => h.of_mem_parts hy⟩
  · rintro ⟨hx, hparts⟩ z hz
    rcases Site.visits_iff.mp hz with rfl | ⟨y, hy, hz⟩
    · exact hx
    · exact hparts y hy z hz

theorem Site.regular_stmts {ss : List (Stmt Unit)} (h : ∀ s ∈ ss, ∀ p, Site.Regular ⟨p, .stmt s⟩)
    (p : Position) : Site.Regular ⟨p, .stmts ss⟩ := by
  induction ss generalizing p with
  | nil => exact Site.regular_iff.mpr ⟨trivial, by simp [Site.parts]⟩
  | cons s ss ih =>
    refine Site.regular_iff.mpr ⟨trivial, ?_⟩
    simp only [Site.parts, Part.parts, List.forall_mem_cons]
    exact ⟨h s List.mem_cons_self p, ih (fun s' hs => h s' (List.mem_cons_of_mem _ hs)) _,
      by simp⟩

namespace Grammar

/-- Every part of a phrase is regular, wherever the phrase stands. -/
def Phrase.Regular : Phrase → Prop
  | .expr e => ∀ p, Site.Regular ⟨p, .expr e⟩
  | .exprs es => ∀ e ∈ es, ∀ p, Site.Regular ⟨p, .expr e⟩
  | .clause e => ∀ e' ∈ e, ∀ p, Site.Regular ⟨p, .expr e'⟩
  | .names _ => True
  | .fn f => ∀ p, Site.Regular ⟨p, .fn f⟩
  | .methods ms => ∀ m ∈ ms, ∀ p, Site.Regular ⟨p, .fn m.fn⟩
  | .stmt s => ∀ p, Site.Regular ⟨p, .stmt s⟩
  | .initial s => ∀ s' ∈ s, ∀ p, Site.Regular ⟨p, .stmt s'⟩
  | .stmts ss => ∀ s ∈ ss, ∀ p, Site.Regular ⟨p, .stmt s⟩

theorem Derives.declares?_of_simple {n : Nat} {g : Bool} {ts : List Token} {s : Stmt Unit}
    (h : Derives n g .simple ts (.stmt s)) : s.declares? = none := by
  cases h
  rfl

/-- A statement declares nothing. -/
theorem Derives.declares?_of_statement {n : Nat} {g isOpen : Bool} {ts : List Token}
    {s : Stmt Unit} (h : Derives n g (.statement isOpen) ts (.stmt s)) : s.declares? = none := by
  cases h with
  | expression h => exact h.declares?_of_simple
  | @forLoop _ _ _ _ _ _ i _ c _ _ inc => cases i <;> cases inc <;> rfl
  | _ => rfl

theorem Phrase.regular_methods {p : Position} {ms : List (Method Unit)}
    (h : (Phrase.methods ms).Regular) :
    ∀ y ∈ ms.map fun m => (⟨p.method m, .fn m.fn⟩ : Site), y.Regular := by
  intro y hy
  obtain ⟨m, hm, rfl⟩ := List.mem_map.mp hy
  exact h m hm _

/-- The loop that a `for` statement abbreviates is as regular as its parts. -/
theorem Phrase.regular_forLoop {i : Option (Stmt Unit)} {c inc : Option (Expr Unit)}
    {b : Stmt Unit} (hi : (Phrase.initial i).Regular) (hc : (Phrase.clause c).Regular)
    (hinc : (Phrase.clause inc).Regular) (hb : (Phrase.stmt b).Regular)
    (hdecl : b.declares? = none) : (Phrase.stmt (forLoop i c inc b)).Regular := by
  -- an increment makes a block of the body, an initializer one of the whole loop
  have hcond : ∀ p, Site.Regular ⟨p, .expr (c.getD (.literal (.bool true)))⟩ := by
    intro p
    cases c with
    | none => exact Site.regular_iff.mpr ⟨trivial, by simp [Site.parts]⟩
    | some e => exact hc e rfl p
  have block : ∀ ss : List (Stmt Unit), (∀ s ∈ ss, ∀ p, Site.Regular ⟨p, .stmt s⟩) →
      ∀ p, Site.Regular ⟨p, .stmt (.block ss)⟩ := fun _ h p =>
    Site.regular_iff.mpr ⟨trivial, List.forall_mem_singleton.mpr (Site.regular_stmts h _)⟩
  have loop : ∀ {body : Stmt Unit}, body.declares? = none →
      (∀ p, Site.Regular ⟨p, .stmt body⟩) →
      ∀ p, Site.Regular ⟨p, .stmt (.loop (c.getD (.literal (.bool true))) body)⟩ :=
    fun hd h p => Site.regular_iff.mpr ⟨hd, by simpa [Site.parts] using ⟨hcond p, h _⟩⟩
  have expression : ∀ e, inc = some e → ∀ p, Site.Regular ⟨p, .stmt (.expression e)⟩ :=
    fun e he p => Site.regular_iff.mpr ⟨trivial, by simpa [Site.parts] using hinc e he p⟩
  have whole : ∀ {body : Stmt Unit}, body.declares? = none →
      (∀ p, Site.Regular ⟨p, .stmt body⟩) → (Phrase.stmt (forLoop i c none body)).Regular := by
    intro body hd h
    cases i with
    | none => exact loop hd h
    | some s => exact block _ (by simpa using ⟨hi s rfl, loop hd h⟩)
  cases inc with
  | none => exact whole hdecl hb
  | some e =>
    have hbody := block [b, .expression e] (by simpa using ⟨hb, expression e rfl⟩)
    exact whole rfl hbody

/-- Trees that the grammar derives are regular if the scanner spells keywords right. -/
theorem Derives.regular {n : Nat} {g : Bool} {symbol : Symbol} {ts : List Token} {phrase : Phrase}
    (h : Derives n g symbol ts phrase)
    (ht : ∀ t ∈ ts, t.kind = .thisKw → t.lexeme = "this") : phrase.Regular := by
  -- what holds of all tokens holds of those of every part
  induction h with try simp only [List.forall_mem_append, List.forall_mem_cons] at ht
  | receiver hk =>
    -- the one node whose regularity is a matter of spelling
    exact fun p => Site.regular_iff.mpr ⟨ht.1 hk, by simp [Site.parts]⟩
  | callee _ ih | operand _ ih | single _ _ ih | disjunction _ ih | unassigned _ ih | lone _ ih
  | arguments _ ih | expression _ ih | statement _ ih => exact ih ht
  | firstName | nextName | noParameters | parameters => trivial
  | noArguments | noClause | noInitializer | noMethods | noDeclarations => simp [Phrase.Regular]
  | firstItem _ ih | clause _ ih | initializer _ ih => simpa [Phrase.Regular] using ih ht
  | varInitializer _ _ ih => simpa [Phrase.Regular] using ih ht.2
  | varDecl _ _ ih => exact ih ht.2
  | falseLit | trueLit | nilLit | numberLit | stringLit | name | inherited | unset | brk
  | importDecl | importAs =>
    exact fun p => Site.regular_iff.mpr ⟨trivial, by simp [Site.parts]⟩
  | set _ _ _ iho ihv =>
    -- the target is derived as a property that is read, and only its object is kept
    intro p
    have ho := (iho ht.1 p).of_mem_parts (List.mem_singleton_self _)
    exact Site.regular_iff.mpr ⟨trivial, by simpa [Site.parts] using ⟨ihv ht.2.2 p, ho⟩⟩
  | call _ _ _ _ ihc iha =>
    intro p
    refine Site.regular_iff.mpr ⟨trivial, ?_⟩
    simpa [Site.parts] using ⟨ihc ht.1 p, fun e he => iha ht.2.2.1 e he p⟩
  | nextItem _ _ _ _ ihs ih =>
    exact List.forall_mem_append.mpr ⟨ihs ht.1, List.forall_mem_singleton.mpr (ih ht.2.2)⟩
  | declaration _ _ ihs ih =>
    exact List.forall_mem_append.mpr ⟨ihs ht.1, List.forall_mem_singleton.mpr (ih ht.2)⟩
  | method _ _ _ _ ihs ih =>
    exact List.forall_mem_append.mpr ⟨ihs ht.1, List.forall_mem_singleton.mpr (ih ht.2.2.2)⟩
  | staticMethod _ _ _ _ _ ihs ih =>
    exact List.forall_mem_append.mpr ⟨ihs ht.1, List.forall_mem_singleton.mpr (ih ht.2.2.2.2)⟩
  | function _ _ _ _ _ _ ih =>
    intro p
    exact Site.regular_iff.mpr
      ⟨trivial, List.forall_mem_singleton.mpr (Site.regular_stmts (ih ht.2.2.2.1) _)⟩
  | block _ _ _ ih =>
    intro p
    exact Site.regular_iff.mpr
      ⟨trivial, List.forall_mem_singleton.mpr (Site.regular_stmts (ih ht.2.1) _)⟩
  | ifThen _ _ _ _ hy ihc ihy =>
    intro p
    refine Site.regular_iff.mpr ⟨⟨hy.declares?_of_statement, by simp⟩, ?_⟩
    simpa [Site.parts] using ⟨ihc ht.2.2.1 p, ihy ht.2.2.2.2 p⟩
  | ifElse _ _ _ _ hy _ hs ihc ihy ihs =>
    intro p
    refine Site.regular_iff.mpr
      ⟨⟨hy.declares?_of_statement, by simpa using hs.declares?_of_statement⟩, ?_⟩
    simpa [Site.parts] using ⟨ihc ht.2.2.1 p, ihy ht.2.2.2.2.1 p, ihs ht.2.2.2.2.2.2 _⟩
  | whileLoop _ _ _ _ hb ihc ihb =>
    intro p
    refine Site.regular_iff.mpr ⟨hb.declares?_of_statement, ?_⟩
    simpa [Site.parts] using ⟨ihc ht.2.2.1 p, ihb ht.2.2.2.2 _⟩
  | forLoop _ _ _ _ _ _ _ hb ihi ihc ihinc ihb =>
    exact Phrase.regular_forLoop (ihi ht.2.2.1) (ihc ht.2.2.2.1) (ihinc ht.2.2.2.2.2.1)
      (ihb ht.2.2.2.2.2.2.2) hb.declares?_of_statement
  | @ret _ _ _ _ e _ _ _ _ ih =>
    intro p
    refine Site.regular_iff.mpr ⟨trivial, ?_⟩
    cases e with
    | none => simp [Site.parts]
    | some e => simpa [Site.parts] using ih ht.2.1 e rfl p
  | classDecl _ _ _ _ _ ih =>
    exact fun p => Site.regular_iff.mpr ⟨trivial, Phrase.regular_methods (ih ht.2.2.2.1)⟩
  | subclassDecl _ _ _ _ _ _ _ ih =>
    intro p
    refine Site.regular_iff.mpr ⟨trivial, List.forall_mem_append.mpr ⟨?_, ?_⟩⟩
    · exact List.forall_mem_singleton.mpr (Site.regular_iff.mpr ⟨trivial, by simp [Site.parts]⟩)
    · exact Phrase.regular_methods (ih ht.2.2.2.2.2.1)
  | _ =>
    exact fun p => Site.regular_iff.mpr ⟨trivial, by simp_all [Site.parts, Phrase.Regular]⟩

end Grammar

/-! ### Accepted sources -/

/-- A source with which nothing is wrong, and its tree. -/
structure Program.Accepted (source : Text) (tree : Program Unit) : Prop where
  scanned : (Scan.ofSource source).faults = []
  parsed : Parsed.ofTokens (Scan.ofSource source).tokens = ⟨tree, []⟩
  resolved : (Resolved.ofProgram tree).faults = []

/-- The program of a source is that of its accepted tree. -/
theorem Program.Accepted.of_ofSource {source : Text} {program : Program Address}
    (h : Program.ofSource source = .ok program) :
    ∃ tree, Program.Accepted source tree ∧ program = (Resolved.ofProgram tree).program := by
  unfold Program.ofSource Program.ofSourceWith Program.address at h
  dsimp only at h
  split at h
  · next hf =>
    obtain ⟨hscan, hparse⟩ := List.append_eq_nil_iff.mp hf
    split at h
    · next hres =>
      refine ⟨_, ⟨hscan, ?_, hres⟩, by simpa using h.symm⟩
      rw [← hparse]
    · cases h
  · cases h

namespace Program.Accepted

variable {source : Text} {tree : Program Unit} {x : Site}

/-- Every part of an accepted tree is regular. -/
theorem regular (h : Program.Accepted source tree) : (Site.ofProgram tree).Regular := by
  have hd := Grammar.Derives.of_parsed h.parsed
  refine Site.regular_stmts (hd.regular fun t ht hk => ?_) _
  exact Scan.lexeme_of_thisKw (Token.untilEnd_subset _ ht) hk

/-- Nothing is wrong with any part of an accepted tree. -/
theorem faults_eq_nil (h : Program.Accepted source tree)
    (hx : (Site.ofProgram tree).Visits x) : x.faults = [] :=
  hx.faults_eq_nil h.resolved

end Program.Accepted

end Lox
