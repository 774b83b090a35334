import Lox.Grammar.Program

/-!
# What a rule may do

Every grammar rule reads tokens off the front of the input, adds problems to those already reported
and, if it succeeds, leaves everything else as it found it. This module says so once for the steps
from which rules are built, together with what the tokens read mean, and compares two versions of a
rule at the same time, so that a bound on recursion can be shown not to matter.

## Design notes

A statement about an outcome is about the tokens read, the tokens left, the problems added and the
value. In a sequence of steps the statement for the whole is the one for the last step, shifted by
what has been read and reported before it.
-/

namespace Lox

/-- Whether the first of the tokens has the given kind. -/
def Token.Heads (kind : TokenKind) (ts : List Token) : Prop := ∃ t k, ts = t :: k ∧ t.kind = kind

theorem Token.not_heads_nil (kind : TokenKind) : ¬ Token.Heads kind [] := by
  rintro ⟨t, k, h, -⟩
  cases h

theorem Token.heads_cons {kind : TokenKind} {t : Token} {k : List Token} :
    Token.Heads kind (t :: k) ↔ t.kind = kind := by
  constructor
  · rintro ⟨t', k', h, ht⟩
    cases h
    exact ht
  · intro ht
    exact ⟨t, k, rfl, ht⟩

/-- What is left after a token is shorter. -/
theorem Token.length_lt_of_cons {t : Token} {k rest : List Token} {n : Nat} (hr : rest = t :: k)
    (hn : rest.length ≤ n) : k.length < n := by
  subst hr
  exact hn

/-- What is left after some tokens is no longer. -/
theorem Token.length_le_of_append {ts k rest : List Token} {n : Nat} (hr : rest = ts ++ k)
    (hn : rest.length ≤ n) : k.length ≤ n := by
  rw [hr, List.length_append] at hn
  omega

theorem Token.length_lt_of_append_cons {ts k k' rest : List Token} {t : Token} {n : Nat}
    (hr : rest = ts ++ k) (hk : k = t :: k') (hn : rest.length ≤ n) : k'.length < n :=
  Token.length_lt_of_cons hk (Token.length_le_of_append hr hn)

/-- Skipping to a boundary only drops tokens. -/
theorem Cursor.skipFrom_suffix (t : Token) (ts : List Token) : Cursor.skipFrom t ts <:+ ts := by
  induction ts generalizing t with
  | nil => exact List.suffix_rfl
  | cons s ts ih =>
    rw [Cursor.skipFrom]
    split
    · exact List.suffix_rfl
    · exact (ih s).trans (List.suffix_cons s ts)

/-- A statement about a part of the input that has been read: the tokens read, the tokens left, the
problems added and the value. -/
abbrev Statement (α : Type) := List Token → List Token → List Diagnostic → α → Prop

variable {α β : Type}

theorem Parse.bind_apply (p : Parse α) (f : α → Parse β) (c : Cursor) :
    (p >>= f) c = match p c with
      | .ok a c => f a c
      | .bail c => .bail c
      | .abort c => .abort c
      | .exhausted => .exhausted := rfl

instance : LawfulMonad Parse := LawfulMonad.mk' _
  (fun p => by
    funext c
    change Parse.bind p Parse.pure c = p c
    unfold Parse.bind
    cases p c <;> rfl)
  (fun _ _ => rfl)
  (fun p f g => by
    funext c
    change Parse.bind (Parse.bind p f) g c = Parse.bind p (fun a => Parse.bind (f a) g) c
    unfold Parse.bind
    cases p c <;> rfl)

/-- An outcome that has read a part of the input about which `S` holds, or reported a problem. -/
inductive Outcome.Meets (c : Cursor) (S : Statement α) : Outcome α → Prop where
  | ok {ts k : List Token} {fs : List Diagnostic} {a : α} : c.rest = ts ++ k → S ts k fs a →
      Meets c S (.ok a { c with rest := k, faults := fs ++ c.faults })
  | bail {ts k : List Token} {fs : List Diagnostic} {g : Bool} : c.rest = ts ++ k → fs ≠ [] →
      Meets c S (.bail { c with rest := k, grouped := g, faults := fs ++ c.faults })
  | abort {c' : Cursor} : c'.faults ≠ [] → Meets c S (.abort c')

namespace Parse

/-- Two rules with the same outcome at a cursor, which meets a statement. -/
def Agree (c : Cursor) (p q : Parse α) (S : Statement α) : Prop := p c = q c ∧ (p c).Meets c S

namespace Agree

variable {c : Cursor} {p q : Parse α} {f g : α → Parse β} {S : Statement α} {T : Statement β}

theorem mono {S' : Statement α} (h : Agree c p q S)
    (hS : ∀ ts k fs a, c.rest = ts ++ k → S ts k fs a → S' ts k fs a) : Agree c p q S' := by
  refine ⟨h.1, ?_⟩
  obtain ⟨-, h⟩ := h
  cases hp : p c with
  | ok a c' =>
    rw [hp] at h
    cases h with
    | ok hr hs => exact .ok hr (hS _ _ _ _ hr hs)
  | bail c' =>
    rw [hp] at h
    cases h with
    | bail hr hf => exact .bail hr hf
  | abort c' =>
    rw [hp] at h
    cases h with
    | abort hf => exact .abort hf
  | exhausted =>
    rw [hp] at h
    cases h

theorem congr {q' : Parse α} (h : Agree c p q S) (hq : q c = q' c) : Agree c p q' S :=
  ⟨h.1.trans hq, h.2⟩

/-- What an outcome of the second step means for the whole. -/
theorem shift (ts : List Token) (fs : List Diagnostic) {k : List Token} (hr : c.rest = ts ++ k)
    {o : Outcome β}
    (h : o.Meets { c with rest := k, faults := fs ++ c.faults }
      fun ts' k' fs' b => T (ts ++ ts') k' (fs' ++ fs) b) : o.Meets c T := by
  cases h with
  | @ok ts' k' fs' b hr' hT =>
    have hr' : k = ts' ++ k' := hr'
    rw [← List.append_assoc]
    exact .ok (by rw [hr, hr', List.append_assoc]) hT
  | @bail ts' k' fs' g hr' hf =>
    have hr' : k = ts' ++ k' := hr'
    rw [← List.append_assoc]
    exact .bail (by rw [hr, hr', List.append_assoc]) (by simp [hf])
  | abort hf => exact .abort hf

theorem shift_token {t : Token} {k : List Token} (hr : c.rest = t :: k) {o : Outcome β}
    (h : o.Meets { c with rest := k } fun ts' => T (t :: ts')) : o.Meets c T :=
  shift [t] [] hr (by simpa using h)

/-- One rule after another. -/
theorem bind (hp : Agree c p q S)
    (hf : ∀ ts k fs a, c.rest = ts ++ k → S ts k fs a →
      Agree { c with rest := k, faults := fs ++ c.faults } (f a) (g a)
        fun ts' k' fs' b => T (ts ++ ts') k' (fs' ++ fs) b) :
    Agree c (p >>= f) (q >>= g) T := by
  obtain ⟨heq, hm⟩ := hp
  rw [Agree, bind_apply, bind_apply, ← heq]
  generalize p c = o at hm
  cases hm with
  | @ok ts k fs a hr hs =>
    obtain ⟨he, hm⟩ := hf ts k fs a hr hs
    exact ⟨he, shift ts fs hr hm⟩
  | bail hr hf => exact ⟨rfl, .bail hr hf⟩
  | abort hf => exact ⟨rfl, .abort hf⟩

theorem pure {a : α} (h : S [] c.rest [] a) : Agree c (pure a) (pure a) S :=
  ⟨rfl, .ok rfl h⟩

theorem map {h : α → β} (hp : Agree c p q fun ts k fs a => T ts k fs (h a)) :
    Agree c (h <$> p) (h <$> q) T := by
  refine hp.bind fun ts k fs a hr hs => .pure ?_
  simpa using hs

/-! ### Steps that read at most one token -/

theorem peek {f g : Token → Parse β} (h : Agree c (f c.peek) (g c.peek) T) :
    Agree c (peek >>= f) (peek >>= g) T := h

theorem atEnd {f g : Bool → Parse β} (h : Agree c (f c.rest.isEmpty) (g c.rest.isEmpty) T) :
    Agree c (atEnd >>= f) (atEnd >>= g) T := h

theorem isGrouped {f g : Bool → Parse β} (h : Agree c (f c.grouped) (g c.grouped) T) :
    Agree c (isGrouped >>= f) (isGrouped >>= g) T := h

theorem check {kind : TokenKind} {f g : Bool → Parse β}
    (ht : Token.Heads kind c.rest → Agree c (f true) (g true) T)
    (hf : ¬ Token.Heads kind c.rest → Agree c (f false) (g false) T) :
    Agree c (check kind >>= f) (check kind >>= g) T := by
  obtain ⟨rest, stop, grouped, depth, faults⟩ := c
  cases rest with
  | nil => exact hf (Token.not_heads_nil kind)
  | cons t k =>
    by_cases hk : t.kind = kind
    · have h := ht (Token.heads_cons.mpr hk)
      simpa [Agree, Parse.check, Bind.bind, Parse.bind, hk] using h
    · have h := hf (mt Token.heads_cons.mp hk)
      simpa [Agree, Parse.check, Bind.bind, Parse.bind, hk] using h

theorem checkSecond {kind : TokenKind} {f g : Bool → Parse β}
    (ht : (∃ t s k, c.rest = t :: s :: k ∧ s.kind = kind) → Agree c (f true) (g true) T)
    (hf : (¬ ∃ t s k, c.rest = t :: s :: k ∧ s.kind = kind) → Agree c (f false) (g false) T) :
    Agree c (checkSecond kind >>= f) (checkSecond kind >>= g) T := by
  obtain ⟨rest, stop, grouped, depth, faults⟩ := c
  match rest with
  | [] => exact hf (by simp)
  | [t] => exact hf (by simp)
  | t :: s :: k =>
    by_cases hk : s.kind = kind
    · have h := ht ⟨t, s, k, rfl, hk⟩
      simpa [Agree, Parse.checkSecond, Bind.bind, Parse.bind, hk] using h
    · have h := hf (by simp [hk])
      simpa [Agree, Parse.checkSecond, Bind.bind, Parse.bind, hk] using h

theorem advance {f g : Unit → Parse β} {t : Token} {k : List Token} (hr : c.rest = t :: k)
    (h : Agree { c with rest := k } (f ()) (g ()) fun ts' => T (t :: ts')) :
    Agree c (advance >>= f) (advance >>= g) T := by
  obtain ⟨rest, stop, grouped, depth, faults⟩ := c
  cases hr
  obtain ⟨he, hm⟩ := h
  exact ⟨he, shift_token rfl hm⟩

theorem accept {kind : TokenKind} {f g : Option Token → Parse β}
    (hs : ∀ t k, c.rest = t :: k → t.kind = kind →
      Agree { c with rest := k } (f (some t)) (g (some t)) fun ts' => T (t :: ts'))
    (hn : ¬ Token.Heads kind c.rest → Agree c (f none) (g none) T) :
    Agree c (accept kind >>= f) (accept kind >>= g) T := by
  obtain ⟨rest, stop, grouped, depth, faults⟩ := c
  cases rest with
  | nil => exact hn (Token.not_heads_nil kind)
  | cons t k =>
    by_cases hk : t.kind = kind
    · obtain ⟨he, hm⟩ := hs t k rfl hk
      have hm := shift_token (c := ⟨t :: k, stop, grouped, depth, faults⟩) rfl hm
      simpa [Agree, Parse.accept, Bind.bind, Parse.bind, hk] using ⟨he, hm⟩
    · have h := hn (mt Token.heads_cons.mp hk)
      simpa [Agree, Parse.accept, Bind.bind, Parse.bind, hk] using h

theorem fail {what : Expected} : Agree c (fail what) (fail what) S :=
  ⟨rfl, @Outcome.Meets.bail _ c S [] c.rest [_] c.grouped rfl (by simp)⟩

theorem consume {kind : TokenKind} {what : Expected} {f g : Token → Parse β}
    (hs : ∀ t k, c.rest = t :: k → t.kind = kind →
      Agree { c with rest := k } (f t) (g t) fun ts' => T (t :: ts')) :
    Agree c (consume kind what >>= f) (consume kind what >>= g) T := by
  have hc : Agree c (Parse.consume kind what) (Parse.consume kind what)
      fun ts k fs t => ts = [t] ∧ fs = [] ∧ c.rest = t :: k ∧ t.kind = kind := by
    refine .accept (fun t k hr hk => .pure ?_) fun _ => .fail
    simp [hr, hk]
  refine hc.bind ?_
  rintro ts k fs t - ⟨rfl, rfl, hr, hk⟩
  simpa using hs t k hr hk

theorem report {t : Token} {problem : GrammarProblem} {f g : Unit → Parse β}
    (h : Agree (c.report t problem) (f ()) (g ()) fun ts' k' fs' b =>
      T ts' k' (fs' ++ [.atToken t (.grammar problem)]) b) :
    Agree c (report t problem >>= f) (report t problem >>= g) T := by
  exact ⟨h.1, shift [] [.atToken t (.grammar problem)] rfl h.2⟩

/-! ### Rules around rules -/

/-- One level deeper; there is room for it if the outcome is a success. -/
theorem nested (h : c.depth < maxNesting → Agree { c with depth := c.depth + 1 } p q S) :
    Agree c (nested p) (nested q) fun ts k fs a => c.depth < maxNesting ∧ S ts k fs a := by
  by_cases hd : maxNesting ≤ c.depth
  · have ha : ∀ r : Parse α, Parse.nested r c = .abort (c.report c.peek .tooMuchNesting) :=
      fun r => if_pos hd
    rw [Agree, ha, ha]
    exact ⟨rfl, .abort (by simp [Cursor.report])⟩
  · have hd' : c.depth < maxNesting := Nat.lt_of_not_le hd
    obtain ⟨he, hm⟩ := h hd'
    unfold Agree Parse.nested
    rw [if_neg hd, if_neg hd, ← he]
    generalize p { c with depth := c.depth + 1 } = o at hm
    refine ⟨rfl, ?_⟩
    cases hm with
    | ok hr hs => exact .ok hr ⟨hd', hs⟩
    | bail hr hf => exact .bail hr hf
    | abort hf => exact .abort hf

theorem within {b : Bool} (h : Agree { c with grouped := b } p q S) :
    Agree c (within b p) (within b q) S := by
  obtain ⟨he, hm⟩ := h
  unfold Agree Parse.within
  rw [← he]
  generalize p { c with grouped := b } = o at hm
  refine ⟨rfl, ?_⟩
  cases hm with
  | ok hr hs => exact .ok hr hs
  | bail hr hf => exact .bail hr hf
  | abort hf => exact .abort hf

/-- Reading resumes after a problem. If there was anything to read, something has been read. -/
theorem recovering (hg : c.grouped = false) (h : Agree c p q S) :
    Agree c (recovering p) (recovering q) fun ts k fs o =>
      match o with
      | some a => S ts k fs a
      | none => fs ≠ [] ∧ (c.rest ≠ [] → ts ≠ []) := by
  obtain ⟨he, hm⟩ := h
  unfold Agree Parse.recovering
  rw [← he]
  generalize p c = o at hm
  refine ⟨rfl, ?_⟩
  cases hm with
  | ok hr hs => exact .ok hr hs
  | @bail ts k fs g hr hf =>
    cases k with
    | nil =>
      have hts : c.rest = ts := by simpa using hr
      simp only [Cursor.synchronize]
      rw [← hg]
      exact .ok hr ⟨hf, fun hne => hts ▸ hne⟩
    | cons t k =>
      obtain ⟨skipped, hk⟩ := Cursor.skipFrom_suffix t k
      simp only [Cursor.synchronize]
      rw [← hg]
      have hr' : c.rest = (ts ++ t :: skipped) ++ Cursor.skipFrom t k := by
        rw [hr, List.append_assoc, List.cons_append, hk]
      exact .ok hr' ⟨hf, fun _ => by simp⟩
  | abort hf => exact .abort hf

/-- Rounds after some have been made. The invariant is about what has been read and reported since
the start, and what is left. -/
theorem iterate {round round' : α → Parse (Option α)} {I : Statement α}
    (hr : ∀ ts k fs a, c.rest = ts ++ k → I ts k fs a →
      Agree { c with rest := k, faults := fs ++ c.faults } (round a) (round' a) fun ts' k' fs' o =>
        match o with
        | some a' => ts' ≠ [] ∧ I (ts ++ ts') k' (fs' ++ fs) a'
        | none => S (ts ++ ts') k' (fs' ++ fs) a)
    (budget : List Token) {ts k : List Token} {fs : List Diagnostic} {a : α}
    (hk : c.rest = ts ++ k) (hb : k.length ≤ budget.length) (hI : I ts k fs a) :
    iterate round budget a { c with rest := k, faults := fs ++ c.faults } =
        iterate round' budget a { c with rest := k, faults := fs ++ c.faults } ∧
      (iterate round budget a { c with rest := k, faults := fs ++ c.faults }).Meets c S := by
  obtain ⟨he, hm⟩ := hr ts k fs a hk hI
  unfold Parse.iterate
  rw [← he]
  generalize round a { c with rest := k, faults := fs ++ c.faults } = o at hm
  cases hm with
  | @ok ts' k' fs' o hr' hs =>
    have hr' : k = ts' ++ k' := hr'
    cases o with
    | none => exact ⟨rfl, shift ts fs hk (.ok hr' hs)⟩
    | some a' =>
      obtain ⟨hne, hI'⟩ := hs
      -- a round that goes on reads a token, so it leaves less than there is a budget for
      have hlen : k'.length < budget.length := by
        have := List.length_pos_iff.mpr hne
        simp only [hr', List.length_append] at hb
        omega
      have hk' : c.rest = (ts ++ ts') ++ k' := by rw [hk, hr', List.append_assoc]
      cases budget with
      | nil => cases hlen
      | cons t budget =>
        have h := iterate hr budget hk' (Nat.le_of_lt_succ hlen) hI'
        simpa only [List.append_assoc] using h
  | bail hr' hf => exact ⟨rfl, shift ts fs hk (.bail hr' hf)⟩
  | abort hf => exact ⟨rfl, .abort hf⟩

/-- A repetition. -/
theorem many {round round' : α → Parse (Option α)} {a : α} (I : Statement α)
    (h0 : I [] c.rest [] a)
    (hr : ∀ ts k fs a, c.rest = ts ++ k → I ts k fs a →
      Agree { c with rest := k, faults := fs ++ c.faults } (round a) (round' a) fun ts' k' fs' o =>
        match o with
        | some a' => ts' ≠ [] ∧ I (ts ++ ts') k' (fs' ++ fs) a'
        | none => S (ts ++ ts') k' (fs' ++ fs) a) :
    Agree c (many round a) (many round' a) S :=
  iterate hr c.rest rfl (Nat.le_refl _) h0

end Agree

end Parse

end Lox
