import Lox.Proofs.Grammar.Soundness

/-!
# What a rule recognises

The other direction of `Lox.Proofs.Grammar.Reading`: which tokens a rule is sure to read. A rule is
followed through its steps on a sequence of tokens, before anything that does not extend it.

## Design notes

What may follow is a condition on the kind of the next token alone, since no rule looks further
ahead when it decides whether to go on. Where there is less room than asked for, the parse may be
given up, but nothing else can go wrong.
-/

namespace Lox

/-- The kind of the first token, or of the mark behind the last. -/
def Token.next : List Token → TokenKind
  | [] => .eof
  | t :: _ => t.kind

@[simp] theorem Token.next_nil : Token.next [] = .eof := rfl

@[simp] theorem Token.next_cons (t : Token) (k : List Token) : Token.next (t :: k) = t.kind := rfl

theorem Cursor.peek_kind {c : Cursor} (hc : c.Closed) : c.peek.kind = Token.next c.rest := by
  cases hr : c.rest with
  | nil => exact (Cursor.peek_nil hr).symm ▸ hc
  | cons t k => rw [Cursor.peek_cons hr, Token.next_cons]

/-- An outcome that gives up at a cursor without room for `n` more levels of nesting, which is the
only problem. -/
def Outcome.OutOfRoom {α : Type} (n : Nat) (c : Cursor) (o : Outcome α) : Prop :=
  maxNesting < c.depth + n ∧ ∃ t c', o = .abort c' ∧
    c'.faults = .atToken t (.grammar .tooMuchNesting) :: c.faults

theorem Outcome.OutOfRoom.bind {α β : Type} {n : Nat} {c : Cursor} {p : Parse α}
    (h : (p c).OutOfRoom n c) (f : α → Parse β) : ((p >>= f) c).OutOfRoom n c := by
  obtain ⟨hn, t, c', hp, hf⟩ := h
  refine ⟨hn, t, c', ?_, hf⟩
  rw [Parse.bind_apply, hp]

namespace Parse

variable {α β : Type}

/-- A rule that reads `ts` as `a` before any token whose kind satisfies `F`, with commas grouped as
in `g`. It is sure to do so with room for `n` more levels of nesting. -/
def Reads (n : Nat) (g : Bool) (p : Parse α) (ts : List Token) (a : α) (F : TokenKind → Prop) :
    Prop :=
  ∀ ⦃c : Cursor⦄ ⦃k : List Token⦄, c.Closed → c.grouped = g → c.rest = ts ++ k →
    F (Token.next k) → p c = .ok a { c with rest := k } ∨ (p c).OutOfRoom n c

/-- A rule that reads `ts` and is then in a repetition of `round` at `a`. -/
def Reaches (n : Nat) (g : Bool) (p : Parse α) (round : α → Parse (Option α)) (ts : List Token)
    (a : α) (F : TokenKind → Prop) : Prop :=
  ∀ ⦃c : Cursor⦄ ⦃k : List Token⦄, c.Closed → c.grouped = g → c.rest = ts ++ k →
    F (Token.next k) →
      (∃ budget, k.length ≤ budget.length ∧ p c = iterate round budget a { c with rest := k }) ∨
        (p c).OutOfRoom n c

namespace Reads

variable {n : Nat} {g : Bool} {p : Parse α} {f : α → Parse β} {a : α} {b : β} {t : Token}
  {ts ts' : List Token} {kind : TokenKind} {F F' : TokenKind → Prop}

/-- With enough room the tokens are read. -/
theorem eq_ok (h : Reads n g p ts a F) {c : Cursor} {k : List Token} (hc : c.Closed)
    (hg : c.grouped = g) (hd : c.depth + n ≤ maxNesting) (hr : c.rest = ts ++ k)
    (hk : F (Token.next k)) : p c = .ok a { c with rest := k } := by
  rcases h hc hg hr hk with heq | ⟨hn, -⟩
  · exact heq
  · exact absurd hd (Nat.not_le.mpr hn)

theorem mono (h : Reads n g p ts a F) (hF : ∀ κ, F' κ → F κ) : Reads n g p ts a F' :=
  fun _ _ hc hg hr hk => h hc hg hr (hF _ hk)

theorem congr {q : Parse α} (h : Reads n g q ts a F)
    (hq : ∀ c : Cursor, c.Closed → c.grouped = g → p c = q c) : Reads n g p ts a F := by
  intro c k hc hg hr hk
  rw [hq c hc hg]
  exact h hc hg hr hk

theorem pure : Reads n g (Pure.pure a) [] a F := by
  intro c k hc hg hr hk
  cases hr
  exact .inl rfl

/-- One rule after another. -/
theorem bind (hp : Reads n g p ts a F) (hf : Reads n g (f a) ts' b F')
    (hF : ∀ k, F' (Token.next k) → F (Token.next (ts' ++ k))) :
    Reads n g (p >>= f) (ts ++ ts') b F' := by
  intro c k hc hg hr hk
  rcases hp hc hg (k := ts' ++ k) (by rw [hr, List.append_assoc]) (hF k hk) with h | h
  · have hstep : (p >>= f) c = f a { c with rest := ts' ++ k } := by rw [bind_apply, h]
    rw [hstep]
    exact hf (c := { c with rest := ts' ++ k }) hc hg rfl hk
  · exact .inr (h.bind f)

/-- One rule after another, when the second reads nothing. -/
theorem bind_nil (hp : Reads n g p ts a F) (hf : Reads n g (f a) [] b F') (hF : ∀ κ, F' κ → F κ) :
    Reads n g (p >>= f) ts b F' := by
  have h := hp.bind hf fun k hk => hF _ hk
  rwa [List.append_nil] at h

theorem bind_pure {h : α → β} (hp : Reads n g p ts a F) :
    Reads n g (p >>= fun a => Pure.pure (h a)) ts (h a) F :=
  hp.bind_nil .pure fun _ hκ => hκ

theorem map {h : α → β} (hp : Reads n g p ts a F) : Reads n g (h <$> p) ts (h a) F := hp.bind_pure

/-! ### Steps that read at most one token -/

theorem peek {f : Token → Parse β} (h : Reads n g (f t) (t :: ts) b F) :
    Reads n g (peek >>= f) (t :: ts) b F := by
  intro c k hc hg hr hk
  have hstep : (Parse.peek >>= f) c = f t c := by rw [← Cursor.peek_cons hr]; rfl
  rw [hstep]
  exact h hc hg hr hk

/-- Looking at what follows, with nothing left to read. -/
theorem peek_end {f : Token → Parse β} (h : ∀ t : Token, F t.kind → Reads n g (f t) [] b F) :
    Reads n g (Parse.peek >>= f) [] b F := by
  intro c k hc hg hr hk
  have hp : F c.peek.kind := by
    rw [Cursor.peek_kind hc, hr]
    exact hk
  exact h c.peek hp hc hg hr hk

theorem isGrouped {f : Bool → Parse β} (h : Reads n g (f g) ts b F) :
    Reads n g (isGrouped >>= f) ts b F := by
  intro c k hc hg hr hk
  subst hg
  exact h hc rfl hr hk

theorem advance {f : Unit → Parse β} (h : Reads n g (f ()) ts b F) :
    Reads n g (advance >>= f) (t :: ts) b F := by
  intro c k hc hg hr hk
  exact h (c := { c with rest := c.rest.tail }) hc hg (by simp [hr]) hk

theorem accept_some {f : Option Token → Parse β} (ht : t.kind = kind)
    (h : Reads n g (f (some t)) ts b F) : Reads n g (accept kind >>= f) (t :: ts) b F := by
  intro c k hc hg hr hk
  have hstep : (accept kind >>= f) c = f (some t) { c with rest := ts ++ k } := by
    rw [List.cons_append] at hr
    simp only [bind_apply, Parse.accept, hr, ht, if_true]
  rw [hstep]
  exact h (c := { c with rest := ts ++ k }) hc hg rfl hk

theorem accept_none {f : Option Token → Parse β} (h : Reads n g (f none) ts b F)
    (hF : ∀ k, F (Token.next k) → Token.next (ts ++ k) ≠ kind) :
    Reads n g (accept kind >>= f) ts b F := by
  intro c k hc hg hr hk
  have hne : Token.next c.rest ≠ kind := hr ▸ hF k hk
  have hstep : (accept kind >>= f) c = f none c := by
    rw [bind_apply, Parse.accept]
    cases hrest : c.rest with
    | nil => rfl
    | cons t k =>
      rw [hrest] at hne
      simp only [Token.next_cons] at hne
      simp only [hne, if_false]
  rw [hstep]
  exact h hc hg hr hk

theorem consume {f : Token → Parse β} {what : Expected} (ht : t.kind = kind)
    (h : Reads n g (f t) ts b F) : Reads n g (consume kind what >>= f) (t :: ts) b F := by
  unfold Parse.consume
  rw [bind_assoc]
  exact accept_some ht h

theorem check_false {f : Bool → Parse β} (h : Reads n g (f false) ts b F)
    (hF : ∀ k, F (Token.next k) → Token.next (ts ++ k) ≠ kind) :
    Reads n g (check kind >>= f) ts b F := by
  intro c k hc hg hr hk
  have hne : Token.next c.rest ≠ kind := hr ▸ hF k hk
  have hstep : (check kind >>= f) c = f false c := by
    rw [bind_apply, Parse.check]
    cases hrest : c.rest with
    | nil => rfl
    | cons t k =>
      rw [hrest] at hne
      simp only [Token.next_cons] at hne
      simp only [hne, decide_false]
  rw [hstep]
  exact h hc hg hr hk

theorem check_true {f : Bool → Parse β} (h : Reads n g (f true) ts b F) (hkind : kind ≠ .eof)
    (hF : ∀ k, F (Token.next k) → Token.next (ts ++ k) = kind) :
    Reads n g (check kind >>= f) ts b F := by
  intro c k hc hg hr hk
  have heq : Token.next c.rest = kind := hr ▸ hF k hk
  have hstep : (check kind >>= f) c = f true c := by
    rw [bind_apply, Parse.check]
    cases hrest : c.rest with
    | nil =>
      rw [hrest] at heq
      exact absurd heq.symm hkind
    | cons t k =>
      rw [hrest] at heq
      simp only [Token.next_cons] at heq
      simp only [heq, decide_true]
  rw [hstep]
  exact h hc hg hr hk

theorem checkSecond_true {f : Bool → Parse β} {s : Token}
    (h : Reads n g (f true) (t :: s :: ts) b F) (hs : s.kind = kind) :
    Reads n g (checkSecond kind >>= f) (t :: s :: ts) b F := by
  intro c k hc hg hr hk
  have hstep : (checkSecond kind >>= f) c = f true c := by
    rw [List.cons_append, List.cons_append] at hr
    simp only [bind_apply, Parse.checkSecond, hr, hs, decide_true]
  rw [hstep]
  exact h hc hg hr hk

theorem checkSecond_false {f : Bool → Parse β} {s : Token}
    (h : Reads n g (f false) (t :: s :: ts) b F) (hs : s.kind ≠ kind) :
    Reads n g (checkSecond kind >>= f) (t :: s :: ts) b F := by
  intro c k hc hg hr hk
  have hstep : (checkSecond kind >>= f) c = f false c := by
    rw [List.cons_append, List.cons_append] at hr
    simp only [bind_apply, Parse.checkSecond, hr, hs, decide_false]
  rw [hstep]
  exact h hc hg hr hk

theorem atEnd {f : Bool → Parse β} (h : Reads n g (f false) ts b F)
    (hF : ∀ k, F (Token.next k) → Token.next (ts ++ k) ≠ .eof) :
    Reads n g (atEnd >>= f) ts b F := by
  intro c k hc hg hr hk
  have hne : Token.next c.rest ≠ .eof := hr ▸ hF k hk
  have hstep : (Parse.atEnd >>= f) c = f false c := by
    rw [bind_apply, Parse.atEnd]
    cases hrest : c.rest with
    | nil => simp [hrest] at hne
    | cons t k => rfl
  rw [hstep]
  exact h hc hg hr hk

/-! ### Rules around rules -/

/-- One level deeper, which takes one off the room. Without any room the parse is given up. -/
theorem nested (h : Reads n g p ts a F) : Reads (n + 1) g (nested p) ts a F := by
  intro c k hc hg hr hk
  unfold Parse.nested
  by_cases hdepth : maxNesting ≤ c.depth
  · rw [if_pos hdepth]
    exact .inr ⟨by omega, c.peek, _, rfl, rfl⟩
  · rw [if_neg hdepth]
    rcases h (c := { c with depth := c.depth + 1 }) hc hg hr hk with heq | ⟨hn, t, c', heq, hf⟩
    · rw [heq]
      exact .inl rfl
    · rw [heq]
      have hn : maxNesting < c.depth + 1 + n := hn
      exact .inr ⟨by omega, t, c', rfl, hf⟩

theorem within {b : Bool} (h : Reads n b p ts a F) : Reads n g (within b p) ts a F := by
  intro c k hc hg hr hk
  unfold Parse.within
  rcases h (c := { c with grouped := b }) hc rfl hr hk with heq | ⟨hn, t, c', heq, hf⟩
  · rw [heq]
    exact .inl rfl
  · rw [heq]
    exact .inr ⟨hn, t, c', rfl, hf⟩

theorem recovering (h : Reads n g p ts a F) : Reads n g (recovering p) ts (some a) F := by
  intro c k hc hg hr hk
  unfold Parse.recovering
  rcases h hc hg hr hk with heq | ⟨hn, t, c', heq, hf⟩
  · rw [heq]
    exact .inl rfl
  · rw [heq]
    exact .inr ⟨hn, t, c', rfl, hf⟩

end Reads

namespace Reaches

variable {n : Nat} {g : Bool} {p : Parse α} {round : α → Parse (Option α)} {a a' : α}
  {ts ts' : List Token} {F F' : TokenKind → Prop}

theorem congr {q : Parse α} (h : Reaches n g q round ts a F)
    (hq : ∀ c : Cursor, c.Closed → c.grouped = g → p c = q c) : Reaches n g p round ts a F := by
  intro c k hc hg hr hk
  rw [hq c hc hg]
  exact h hc hg hr hk

/-- The start of a repetition. -/
theorem start (h : Reads n g p ts a F) : Reaches n g (p >>= many round) round ts a F := by
  intro c k hc hg hr hk
  rcases h hc hg hr hk with heq | h
  · refine .inl ⟨k, Nat.le_refl _, ?_⟩
    rw [bind_apply, heq]
    rfl
  · exact .inr (h.bind _)

theorem init : Reaches n g (many round a) round [] a F := start (p := Pure.pure a) .pure

/-- One more round. -/
theorem step (h : Reaches n g p round ts a F) (hr : Reads n g (round a) ts' (some a') F')
    (hne : ts' ≠ []) (hF : ∀ k, F' (Token.next k) → F (Token.next (ts' ++ k))) :
    Reaches n g p round (ts ++ ts') a' F' := by
  intro c k hc hg hrest hk
  rcases h hc hg (k := ts' ++ k) (by rw [hrest, List.append_assoc]) (hF k hk) with
    ⟨budget, hb, hp⟩ | h
  · rcases hr (c := { c with rest := ts' ++ k }) hc hg rfl hk with hround | ⟨hn, t, c', hround, hf⟩
    · -- the round reads a token, so the budget has one item to spare
      cases budget with
      | nil => simp_all
      | cons t budget =>
        refine .inl ⟨budget, ?_, ?_⟩
        · have := List.length_pos_iff.mpr hne
          simp only [List.length_append, List.length_cons] at hb
          omega
        · rw [hp, iterate, hround]
    · refine .inr ⟨hn, t, c', ?_, hf⟩
      rw [hp]
      unfold iterate
      rw [hround]
  · exact .inr h

/-- The end of a repetition. -/
theorem reads (h : Reaches n g p round ts a F) (hr : Reads n g (round a) [] none F')
    (hF : ∀ κ, F' κ → F κ) : Reads n g p ts a F' := by
  intro c k hc hg hrest hk
  rcases h hc hg hrest (hF _ hk) with ⟨budget, -, hp⟩ | h
  · rw [hp]
    unfold iterate
    rcases hr (c := { c with rest := k }) hc hg rfl hk with hround | ⟨hn, t, c', hround, hf⟩
    · rw [hround]
      exact .inl rfl
    · rw [hround]
      exact .inr ⟨hn, t, c', rfl, hf⟩
  · exact .inr h

end Reaches

end Parse

/-! ### Rules without a bound -/

namespace Rules

/-- The rules with references followed as deep as the input needs. -/
def full : Rules where
  declaration := fun c => (upTo (depthFor c.rest.length)).declaration c
  statement := fun c => (upTo (depthFor c.rest.length)).statement c
  expression := fun c => (upTo (depthFor c.rest.length)).expression c
  assignment := fun c => (upTo (depthFor c.rest.length)).assignment c
  unary := fun c => (upTo (depthFor c.rest.length)).unary c

theorem depthFor_eq (n : Nat) : depthFor n = 6 * n + 7 + 5 := by
  unfold depthFor
  omega

/-- Any depth that is enough for `n` tokens gives the full rules on such inputs. -/
theorem upTo_agree_full {n N : Nat} (hN : 6 * n ≤ N) : Rules.Agree n (upTo (N + 5)) full := by
  have h : ∀ c : Cursor, c.rest.length ≤ n →
      Rules.Agree c.rest.length (upTo (N + 5)) (upTo (depthFor c.rest.length)) := by
    intro c hn
    rw [depthFor_eq]
    exact upTo_agree (by omega) (by omega)
  exact
    { unary := fun hc hn => ((h _ hn).unary hc (Nat.le_refl _)).congr rfl
      assignment := fun hc hn => ((h _ hn).assignment hc (Nat.le_refl _)).congr rfl
      expression := fun hc hn => ((h _ hn).expression hc (Nat.le_refl _)).congr rfl
      statement := fun hc hg hn => ((h _ hn).statement hc hg (Nat.le_refl _)).congr rfl
      declaration := fun hc hg hn => ((h _ hn).declaration hc hg (Nat.le_refl _)).congr rfl }

theorem agree_full {m n : Nat} (h : m ≤ n) : Rules.Agree m (upTo (6 * n + 6 + 5)) full :=
  upTo_agree_full (by omega)

variable {c : Cursor}

theorem full_unary (hc : c.Closed) : full.unary c = Grammar.unary full c :=
  (Grammar.unary_agree (n := c.rest.length) (fun _ hm => agree_full (Nat.le_of_lt hm)) hc
    (Nat.le_refl _)).1

theorem full_assignment (hc : c.Closed) : full.assignment c = Grammar.assignment full c :=
  (Grammar.assignment_agree (n := c.rest.length) (fun _ hm => agree_full (Nat.le_of_lt hm))
    (agree_full (Nat.le_refl _)).unary hc (Nat.le_refl _)).1

theorem full_expression (hc : c.Closed) : full.expression c = Grammar.expression full c :=
  (Grammar.expression_agree (n := c.rest.length) (agree_full (Nat.le_refl _)).assignment hc
    (Nat.le_refl _)).1

theorem full_statement (hc : c.Closed) (hg : c.grouped = false) :
    full.statement c = Grammar.statement full c :=
  (Grammar.statement_agree (n := c.rest.length) (fun _ hm => agree_full (Nat.le_of_lt hm))
    (agree_full (Nat.le_refl _)).expression hc hg (Nat.le_refl _)).1

theorem full_declaration (hc : c.Closed) (hg : c.grouped = false) :
    full.declaration c = Grammar.declaration full c :=
  (Grammar.declaration_agree (n := c.rest.length) (fun _ hm => agree_full (Nat.le_of_lt hm))
    (agree_full (Nat.le_refl _)).statement hc hg (Nat.le_refl _)).1

end Rules

end Lox
