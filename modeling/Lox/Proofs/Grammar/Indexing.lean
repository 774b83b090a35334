import Lox.Proofs.Grammar.Recognition

/-!
# Reading tokens by index

The steps of a parse as they are taken on a list of tokens and an index into it. A read outside the
list has no result. Every rule that is built from the steps of `Lox.Grammar.Cursor` can be carried
out this way, and from an index before the first end mark it always has a result, the same as with
the tokens that are left at hand.
-/

namespace Lox

/-- The state of a parse that reads a list of tokens by index. -/
structure Reader where
  tokens : List Token
  current : Nat := 0
  grouped : Bool := false
  depth : Nat := 0
  faults : List Diagnostic := []

namespace Reader

/-- The token at the index. -/
def peek? (r : Reader) : Option Token := r.tokens[r.current]?

/-- The token before the index, or the first one. -/
def previous? (r : Reader) : Option Token := r.tokens[r.current - 1]?

/-- Whether there is an end mark at the index. -/
def atEnd? (r : Reader) : Option Bool := r.peek?.map (·.kind = .eof)

/-- Moves on, but not past an end mark. -/
def advance? (r : Reader) : Option Reader := do
  if ← r.atEnd? then pure r else pure { r with current := r.current + 1 }

/-- Whether the token at the index has the given kind and is no end mark. -/
def check? (r : Reader) (kind : TokenKind) : Option Bool := do
  if ← r.atEnd? then pure false
  else
    let t ← r.peek?
    pure (t.kind = kind)

/-- Whether the token behind the one at the index has the given kind. -/
def checkSecond? (r : Reader) (kind : TokenKind) : Option Bool := do
  if (← r.atEnd?) || decide (r.tokens.length ≤ r.current + 1) then pure false
  else
    let t ← r.tokens[r.current + 1]?
    pure (t.kind = kind)

/-- Moves on to the next boundary, in at most the given number of steps. -/
def skip? : Nat → Reader → Option Reader
  | 0, _ => none
  | steps + 1, r => do
    if ← r.atEnd? then pure r
    else
      let before ← r.previous?
      let t ← r.peek?
      if before.kind = .semicolon || Cursor.isBoundary t then pure r
      else
        let next ← r.advance?
        skip? steps next

/-- Moves past the token at the index and on to the next boundary. -/
def synchronize? (r : Reader) : Option Reader := do
  let next ← { r with grouped := false }.advance?
  skip? r.tokens.length next

/-- The state with one more problem at a token. -/
def report (r : Reader) (t : Token) (problem : GrammarProblem) : Reader :=
  { r with faults := .atToken t (.grammar problem) :: r.faults }

/-- How a rule that reads by index ends. -/
inductive Result (α : Type) where
  | ok (value : α) (next : Reader)
  | bail (next : Reader)
  | abort (next : Reader)
  | exhausted

end Reader

/-- A rule that reads by index. It has no result if it reads outside the list. -/
def Seek (α : Type) := Reader → Option (Reader.Result α)

variable {α β : Type}

namespace Seek

/-- The steps of `Lox.Parse`, one by one. -/
protected def pure (a : α) : Seek α := fun r => some (.ok a r)

protected def bind (q : Seek α) (f : α → Seek β) : Seek β := fun r =>
  match q r with
  | some (.ok a r) => f a r
  | some (.bail r) => some (.bail r)
  | some (.abort r) => some (.abort r)
  | some .exhausted => some .exhausted
  | none => none

def peek : Seek Token := fun r => r.peek?.map (.ok · r)

def check (kind : TokenKind) : Seek Bool := fun r => (r.check? kind).map (.ok · r)

def checkSecond (kind : TokenKind) : Seek Bool := fun r => (r.checkSecond? kind).map (.ok · r)

def atEnd : Seek Bool := fun r => r.atEnd?.map (.ok · r)

def isGrouped : Seek Bool := fun r => some (.ok r.grouped r)

def advance : Seek Unit := fun r => r.advance?.map (.ok ())

/-- A token that is accepted is the one before the index to which the parse has moved on. -/
def accept (kind : TokenKind) : Seek (Option Token) := fun r => do
  if ← r.check? kind then
    let next ← r.advance?
    let t ← next.previous?
    pure (.ok (some t) next)
  else pure (.ok none r)

def report (t : Token) (problem : GrammarProblem) : Seek Unit := fun r =>
  some (.ok () (r.report t problem))

def fail (what : Expected) : Seek α := fun r =>
  r.peek?.map fun t => .bail (r.report t (.expected what))

def nested (q : Seek α) : Seek α := fun r =>
  if maxNesting ≤ r.depth then r.peek?.map fun t => .abort (r.report t .tooMuchNesting)
  else match q { r with depth := r.depth + 1 } with
    | some (.ok a r) => some (.ok a { r with depth := r.depth - 1 })
    | some (.bail r) => some (.bail { r with depth := r.depth - 1 })
    | some (.abort r) => some (.abort r)
    | some .exhausted => some .exhausted
    | none => none

def within (grouped : Bool) (q : Seek α) : Seek α := fun r =>
  match q { r with grouped := grouped } with
  | some (.ok a next) => some (.ok a { next with grouped := r.grouped })
  | some (.bail next) => some (.bail next)
  | some (.abort next) => some (.abort next)
  | some .exhausted => some .exhausted
  | none => none

def recovering (q : Seek α) : Seek (Option α) := fun r =>
  match q r with
  | some (.ok a r) => some (.ok (some a) r)
  | some (.bail r) => r.synchronize?.map (.ok none)
  | some (.abort r) => some (.abort r)
  | some .exhausted => some .exhausted
  | none => none

/-- Rounds up to the one that declines, and at most the given number before it. -/
def iterate (round : α → Seek (Option α)) : Nat → α → Seek α := fun budget a r =>
  match round a r with
  | some (.ok (some a) r) =>
    match budget with
    | 0 => some .exhausted
    | budget + 1 => iterate round budget a r
  | some (.ok none r) => some (.ok a r)
  | some (.bail r) => some (.bail r)
  | some (.abort r) => some (.abort r)
  | some .exhausted => some .exhausted
  | none => none

def many (round : α → Seek (Option α)) (a : α) : Seek α := fun r =>
  iterate round r.tokens.length a r

end Seek

/-! ### The same place of the input -/

/-- An index and a cursor at the same place of the input, with the same state. From the index on the
list has the tokens that the cursor has left, then the first end mark. -/
structure Reader.Stands (r : Reader) (c : Cursor) : Prop where
  tokens : ∃ after, r.tokens.drop r.current = c.rest ++ c.stop :: after
  inner : ∀ t ∈ c.rest, t.kind ≠ .eof
  closed : c.Closed
  grouped : r.grouped = c.grouped
  depth : r.depth = c.depth
  faults : r.faults = c.faults

/-- Further on in the same list. -/
structure Reader.Leads (r r' : Reader) : Prop where
  tokens : r'.tokens = r.tokens
  current : r.current ≤ r'.current

namespace Reader

variable {r r' r'' : Reader} {c : Cursor} {t : Token} {k : List Token}

theorem Leads.refl (r : Reader) : r.Leads r := ⟨rfl, Nat.le_refl _⟩

theorem Leads.trans (h : r.Leads r') (h' : r'.Leads r'') : r.Leads r'' :=
  ⟨h'.tokens.trans h.tokens, Nat.le_trans h.current h'.current⟩

namespace Stands

/-- The index is inside the list, and more so the more tokens are left. -/
theorem length_lt (h : r.Stands c) : r.current + c.rest.length < r.tokens.length := by
  obtain ⟨after, ha⟩ := h.tokens
  have hl := congrArg List.length ha
  simp only [List.length_drop, List.length_append, List.length_cons] at hl
  omega

theorem peek (h : r.Stands c) : r.peek? = some c.peek := by
  obtain ⟨after, ha⟩ := h.tokens
  have hi : r.peek? = (r.tokens.drop r.current)[0]? := by
    rw [List.getElem?_drop]
    rfl
  rw [hi, ha]
  cases hr : c.rest with
  | nil =>
    rw [Cursor.peek_nil hr]
    rfl
  | cons t k =>
    rw [Cursor.peek_cons hr]
    rfl

theorem atEnd (h : r.Stands c) : r.atEnd? = some c.rest.isEmpty := by
  rw [atEnd?, h.peek]
  cases hr : c.rest with
  | nil =>
    have hstop : c.stop.kind = .eof := h.closed
    simp [Cursor.peek_nil hr, hstop]
  | cons t k =>
    have ht : t.kind ≠ .eof := h.inner t (by simp [hr])
    simp [Cursor.peek_cons hr, ht]

/-- One token further. -/
theorem step (h : r.Stands c) (hr : c.rest = t :: k) :
    Stands { r with current := r.current + 1 } { c with rest := k } := by
  obtain ⟨after, ha⟩ := h.tokens
  refine ⟨⟨after, ?_⟩, fun u hu => h.inner u (by simp [hr, hu]), h.closed, h.grouped, h.depth,
    h.faults⟩
  rw [hr] at ha
  change r.tokens.drop (r.current + 1) = k ++ c.stop :: after
  rw [← List.tail_drop, ha]
  rfl

/-- The token that has been read last. -/
theorem previous_step (h : r.Stands c) (hr : c.rest = t :: k) :
    previous? { r with current := r.current + 1 } = some t := by
  have hp : r.peek? = some t := by rw [h.peek, Cursor.peek_cons hr]
  exact hp

theorem advance_cons (h : r.Stands c) (hr : c.rest = t :: k) :
    r.advance? = some { r with current := r.current + 1 } := by
  simp [advance?, h.atEnd, hr]

theorem advance_nil (h : r.Stands c) (hr : c.rest = []) : r.advance? = some r := by
  simp [advance?, h.atEnd, hr]

theorem check_cons (h : r.Stands c) (hr : c.rest = t :: k) (kind : TokenKind) :
    r.check? kind = some (decide (t.kind = kind)) := by
  simp [check?, h.atEnd, h.peek, hr, Cursor.peek_cons hr]

theorem check_nil (h : r.Stands c) (hr : c.rest = []) (kind : TokenKind) :
    r.check? kind = some false := by
  simp [check?, h.atEnd, hr]

/-- The token behind the next one is looked up only if the next one is no end mark, and then it is
inside the list: it may be the end mark. -/
theorem checkSecond (h : r.Stands c) {kind : TokenKind} (hk : kind ≠ .eof) {b : Bool}
    (hb : Parse.checkSecond kind c = .ok b c) : r.checkSecond? kind = some b := by
  obtain ⟨after, ha⟩ := h.tokens
  obtain ⟨rest, stop, grouped, depth, faults⟩ := c
  have hi : r.tokens[r.current + 1]? = (rest ++ stop :: after)[1]? := by
    rw [← List.getElem?_drop, ha]
  have hend : r.atEnd? = some rest.isEmpty := h.atEnd
  have hl : r.current + rest.length < r.tokens.length := h.length_lt
  cases rest with
  | nil =>
    cases hb
    simp [checkSecond?, hend]
  | cons t k =>
    have hin : ¬ r.tokens.length ≤ r.current + 1 := by
      rw [List.length_cons] at hl
      omega
    cases k with
    | nil =>
      have hstop : stop.kind ≠ kind := fun he => hk (he.symm.trans h.closed)
      cases hb
      simp [checkSecond?, hend, hi, hin, hstop]
    | cons u k =>
      cases hb
      simp [checkSecond?, hend, hi, hin]

/-- The loop of recovery ends at the boundary after the token before the index. -/
theorem skip (steps : Nat) (before : Token) (h : r.Stands c) (hs : c.rest.length < steps)
    (hb : c.rest ≠ [] → r.previous? = some before) :
    ∃ r', skip? steps r = some r' ∧ r.Leads r' ∧
      r'.Stands { c with rest := Cursor.skipFrom before c.rest } := by
  induction steps generalizing r c before with
  | zero => cases hs
  | succ steps ih =>
    cases hr : c.rest with
    | nil =>
      refine ⟨r, by simp [skip?, h.atEnd, hr], .refl r, ?_⟩
      have hc : { c with rest := Cursor.skipFrom before [] } = c := by rw [Cursor.skipFrom, ← hr]
      rw [hc]
      exact h
    | cons t k =>
      have hb := hb (by simp [hr])
      have heq : skip? (steps + 1) r = if before.kind = .semicolon || Cursor.isBoundary t then some r
          else skip? steps { r with current := r.current + 1 } := by
        simp only [skip?, h.atEnd, h.peek, hr, hb, Cursor.peek_cons hr, h.advance_cons hr,
          Option.bind_eq_bind, Option.bind_some, List.isEmpty_cons, Bool.false_eq_true, if_false]
        rfl
      rw [heq, Cursor.skipFrom]
      split
      · refine ⟨r, rfl, .refl r, ?_⟩
        rw [← hr]
        exact h
      · have hlen : k.length < steps := by simpa [hr] using hs
        obtain ⟨r', hr', hl, hstands⟩ := ih t (h.step hr) hlen fun _ => h.previous_step hr
        exact ⟨r', hr', ⟨hl.tokens, Nat.le_of_succ_le hl.current⟩, hstands⟩

theorem ungroup (h : r.Stands c) : Stands { r with grouped := false } { c with grouped := false } :=
  ⟨h.tokens, h.inner, h.closed, rfl, h.depth, h.faults⟩

theorem synchronize (h : r.Stands c) :
    ∃ r', r.synchronize? = some r' ∧ r.Leads r' ∧ r'.Stands c.synchronize := by
  have hlt := h.length_lt
  cases hr : c.rest with
  | nil =>
    obtain ⟨r', hr', hl, hs⟩ := h.ungroup.skip r.tokens.length c.stop
      (by simp only [hr, List.length_nil]; omega) (fun hne => absurd hr hne)
    refine ⟨r', ?_, ⟨hl.tokens, hl.current⟩, ?_⟩
    · simp [synchronize?, h.ungroup.advance_nil hr, hr']
    · simpa [Cursor.synchronize, Cursor.skipFrom, hr] using hs
  | cons t k =>
    have hk : k.length < r.tokens.length := by
      rw [hr, List.length_cons] at hlt
      omega
    obtain ⟨r', hr', hl, hs⟩ := (h.ungroup.step hr).skip r.tokens.length t hk
      fun _ => h.ungroup.previous_step hr
    refine ⟨r', ?_, ⟨hl.tokens, Nat.le_of_succ_le hl.current⟩, ?_⟩
    · simp [synchronize?, h.ungroup.advance_cons hr, hr']
    · simpa [Cursor.synchronize, hr] using hs

theorem report (h : r.Stands c) (t : Token) (problem : GrammarProblem) :
    (r.report t problem).Stands (c.report t problem) :=
  ⟨h.tokens, h.inner, h.closed, h.grouped, h.depth, by simp [Reader.report, Cursor.report, h.faults]⟩

end Stands

end Reader

/-! ### Rules that read by index -/

/-- A rule, and the same rule reading by index: both are built in the same way from the same
steps. -/
inductive Parse.Indexes : {α : Type} → Parse α → Seek α → Prop where
  | pure {α : Type} (a : α) : Indexes (Pure.pure a) (.pure a)
  | bind {α β : Type} {p : Parse α} {q : Seek α} {f : α → Parse β} {g : α → Seek β} :
      Indexes p q → (∀ a, Indexes (f a) (g a)) → Indexes (p >>= f) (q.bind g)
  | peek : Indexes peek .peek
  | check (kind : TokenKind) : Indexes (check kind) (.check kind)
  | checkSecond {kind : TokenKind} : kind ≠ .eof → Indexes (checkSecond kind) (.checkSecond kind)
  | atEnd : Indexes atEnd .atEnd
  | isGrouped : Indexes isGrouped .isGrouped
  | advance : Indexes advance .advance
  | accept (kind : TokenKind) : Indexes (accept kind) (.accept kind)
  | report (t : Token) (problem : GrammarProblem) :
      Indexes (report t problem) (.report t problem)
  | fail {α : Type} (what : Expected) : Indexes (α := α) (fail what) (.fail what)
  | nested {α : Type} {p : Parse α} {q : Seek α} : Indexes p q → Indexes (nested p) q.nested
  | within {α : Type} {p : Parse α} {q : Seek α} (grouped : Bool) : Indexes p q →
      Indexes (within grouped p) (q.within grouped)
  | recovering {α : Type} {p : Parse α} {q : Seek α} : Indexes p q →
      Indexes (recovering p) q.recovering
  | many {α : Type} {round : α → Parse (Option α)} {round' : α → Seek (Option α)} (a : α) :
      (∀ a, Indexes (round a) (round' a)) → Indexes (many round a) (.many round' a)
  | exhausted {α : Type} : Indexes (α := α) (fun _ => .exhausted) fun _ => some .exhausted

/-- An outcome is also the result of reading by index, at a later index of the same list. Nothing is
said where a bound ran out. -/
inductive Outcome.Served (r : Reader) : Outcome α → Option (Reader.Result α) → Prop where
  | ok {a : α} {c : Cursor} {r' : Reader} : r.Leads r' → r'.Stands c →
      Served r (.ok a c) (some (.ok a r'))
  | bail {c : Cursor} {r' : Reader} : r.Leads r' → r'.Stands c →
      Served r (.bail c) (some (.bail r'))
  | abort {c : Cursor} {r' : Reader} : r.Leads r' → r'.Stands c →
      Served r (.abort c) (some (.abort r'))
  | exhausted {x : Option (Reader.Result α)} : Served r .exhausted x

namespace Outcome.Served

variable {r r' : Reader} {c : Cursor} {o : Outcome α} {x : Option (Reader.Result α)} {p : Parse α}
  {q : Seek α}

theorem of_leads (h : r.Leads r') (ho : o.Served r' x) : o.Served r x := by
  cases ho with
  | ok hl hs => exact .ok (h.trans hl) hs
  | bail hl hs => exact .bail (h.trans hl) hs
  | abort hl hs => exact .abort (h.trans hl) hs
  | exhausted => exact .exhausted

/-- A step that always succeeds and moves neither the index nor the cursor. -/
theorem still {a : α} (h : r.Stands c) (hx : x = some (.ok a r)) : (Outcome.ok a c).Served r x := by
  rw [hx]
  exact .ok (.refl r) h

theorem bind {f : α → Parse β} {g : α → Seek β} (hp : (p c).Served r (q r))
    (hf : ∀ a r c, r.Stands c → (f a c).Served r (g a r)) :
    ((p >>= f) c).Served r (q.bind g r) := by
  rw [Parse.bind_apply, Seek.bind]
  generalize p c = o, q r = x at hp
  cases hp with
  | ok hl hs => exact .of_leads hl (hf _ _ _ hs)
  | bail hl hs => exact .bail hl hs
  | abort hl hs => exact .abort hl hs
  | exhausted => exact .exhausted

theorem check (kind : TokenKind) (h : r.Stands c) :
    (Parse.check kind c).Served r (Seek.check kind r) := by
  refine .still h ?_
  rw [Seek.check]
  cases hr : c.rest with
  | nil => rw [h.check_nil hr, Option.map_some]
  | cons t k => rw [h.check_cons hr, Option.map_some]

theorem advance (h : r.Stands c) : (Parse.advance c).Served r (Seek.advance r) := by
  obtain ⟨rest, stop, grouped, depth, faults⟩ := c
  cases rest with
  | nil =>
    rw [Seek.advance, h.advance_nil rfl]
    exact .ok (.refl r) h
  | cons t k =>
    rw [Seek.advance, h.advance_cons rfl]
    exact .ok ⟨rfl, Nat.le_succ _⟩ (h.step rfl)

theorem accept (kind : TokenKind) (h : r.Stands c) :
    (Parse.accept kind c).Served r (Seek.accept kind r) := by
  obtain ⟨rest, stop, grouped, depth, faults⟩ := c
  cases rest with
  | nil => exact .still h (by simp [Seek.accept, h.check_nil rfl])
  | cons t k =>
    by_cases hk : t.kind = kind
    · have hx : Seek.accept kind r = some (.ok (some t) { r with current := r.current + 1 }) := by
        simp [Seek.accept, h.check_cons rfl, h.advance_cons rfl, h.previous_step rfl, hk]
      have hp : Parse.accept kind ⟨t :: k, stop, grouped, depth, faults⟩ =
          .ok (some t) ⟨k, stop, grouped, depth, faults⟩ := if_pos hk
      rw [hp, hx]
      exact .ok ⟨rfl, Nat.le_succ _⟩ (h.step rfl)
    · have hp : Parse.accept kind ⟨t :: k, stop, grouped, depth, faults⟩ =
          .ok none ⟨t :: k, stop, grouped, depth, faults⟩ := if_neg hk
      rw [hp]
      exact .still h (by simp [Seek.accept, h.check_cons rfl, hk])

theorem nested (h : r.Stands c) (hp : ∀ r c, r.Stands c → (p c).Served r (q r)) :
    (Parse.nested p c).Served r (q.nested r) := by
  unfold Parse.nested Seek.nested
  rw [h.depth]
  split
  · rw [h.peek]
    exact .abort ⟨rfl, Nat.le_refl _⟩ (h.report _ _)
  · have hd : Reader.Stands { r with depth := c.depth + 1 } { c with depth := c.depth + 1 } :=
      ⟨h.tokens, h.inner, h.closed, h.grouped, rfl, h.faults⟩
    have hs := hp _ _ hd
    generalize p { c with depth := c.depth + 1 } = o, q { r with depth := c.depth + 1 } = x at hs
    cases hs with
    | ok hl hs =>
      exact .ok ⟨hl.tokens, hl.current⟩ ⟨hs.tokens, hs.inner, hs.closed, hs.grouped,
        congrArg (· - 1) hs.depth, hs.faults⟩
    | bail hl hs =>
      exact .bail ⟨hl.tokens, hl.current⟩ ⟨hs.tokens, hs.inner, hs.closed, hs.grouped,
        congrArg (· - 1) hs.depth, hs.faults⟩
    | abort hl hs => exact .abort ⟨hl.tokens, hl.current⟩ hs
    | exhausted => exact .exhausted

theorem within (b : Bool) (h : r.Stands c) (hp : ∀ r c, r.Stands c → (p c).Served r (q r)) :
    (Parse.within b p c).Served r (q.within b r) := by
  have hb : Reader.Stands { r with grouped := b } { c with grouped := b } :=
    ⟨h.tokens, h.inner, h.closed, rfl, h.depth, h.faults⟩
  have hs := hp _ _ hb
  unfold Parse.within Seek.within
  generalize p { c with grouped := b } = o, q { r with grouped := b } = x at hs
  cases hs with
  | ok hl hs =>
    exact .ok ⟨hl.tokens, hl.current⟩ ⟨hs.tokens, hs.inner, hs.closed, h.grouped, hs.depth,
      hs.faults⟩
  | bail hl hs => exact .bail ⟨hl.tokens, hl.current⟩ hs
  | abort hl hs => exact .abort ⟨hl.tokens, hl.current⟩ hs
  | exhausted => exact .exhausted

theorem recovering (hp : (p c).Served r (q r)) :
    (Parse.recovering p c).Served r (q.recovering r) := by
  unfold Parse.recovering Seek.recovering
  generalize p c = o, q r = x at hp
  cases hp with
  | ok hl hs => exact .ok hl hs
  | @bail c₁ r₁ hl hs =>
    obtain ⟨r₂, hx, hl₂, hs₂⟩ := hs.synchronize
    simp only [hx, Option.map_some]
    exact .ok (hl.trans hl₂) hs₂
  | abort hl hs => exact .abort hl hs
  | exhausted => exact .exhausted

/-- Rounds, with a budget that is no smaller when reading by index. -/
theorem iterate {round : α → Parse (Option α)} {round' : α → Seek (Option α)}
    (hround : ∀ a r c, r.Stands c → (round a c).Served r (round' a r)) {budget : List Token}
    {n : Nat} (hn : budget.length ≤ n) (a : α) {r : Reader} {c : Cursor} (h : r.Stands c) :
    (Parse.iterate round budget a c).Served r (Seek.iterate round' n a r) := by
  have hs := hround a r c h
  unfold Parse.iterate Seek.iterate
  generalize round a c = o, round' a r = x at hs
  cases hs with
  | @ok next _ _ hl hs =>
    cases next with
    | none => exact .ok hl hs
    | some a' =>
      cases budget with
      | nil => exact .exhausted
      | cons t budget =>
        obtain ⟨m, rfl⟩ : ∃ m, n = m + 1 := ⟨n - 1, by simp only [List.length_cons] at hn; omega⟩
        exact .of_leads hl (iterate hround (Nat.le_of_succ_le_succ hn) a' hs)
  | bail hl hs => exact .bail hl hs
  | abort hl hs => exact .abort hl hs
  | exhausted => exact .exhausted

end Outcome.Served

/-- Reading by index has a result wherever the rule has an outcome: no read is outside the list. -/
theorem Parse.Indexes.served {p : Parse α} {q : Seek α} (hpq : p.Indexes q) {r : Reader}
    {c : Cursor} (h : r.Stands c) : (p c).Served r (q r) := by
  induction hpq generalizing r c with
  | pure a => exact .still h rfl
  | bind _ _ ihp ihf => exact .bind (ihp h) fun a r c h => ihf a h
  | peek => exact .still h (by rw [Seek.peek, h.peek, Option.map_some])
  | check kind => exact .check kind h
  | checkSecond hk =>
    exact .still h (by rw [Seek.checkSecond, h.checkSecond hk rfl, Option.map_some])
  | atEnd => exact .still h (by rw [Seek.atEnd, h.atEnd, Option.map_some])
  | isGrouped => exact .still h (by rw [Seek.isGrouped, h.grouped])
  | advance => exact .advance h
  | accept kind => exact .accept kind h
  | report t problem => exact .ok ⟨rfl, Nat.le_refl _⟩ (h.report t problem)
  | fail what =>
    rw [Seek.fail, h.peek]
    exact .bail ⟨rfl, Nat.le_refl _⟩ (h.report _ _)
  | nested _ ih => exact .nested h fun r c h => ih h
  | within b _ ih => exact .within b h fun r c h => ih h
  | recovering _ ih => exact .recovering (ih h)
  | many a _ ih =>
    have hl := h.length_lt
    exact .iterate (fun a r c h => ih a h) (by omega) a h
  | exhausted => exact .exhausted

/-! ### Rules that can be read by index -/

/-- A rule that is built from the steps of a parse, so that it can be read by index. -/
def Parse.Indexable (p : Parse α) : Prop := ∃ q, p.Indexes q

namespace Parse.Indexable

variable {p : Parse α} {f : α → Parse β}

theorem pure (a : α) : Indexable (Pure.pure a) := ⟨_, .pure a⟩

theorem bind (hp : p.Indexable) (hf : ∀ a, (f a).Indexable) : (p >>= f).Indexable := by
  obtain ⟨q, hq⟩ := hp
  obtain ⟨g, hg⟩ := Classical.axiomOfChoice hf
  exact ⟨_, .bind hq hg⟩

theorem map {h : α → β} (hp : p.Indexable) : (h <$> p).Indexable := hp.bind fun a => .pure (h a)

theorem consume (kind : TokenKind) (what : Expected) : (consume kind what).Indexable := by
  refine .bind ⟨_, .accept kind⟩ fun o => ?_
  cases o with
  | some t => exact .pure t
  | none => exact ⟨_, .fail what⟩

theorem advance {f : Unit → Parse β} (h : (f ()).Indexable) : (Parse.advance >>= f).Indexable :=
  .bind ⟨_, .advance⟩ fun _ => h

/-- A step that looks at the next token, then what it selects. -/
theorem peek {f : Token → Parse β} (h : ∀ t, (f t).Indexable) : (Parse.peek >>= f).Indexable :=
  .bind ⟨_, .peek⟩ h

theorem accept {kind : TokenKind} {f : Option Token → Parse β} (hn : (f none).Indexable)
    (hs : ∀ t, (f (some t)).Indexable) : (Parse.accept kind >>= f).Indexable := by
  refine .bind ⟨_, .accept kind⟩ fun o => ?_
  cases o with
  | none => exact hn
  | some t => exact hs t

theorem check {kind : TokenKind} {f : Bool → Parse β} (h : ∀ b, (f b).Indexable) :
    (Parse.check kind >>= f).Indexable :=
  .bind ⟨_, .check kind⟩ h

theorem nested (hp : p.Indexable) : (Parse.nested p).Indexable := by
  obtain ⟨q, hq⟩ := hp
  exact ⟨_, .nested hq⟩

theorem within (b : Bool) (hp : p.Indexable) : (Parse.within b p).Indexable := by
  obtain ⟨q, hq⟩ := hp
  exact ⟨_, .within b hq⟩

theorem recovering (hp : p.Indexable) : (Parse.recovering p).Indexable := by
  obtain ⟨q, hq⟩ := hp
  exact ⟨_, .recovering hq⟩

theorem many {round : α → Parse (Option α)} (a : α) (h : ∀ a, (round a).Indexable) :
    (Parse.many round a).Indexable := by
  obtain ⟨g, hg⟩ := Classical.axiomOfChoice h
  exact ⟨_, .many a hg⟩

end Parse.Indexable

end Lox
