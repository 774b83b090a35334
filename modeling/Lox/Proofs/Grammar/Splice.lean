import Lox.Proofs.Grammar.Expression
import Lox.Proofs.Tree.Lines

/-!
# The same tokens in another input

A rule that reads some tokens does the same to them when they stand on other lines, after tokens
with which something was wrong, or before further tokens. The last is true only as far as the rule
does not notice where the tokens end. This module says what "the same" means and shows it for the
steps from which rules are built.

## Design notes

Nothing is said about the other input once a problem has been reported that its reader would not
have met: one at the end of tokens that go on there. Such problems spoil the comparison. What else
a rule may do at the end is its `Finish`. The rules for sequences compose these, so no proof about
a grammar rule mentions a cursor.
-/

namespace Lox

variable {α β γ δ : Type}

/-- What surrounds some tokens in another input, and the problems that spoil the comparison. -/
structure Splice where
  /-- The lines on which the tokens stand there. -/
  line : Int → Int
  /-- The tokens that follow them there. -/
  more : List Token
  /-- The token that ends the other input. -/
  stop : Token
  /-- The problems reported there before, latest first. -/
  faults : List Diagnostic
  /-- The problems after which nothing is compared. -/
  Spoils : Diagnostic → Prop

/-- The state of the parse of the other input. -/
def Splice.cursor (x : Splice) (c : Cursor) : Cursor where
  rest := c.rest.map (Token.mapLine x.line) ++ x.more
  stop := x.stop
  grouped := c.grouped
  depth := c.depth
  faults := c.faults.map (Diagnostic.mapLine x.line) ++ x.faults

/-- A cursor at which the two inputs can be compared. Where tokens follow, problems at the end spoil
the comparison. The last token before them is one at which recovery stops in both inputs, or else
every problem spoils the comparison; and it is none whose meaning hangs on the next one. -/
structure Splice.Admits (x : Splice) (c : Cursor) : Prop where
  closed : c.Closed
  stop : x.more = [] → x.stop = c.stop.mapLine x.line
  atEnd : x.more ≠ [] → ∀ p, x.Spoils (.atToken c.stop p)
  nesting : x.more ≠ [] → ∀ t, x.Spoils (.atToken t (.grammar .tooMuchNesting))
  noElse : ¬ Token.Heads .elseKw x.more
  last : x.more ≠ [] → ∀ t ∈ c.rest.getLast?,
    t.kind ≠ .funKw ∧ (t.kind = .semicolon ∨ ∀ d, x.Spoils d)

/-- Whether the next token is the same in both inputs, or the end in both. -/
def Splice.Sees (x : Splice) (c : Cursor) : Prop := c.rest ≠ [] ∨ x.more = []

theorem Splice.not_sees {x : Splice} {c : Cursor} (h : ¬ x.Sees c) :
    c.rest = [] ∧ x.more ≠ [] := by
  obtain ⟨hr, hm⟩ := not_or.mp h
  exact ⟨Decidable.not_not.mp hr, hm⟩

theorem Splice.peek_cursor {x : Splice} {c : Cursor} (hx : x.Admits c) (h : x.Sees c) :
    (x.cursor c).peek = c.peek.mapLine x.line := by
  obtain ⟨rest, stop, grouped, depth, faults⟩ := c
  cases rest with
  | cons t k => rfl
  | nil =>
    have hm : x.more = [] := h.resolve_left (· rfl)
    simpa [Splice.cursor, Cursor.peek, hm] using hx.stop hm

/-! ### What a rule does to a cursor -/

/-- A cursor further on: some tokens have been read and some problems reported, but the nesting
was not too deep. -/
structure Cursor.Leads (c c' : Cursor) : Prop where
  rest : c'.rest <:+ c.rest
  stop : c'.stop = c.stop
  faults : ∃ fs, c'.faults = fs ++ c.faults ∧ ∀ d ∈ fs, d.problem ≠ .grammar .tooMuchNesting

namespace Cursor.Leads

variable {c c₁ c₂ : Cursor}

protected theorem refl (c : Cursor) : c.Leads c := ⟨List.suffix_rfl, rfl, [], rfl, by simp⟩

protected theorem trans (h₁ : c.Leads c₁) (h₂ : c₁.Leads c₂) : c.Leads c₂ := by
  obtain ⟨fs₁, hf₁, hn₁⟩ := h₁.faults
  obtain ⟨fs₂, hf₂, hn₂⟩ := h₂.faults
  refine ⟨h₂.rest.trans h₁.rest, h₂.stop.trans h₁.stop, fs₂ ++ fs₁, ?_, ?_⟩
  · rw [hf₂, hf₁, List.append_assoc]
  · intro d hd
    rcases List.mem_append.mp hd with hd | hd
    · exact hn₂ d hd
    · exact hn₁ d hd

theorem of_suffix {ts : List Token} (h : ts <:+ c.rest) : c.Leads { c with rest := ts } :=
  ⟨h, rfl, [], rfl, by simp⟩

theorem report (c : Cursor) (t : Token) {problem : GrammarProblem}
    (h : problem ≠ .tooMuchNesting) : c.Leads (c.report t problem) :=
  ⟨List.suffix_rfl, rfl, [.atToken t (.grammar problem)], rfl, by simpa [Diagnostic.atToken]⟩

theorem synchronize (c : Cursor) : c.Leads c.synchronize := by
  unfold Cursor.synchronize
  split
  · exact ⟨List.suffix_rfl, rfl, [], rfl, by simp⟩
  · next t ts hr =>
    refine ⟨?_, rfl, [], rfl, by simp⟩
    rw [hr]
    exact (Cursor.skipFrom_suffix t ts).trans (List.suffix_cons t ts)

/-- Past the end nothing is left. -/
theorem nil (h : c.Leads c₁) (hr : c.rest = []) : c₁.rest = [] := by
  have hs := h.rest
  rw [hr] at hs
  exact List.suffix_nil.mp hs

end Cursor.Leads

/-- Inputs that can be compared at one cursor can be compared further on. -/
theorem Splice.Admits.leads {x : Splice} {c c₁ : Cursor} (hx : x.Admits c) (h : c.Leads c₁) :
    x.Admits c₁ := by
  refine ⟨?_, ?_, ?_, hx.nesting, hx.noElse, ?_⟩
  · rw [Cursor.Closed, h.stop]
    exact hx.closed
  · rw [h.stop]
    exact hx.stop
  · rw [h.stop]
    exact hx.atEnd
  · intro hm t ht
    obtain ⟨ts, hts⟩ := h.rest
    refine hx.last hm t ?_
    rw [← hts, List.getLast?_append, ht]
    rfl

/-- The problems reported up to an outcome, latest first. -/
def Outcome.faults : Outcome α → List Diagnostic
  | .ok _ c => c.faults
  | .bail c => c.faults
  | .abort c => c.faults
  | .exhausted => []

/-- What every outcome of a rule has in common: the parse is further on, and was given up only
because the nesting was too deep. -/
def Outcome.Follows (c : Cursor) : Outcome α → Prop
  | .ok _ c' => c.Leads c'
  | .bail c' => c.Leads c'
  | .abort c' => ∃ c₁, c.Leads c₁ ∧ c' = c₁.report c₁.peek .tooMuchNesting
  | .exhausted => True

theorem Outcome.Follows.of_leads {c c₁ : Cursor} {o : Outcome α} (h : c.Leads c₁)
    (ho : o.Follows c₁) : o.Follows c := by
  cases o with
  | ok a c' => exact h.trans ho
  | bail c' => exact h.trans ho
  | abort c' =>
    obtain ⟨c₂, h₂, rfl⟩ := ho
    exact ⟨c₂, h.trans h₂, rfl⟩
  | exhausted => trivial

theorem Outcome.Follows.mem_faults {c : Cursor} {o : Outcome α} {d : Diagnostic}
    (ho : o.Follows c) (hd : d ∈ c.faults) : d ∈ o.faults ∨ o = .exhausted := by
  have mem : ∀ {c' : Cursor}, c.Leads c' → d ∈ c'.faults := by
    intro c' h
    obtain ⟨fs, hf, -⟩ := h.faults
    rw [hf]
    exact List.mem_append_right fs hd
  cases o with
  | ok a c' => exact .inl (mem ho)
  | bail c' => exact .inl (mem ho)
  | abort c' =>
    obtain ⟨c₂, h₂, rfl⟩ := ho
    exact .inl (List.mem_cons_of_mem _ (mem h₂))
  | exhausted => exact .inr rfl

/-! ### Comparing outcomes -/

/-- How a rule ends where its tokens end: it may stop there for want of more, it does not look at
what follows, or it has read a token of its own that closes it. -/
inductive Finish where
  | loose
  | blind
  | sealed
  deriving DecidableEq

/-- Two different ways to end, found as an instance where the ways are known. -/
class Finish.Differs (s t : Finish) : Prop where
  ne : s ≠ t

instance : Finish.Differs .loose .blind := ⟨nofun⟩

instance : Finish.Differs .sealed .blind := ⟨nofun⟩

instance : Finish.Differs .loose .sealed := ⟨nofun⟩

instance : Finish.Differs .blind .sealed := ⟨nofun⟩

/-- Whether one of some problems spoils the comparison. -/
def Splice.Lost (x : Splice) (ds : List Diagnostic) : Prop := ∃ d ∈ ds, x.Spoils d

/-- An outcome in the other input is the same, with `g` applied to the value. A rule that stops
loosely at the end of its tokens, or reports what spoils the comparison, says nothing of the other
outcome. -/
inductive Outcome.Matches (x : Splice) (s : Finish) (g : α → β) (c : Cursor) :
    Outcome α → Outcome β → Prop where
  | ok {a : α} {c' : Cursor} : (s = .sealed → x.more ≠ [] → c.rest ≠ []) →
      Matches x s g c (.ok a c') (.ok (g a) (x.cursor c'))
  | early {a : α} {c' : Cursor} {o' : Outcome β} : s = .loose → x.more ≠ [] → c'.rest = [] →
      Matches x s g c (.ok a c') o'
  | bail {c' : Cursor} : (x.more ≠ [] → c'.rest ≠ []) → c'.faults ≠ [] →
      Matches x s g c (.bail c') (.bail (x.cursor c'))
  | abort {c' : Cursor} : x.more = [] → Matches x s g c (.abort c') (.abort (x.cursor c'))
  | lost {o : Outcome α} {o' : Outcome β} : x.Lost o.faults → Matches x s g c o o'
  | exhausted {o' : Outcome β} : Matches x s g c .exhausted o'

/-- A rule that need not have read anything matches where it succeeds in both inputs. -/
theorem Outcome.Matches.unsealed {x : Splice} {s : Finish} [hs : s.Differs .sealed] {g : α → β}
    {c c' : Cursor} {a : α} : Matches x s g c (.ok a c') (.ok (g a) (x.cursor c')) :=
  .ok fun h => absurd h hs.ne

/-- An outcome of a rule that is matched in the other input. -/
structure Outcome.Tracks (x : Splice) (s : Finish) (g : α → β) (c : Cursor) (o : Outcome α)
    (o' : Outcome β) : Prop where
  follows : o.Follows c
  sim : o.Matches x s g c o'

namespace Outcome.Tracks

variable {x : Splice} {s t : Finish} {g : α → β} {c c₁ : Cursor} {o : Outcome α} {o' : Outcome β}

/-- What is matched from a later cursor on is matched from an earlier one on. -/
theorem of_leads (h : o.Tracks x s g c₁ o') (hc : c.Leads c₁) (hl : s = .loose → t = .loose)
    (hs : t = .sealed → x.more ≠ [] → s = .sealed ∨ c.rest ≠ []) : o.Tracks x t g c o' := by
  refine ⟨h.follows.of_leads hc, ?_⟩
  cases h.sim with
  | ok h0 =>
    refine .ok fun ht hm => ?_
    rcases hs ht hm with hs | hr
    · exact fun hr => h0 hs hm (hc.nil hr)
    · exact hr
  | early h0 hm hr => exact .early (hl h0) hm hr
  | bail hr hf => exact .bail hr hf
  | abort hm => exact .abort hm
  | lost h => exact .lost h
  | exhausted => exact .exhausted

/-- Once the comparison is spoilt, anything matches. -/
theorem of_lost {o₁ : Outcome β} (h : o.Tracks x s g c o₁) (hl : x.Lost c.faults) :
    o.Tracks x t g c o' := by
  refine ⟨h.follows, ?_⟩
  obtain ⟨d, hd, hs⟩ := hl
  rcases h.follows.mem_faults hd with hd | rfl
  · exact .lost ⟨d, hd, hs⟩
  · exact .exhausted

/-- A rule that looks at what follows, or has to read more, is matched by anything at the end of
tokens that go on. -/
theorem of_end {o₁ : Outcome β} (h : o.Tracks x s g c o₁) (hs : s ≠ .blind) (hm : x.more ≠ [])
    (hr : c.rest = []) : o.Tracks x s g c o' := by
  refine ⟨h.follows, ?_⟩
  have hf := h.follows
  cases h.sim with
  | ok h0 =>
    cases s with
    | loose => exact .early rfl hm (hf.nil hr)
    | blind => exact absurd rfl hs
    | sealed => exact absurd hr (h0 rfl hm)
  | early h0 _ hr => exact .early h0 hm hr
  | bail h0 _ => exact absurd (hf.nil hr) (h0 hm)
  | abort h0 => exact absurd h0 hm
  | lost h => exact .lost h
  | exhausted => exact .exhausted

end Outcome.Tracks

/-! ### Comparing rules -/

namespace Parse

variable {x : Splice} {s s₀ : Finish} {g : α → β} {h : γ → δ} {c : Cursor}

/-- A rule and its version for the other input have matching outcomes. -/
def Tracks (x : Splice) (s : Finish) (g : α → β) (p : Parse α) (p' : Parse β) : Prop :=
  ∀ c, x.Admits c → (p c).Tracks x s g c (p' (x.cursor c))

namespace Tracks

variable {p : Parse α} {p' : Parse β} {f : α → Parse γ} {f' : β → Parse δ}

/-- One rule after another, from a rule for how the two ends combine. -/
theorem bind_at {t : Finish} (ht : s = t ∧ t ≠ .blind ∨ s = .blind ∧ s₀ = t) (hx : x.Admits c)
    (hp : (p c).Tracks x s₀ g c (p' (x.cursor c))) (hf : ∀ a, Tracks x s h (f a) (f' (g a))) :
    ((p >>= f) c).Tracks x t h c ((p' >>= f') (x.cursor c)) := by
  rw [bind_apply, bind_apply]
  generalize p c = o, p' (x.cursor c) = o' at hp
  have hfo := hp.follows
  cases hp.sim with
  | @ok a c₁ h0 =>
    refine (hf a c₁ (hx.leads hfo)).of_leads hfo ?_ ?_
    · rcases ht with ⟨rfl, -⟩ | ⟨rfl, -⟩
      · exact id
      · exact nofun
    · intro hst hm
      rcases ht with ⟨rfl, -⟩ | ⟨-, rfl⟩
      · exact .inl hst
      · exact .inr (h0 hst hm)
  | @early a c₁ _ h0 hm hr =>
    -- the first rule may have stopped too soon, and the second one starts where nothing is left
    have ht' : t ≠ .blind := by
      rcases ht with ⟨-, ht⟩ | ⟨-, rfl⟩
      · exact ht
      · simp [h0]
    have h₁ : (f a c₁).Tracks x t h c₁ (f' (g a) (x.cursor c₁)) := by
      refine (hf a c₁ (hx.leads hfo)).of_leads (.refl c₁) ?_ ?_
      · rcases ht with ⟨rfl, -⟩ | ⟨rfl, -⟩
        · exact id
        · exact nofun
      · rcases ht with ⟨rfl, -⟩ | ⟨-, rfl⟩
        · exact fun h _ => .inl h
        · simp [h0]
    exact (h₁.of_end ht' hm hr).of_leads hfo id fun h _ => .inl h
  | bail hr hfa => exact ⟨hfo, .bail hr hfa⟩
  | abort hm => exact ⟨hfo, .abort hm⟩
  | lost hl =>
    cases o with
    | ok a c₁ =>
      exact ((hf a c₁ (hx.leads hfo)).of_lost hl).of_leads hfo id fun h _ => .inl h
    | bail c₁ => exact ⟨hfo, .lost hl⟩
    | abort c₁ => exact ⟨hfo, .lost hl⟩
    | exhausted => exact ⟨trivial, .exhausted⟩
  | exhausted => exact ⟨trivial, .exhausted⟩

/-- One rule after another; the second one decides how they end. -/
theorem bind [hs : s.Differs .blind] (hp : Tracks x s₀ g p p')
    (hf : ∀ a, Tracks x s h (f a) (f' (g a))) : Tracks x s h (p >>= f) (p' >>= f') :=
  fun c hx => bind_at (.inl ⟨rfl, hs.ne⟩) hx (hp c hx) hf

/-- One rule after another, where the second one does not look at what follows. -/
theorem bind_blind (hp : Tracks x s g p p') (hf : ∀ a, Tracks x .blind h (f a) (f' (g a))) :
    Tracks x s h (p >>= f) (p' >>= f') :=
  fun c hx => bind_at (.inr ⟨rfl, rfl⟩) hx (hp c hx) hf

/-- A rule may be taken to end more loosely than it does. -/
theorem loosen (hp : Tracks x s g p p') : Tracks x .loose g p p' :=
  fun c hx => (hp c hx).of_leads (.refl c) (fun _ => rfl) nofun

theorem toBlind (hp : Tracks x .sealed g p p') : Tracks x .blind g p p' :=
  fun c hx => (hp c hx).of_leads (.refl c) nofun nofun

theorem pure [s.Differs .sealed] (a : α) : Tracks x s g (pure a) (pure (g a)) :=
  fun c _ => ⟨.refl c, .unsealed⟩

/-- A value computed from what a rule returns. -/
theorem bind_pure {k : α → γ} {k' : β → δ} (hp : Tracks x s g p p')
    (hk : ∀ a, h (k a) = k' (g a)) :
    Tracks x s h (p >>= fun a => Pure.pure (k a)) (p' >>= fun b => Pure.pure (k' b)) := by
  refine hp.bind_blind fun a => ?_
  rw [← hk]
  exact .pure (k a)

theorem map {k : α → γ} {k' : β → δ} (hp : Tracks x s g p p') (hk : ∀ a, h (k a) = k' (g a)) :
    Tracks x s h (k <$> p) (k' <$> p') :=
  hp.bind_pure hk

/-! ### Steps that read at most one token -/

/-- A step that always succeeds is loose if it does the same wherever the next token is the same. -/
theorem of_ok (hp : ∀ c, x.Admits c → ∃ a c', p c = .ok a c' ∧ c.Leads c' ∧
    (x.Sees c → p' (x.cursor c) = .ok (g a) (x.cursor c'))) : Tracks x .loose g p p' := by
  intro c hx
  obtain ⟨a, c', hc, hl, h⟩ := hp c hx
  rw [hc]
  refine ⟨hl, ?_⟩
  by_cases hs : x.Sees c
  · rw [h hs]
    exact .unsealed
  · obtain ⟨hr, hm⟩ := Splice.not_sees hs
    exact .early rfl hm (hl.nil hr)

theorem peek : Tracks x .loose (Token.mapLine x.line) peek peek := by
  refine .of_ok fun c hx => ⟨_, _, rfl, .refl c, fun h => ?_⟩
  rw [Parse.peek, Splice.peek_cursor hx h]

theorem advance : Tracks x .loose id advance advance := by
  refine .of_ok fun c hx => ⟨_, _, rfl, .of_suffix (List.tail_suffix _), fun h => ?_⟩
  obtain ⟨rest, stop, grouped, depth, faults⟩ := c
  cases rest with
  | cons t k => rfl
  | nil => simp [Parse.advance, Splice.cursor, h.resolve_left (· rfl)]

theorem isGrouped : Tracks x .blind id isGrouped isGrouped :=
  fun c _ => ⟨.refl c, .unsealed⟩

theorem atEnd : Tracks x .loose id atEnd atEnd := by
  refine .of_ok fun c hx => ⟨_, _, rfl, .refl c, fun h => ?_⟩
  obtain ⟨rest, stop, grouped, depth, faults⟩ := c
  cases rest with
  | cons t k => rfl
  | nil => simp [Parse.atEnd, Splice.cursor, h.resolve_left (· rfl)]

theorem check (kind : TokenKind) : Tracks x .loose id (check kind) (check kind) := by
  refine .of_ok fun c hx => ⟨_, _, rfl, .refl c, fun h => ?_⟩
  obtain ⟨rest, stop, grouped, depth, faults⟩ := c
  cases rest with
  | cons t k => rfl
  | nil => simp [Parse.check, Splice.cursor, h.resolve_left (· rfl)]

theorem accept (kind : TokenKind) :
    Tracks x .loose (Option.map (Token.mapLine x.line)) (accept kind) (accept kind) := by
  refine .of_ok fun c hx => ?_
  obtain ⟨rest, stop, grouped, depth, faults⟩ := c
  cases rest with
  | cons t k =>
    by_cases hk : t.kind = kind
    · exact ⟨_, _, if_pos hk, .of_suffix (List.suffix_cons t k), fun _ => if_pos hk⟩
    · exact ⟨_, _, if_neg hk, .refl _, fun _ => if_neg hk⟩
  | nil =>
    refine ⟨_, _, rfl, .refl _, fun h => ?_⟩
    simp [Parse.accept, Splice.cursor, h.resolve_left (· rfl)]

/-- No `else` follows the tokens, so looking for one at their end finds none in either input. -/
theorem accept_else : Tracks x .blind (Option.map (Token.mapLine x.line)) (Parse.accept .elseKw)
    (Parse.accept .elseKw) := by
  intro c hx
  obtain ⟨rest, stop, grouped, depth, faults⟩ := c
  cases rest with
  | cons t k =>
    by_cases hk : t.kind = .elseKw
    · have h₀ : Parse.accept .elseKw ⟨t :: k, stop, grouped, depth, faults⟩ =
          .ok (some t) ⟨k, stop, grouped, depth, faults⟩ := if_pos hk
      have h : Parse.accept .elseKw (x.cursor ⟨t :: k, stop, grouped, depth, faults⟩) =
          .ok (some (t.mapLine x.line)) (x.cursor ⟨k, stop, grouped, depth, faults⟩) := if_pos hk
      rw [h₀, h]
      exact ⟨.of_suffix (List.suffix_cons t k), .unsealed⟩
    · have h₀ : Parse.accept .elseKw ⟨t :: k, stop, grouped, depth, faults⟩ =
          .ok none ⟨t :: k, stop, grouped, depth, faults⟩ := if_neg hk
      have h : Parse.accept .elseKw (x.cursor ⟨t :: k, stop, grouped, depth, faults⟩) =
          .ok none (x.cursor ⟨t :: k, stop, grouped, depth, faults⟩) := if_neg hk
      rw [h₀, h]
      exact ⟨.refl _, .unsealed⟩
  | nil =>
    have h : Parse.accept .elseKw (x.cursor ⟨[], stop, grouped, depth, faults⟩) =
        .ok none (x.cursor ⟨[], stop, grouped, depth, faults⟩) := by
      have hm := hx.noElse
      cases hx : x.more with
      | nil => simp [Parse.accept, Splice.cursor, hx]
      | cons t k =>
        rw [hx, Token.heads_cons] at hm
        simp [Parse.accept, Splice.cursor, hx, hm]
    rw [h]
    exact ⟨.refl _, .unsealed⟩

/-- Where the meaning of `fun` hangs on the next token, that token is the same in both inputs. -/
theorem checkSecond [hs : s.Differs .blind] {kind : TokenKind} {f : Bool → Parse γ}
    {f' : Bool → Parse δ} (hx : x.Admits c) (hk : c.peek.kind = .funKw)
    (hf : ∀ b, Tracks x s h (f b) (f' b)) :
    ((checkSecond kind >>= f) c).Tracks x s h c ((checkSecond kind >>= f') (x.cursor c)) := by
  suffices hm : (Parse.checkSecond kind c).Matches x .blind id c
      (Parse.checkSecond kind (x.cursor c)) from
    bind_at (.inl ⟨rfl, hs.ne⟩) hx ⟨.refl c, hm⟩ hf
  obtain ⟨rest, stop, grouped, depth, faults⟩ := c
  match rest with
  | [] =>
    have hc : stop.kind = .eof := hx.closed
    have hk : stop.kind = .funKw := hk
    rw [hc] at hk
    cases hk
  | [t] =>
    by_cases hm : x.more = []
    · have h : Parse.checkSecond kind (x.cursor ⟨[t], stop, grouped, depth, faults⟩) =
          .ok false (x.cursor ⟨[t], stop, grouped, depth, faults⟩) := by
        simp [Parse.checkSecond, Splice.cursor, hm]
      rw [h]
      exact .unsealed
    · exact absurd hk (hx.last hm t rfl).1
  | t :: u :: k => exact .unsealed

/-- A rule that depends on the next token, which may be at hand while the rule is compared. -/
theorem peek_bind [hs : s.Differs .blind] {f : Token → Parse γ} {f' : Token → Parse δ}
    (hf : ∀ c, x.Admits c →
      (f c.peek c).Tracks x s h c (f' (c.peek.mapLine x.line) (x.cursor c))) :
    Tracks x s h (Parse.peek >>= f) (Parse.peek >>= f') := by
  intro c hx
  have ht : ((Parse.peek >>= f) c).Tracks x s h c (f' (c.peek.mapLine x.line) (x.cursor c)) :=
    hf c hx
  by_cases h : x.Sees c
  · rw [← Splice.peek_cursor hx h] at ht
    exact ht
  · obtain ⟨hr, hm⟩ := Splice.not_sees h
    exact ht.of_end hs.ne hm hr

theorem report {t : Token} {problem : GrammarProblem} (h : problem ≠ .tooMuchNesting) :
    Tracks x .blind id (report t problem) (report (t.mapLine x.line) problem) :=
  fun c _ => ⟨.report c t h, .unsealed⟩

theorem fail (what : Expected) : Tracks x s g (fail what) (fail what) := by
  intro c hx
  refine ⟨.report c c.peek nofun, ?_⟩
  by_cases h : x.Sees c
  · have he : (Parse.fail what : Parse β) (x.cursor c) =
        .bail (x.cursor (c.report c.peek (.expected what))) := by
      rw [Parse.fail, Splice.peek_cursor hx h]
      rfl
    rw [he]
    exact .bail (fun hm => h.resolve_right hm) (by simp [Cursor.report])
  · obtain ⟨hr, hm⟩ := Splice.not_sees h
    refine .lost ⟨_, List.mem_cons_self, ?_⟩
    rw [Cursor.peek_nil hr]
    exact hx.atEnd hm _

theorem consume (kind : TokenKind) (what : Expected) :
    Tracks x .sealed (Token.mapLine x.line) (consume kind what) (consume kind what) := by
  intro c hx
  have hf := fail (s := .sealed) (g := Token.mapLine x.line) what c hx
  obtain ⟨rest, stop, grouped, depth, faults⟩ := c
  cases rest with
  | cons t k =>
    by_cases hk : t.kind = kind
    · have he : Parse.consume kind what ⟨t :: k, stop, grouped, depth, faults⟩ =
          .ok t ⟨k, stop, grouped, depth, faults⟩ := by
        simp [Parse.consume, Parse.accept, Bind.bind, Parse.bind, Pure.pure, Parse.pure, hk]
      have he' : Parse.consume kind what (x.cursor ⟨t :: k, stop, grouped, depth, faults⟩) =
          .ok (t.mapLine x.line) (x.cursor ⟨k, stop, grouped, depth, faults⟩) := by
        simp [Parse.consume, Parse.accept, Bind.bind, Parse.bind, Pure.pure, Parse.pure, hk,
          Splice.cursor]
      rw [he, he']
      exact ⟨.of_suffix (List.suffix_cons t k), .ok fun _ _ => List.cons_ne_nil t k⟩
    · have he : Parse.consume kind what ⟨t :: k, stop, grouped, depth, faults⟩ =
          Parse.fail what ⟨t :: k, stop, grouped, depth, faults⟩ := by
        simp [Parse.consume, Parse.accept, Bind.bind, Parse.bind, hk]
      have he' : Parse.consume kind what (x.cursor ⟨t :: k, stop, grouped, depth, faults⟩) =
          Parse.fail what (x.cursor ⟨t :: k, stop, grouped, depth, faults⟩) := by
        simp [Parse.consume, Parse.accept, Bind.bind, Parse.bind, hk, Splice.cursor]
      rw [he, he']
      exact hf
  | nil =>
    by_cases hm : x.more = []
    · have he' : Parse.consume kind what (x.cursor ⟨[], stop, grouped, depth, faults⟩) =
          Parse.fail what (x.cursor ⟨[], stop, grouped, depth, faults⟩) := by
        simp [Parse.consume, Parse.accept, Bind.bind, Parse.bind, Splice.cursor, hm]
      rw [he']
      exact hf
    · exact hf.of_end nofun hm rfl

end Tracks

end Parse

/-! ### Rules around rules -/

/-- An outcome with the state adjusted after a success and after bailing out. -/
def Outcome.adjust (k b : Cursor → Cursor) : Outcome α → Outcome α
  | .ok a c => .ok a (k c)
  | .bail c => .bail (b c)
  | .abort c => .abort c
  | .exhausted => .exhausted

/-- An adjustment of what a comparison of inputs does not look at. -/
structure Splice.Ignores (x : Splice) (k : Cursor → Cursor) : Prop where
  rest : ∀ c, (k c).rest = c.rest
  stop : ∀ c, (k c).stop = c.stop
  faults : ∀ c, (k c).faults = c.faults
  cursor : ∀ c, k (x.cursor c) = x.cursor (k c)

theorem Splice.Ignores.leads {x : Splice} {k : Cursor → Cursor} (h : x.Ignores k) (c : Cursor) :
    c.Leads (k c) :=
  ⟨(h.rest c).symm ▸ List.suffix_rfl, h.stop c, [], h.faults c, by simp⟩

theorem Outcome.Tracks.adjust {x : Splice} {s : Finish} {g : α → β} {c : Cursor} {o : Outcome α}
    {o' : Outcome β} {k b : Cursor → Cursor} (hk : x.Ignores k) (hb : x.Ignores b)
    (h : o.Tracks x s g c o') : (o.adjust k b).Tracks x s g c (o'.adjust k b) := by
  obtain ⟨hf, hs⟩ := h
  cases hs with
  | @ok a c₁ h0 =>
    simp only [Outcome.adjust, hk.cursor]
    exact ⟨hf.trans (hk.leads c₁), .ok h0⟩
  | @early a c₁ _ h0 hm hr =>
    exact ⟨hf.trans (hk.leads c₁), .early h0 hm ((hk.rest c₁).trans hr)⟩
  | @bail c₁ hr hfa =>
    simp only [Outcome.adjust, hb.cursor]
    refine ⟨hf.trans (hb.leads c₁), .bail ?_ ?_⟩
    · rwa [hb.rest]
    · rwa [hb.faults]
  | abort hm => exact ⟨hf, .abort hm⟩
  | lost hl =>
    cases o with
    | ok a c₁ =>
      refine ⟨hf.trans (hk.leads c₁), .lost ?_⟩
      rwa [Outcome.adjust, Outcome.faults, hk.faults]
    | bail c₁ =>
      refine ⟨hf.trans (hb.leads c₁), .lost ?_⟩
      rwa [Outcome.adjust, Outcome.faults, hb.faults]
    | abort c₁ => exact ⟨hf, .lost hl⟩
    | exhausted => exact ⟨trivial, .exhausted⟩
  | exhausted => exact ⟨trivial, .exhausted⟩

/-! Recovery skips the same tokens in both inputs, unless it looks past the last of them. -/

theorem Cursor.skipFrom_map (f : Int → Int) (t : Token) (ts : List Token) :
    Cursor.skipFrom (t.mapLine f) (ts.map (Token.mapLine f)) =
      (Cursor.skipFrom t ts).map (Token.mapLine f) := by
  induction ts generalizing t with
  | nil => rfl
  | cons u ts ih =>
    simp only [Cursor.skipFrom, List.map_cons, ih]
    have hb : Cursor.isBoundary (u.mapLine f) = Cursor.isBoundary u := rfl
    rw [Token.kind_mapLine, hb]
    split
    · rfl
    · rfl

theorem Cursor.skipFrom_append {t : Token} {ts : List Token} (more : List Token)
    (h : ∀ u ∈ (t :: ts).getLast?, u.kind = .semicolon) :
    Cursor.skipFrom t (ts ++ more) = Cursor.skipFrom t ts ++ more := by
  induction ts generalizing t with
  | nil =>
    have ht : t.kind = .semicolon := h t rfl
    cases more with
    | nil => rfl
    | cons u us => simp [Cursor.skipFrom, ht]
  | cons u ts ih =>
    have h' : ∀ v ∈ (u :: ts).getLast?, v.kind = .semicolon := by
      simpa [List.getLast?_cons_cons] using h
    simp only [Cursor.skipFrom, List.cons_append, ih h']
    split
    · rfl
    · rfl

theorem Splice.synchronize_cursor {x : Splice} {c : Cursor} (hs : x.Sees c)
    (hl : x.more ≠ [] → ∀ t ∈ c.rest.getLast?, t.kind = .semicolon) :
    (x.cursor c).synchronize = x.cursor c.synchronize := by
  obtain ⟨rest, stop, grouped, depth, faults⟩ := c
  cases rest with
  | nil => simp [Cursor.synchronize, Splice.cursor, hs.resolve_left (· rfl)]
  | cons t k =>
    have he : Cursor.skipFrom (t.mapLine x.line) (k.map (Token.mapLine x.line) ++ x.more) =
        (Cursor.skipFrom t k).map (Token.mapLine x.line) ++ x.more := by
      rw [← Cursor.skipFrom_map]
      by_cases hm : x.more = []
      · rw [hm, List.append_nil, List.append_nil]
      · refine Cursor.skipFrom_append _ ?_
        rw [← List.map_cons, List.getLast?_map]
        simpa using hl hm
    simp [Cursor.synchronize, Splice.cursor, he]

/-- One round, then the others if it goes on. -/
theorem Parse.iterate_eq (round : α → Parse (Option α)) (budget : List Token) (a : α) :
    iterate round budget a = round a >>= fun o =>
      match o with
      | none => pure a
      | some a' =>
        match budget with
        | [] => fun _ => .exhausted
        | _ :: budget => iterate round budget a' := by
  funext c
  unfold iterate
  change _ = Parse.bind _ _ c
  unfold Parse.bind
  cases round a c with
  | ok o c₁ =>
    cases o with
    | none => rfl
    | some a' => cases budget <;> rfl
  | bail c₁ => rfl
  | abort c₁ => rfl
  | exhausted => rfl

namespace Parse.Tracks

variable {x : Splice} {s : Finish} {g : α → β} {c : Cursor} {p : Parse α} {p' : Parse β}

theorem exhausted : Tracks x s g (fun _ => .exhausted) p' := fun _ _ => ⟨trivial, .exhausted⟩

theorem ignores_depth : x.Ignores fun c => { c with depth := c.depth - 1 } :=
  ⟨fun _ => rfl, fun _ => rfl, fun _ => rfl, fun _ => rfl⟩

theorem ignores_grouped (b : Bool) : x.Ignores fun c => { c with grouped := b } :=
  ⟨fun _ => rfl, fun _ => rfl, fun _ => rfl, fun _ => rfl⟩

/-- One level deeper. Where tokens follow, nesting beyond the limit spoils the comparison. -/
theorem nested (hp : Tracks x s g p p') : Tracks x s g (nested p) (nested p') := by
  intro c hx
  by_cases hd : maxNesting ≤ c.depth
  · have he : Parse.nested p c = .abort (c.report c.peek .tooMuchNesting) := if_pos hd
    rw [he]
    refine ⟨⟨c, .refl c, rfl⟩, ?_⟩
    by_cases hm : x.more = []
    · have he' : Parse.nested p' (x.cursor c) =
          .abort (x.cursor (c.report c.peek .tooMuchNesting)) := by
        have h := Splice.peek_cursor hx (.inr hm)
        exact (if_pos hd).trans (by rw [h]; rfl)
      rw [he']
      exact .abort hm
    · exact .lost ⟨_, List.mem_cons_self, hx.nesting hm _⟩
  · have hn : ∀ {α : Type} (p : Parse α) (c : Cursor), ¬ maxNesting ≤ c.depth →
        Parse.nested p c = (p { c with depth := c.depth + 1 }).adjust
          (fun c => { c with depth := c.depth - 1 }) fun c => { c with depth := c.depth - 1 } := by
      intro α p c hd
      rw [Parse.nested, if_neg hd]
      cases p { c with depth := c.depth + 1 } <;> rfl
    have hc : c.Leads { c with depth := c.depth + 1 } := ⟨List.suffix_rfl, rfl, [], rfl, nofun⟩
    rw [hn p c hd, hn p' (x.cursor c) hd]
    exact ((hp _ (hx.leads hc)).adjust ignores_depth ignores_depth).of_leads hc id fun h _ => .inl h

theorem within (b : Bool) (hp : Tracks x s g p p') : Tracks x s g (within b p) (within b p') := by
  intro c hx
  have hn : ∀ {α : Type} (p : Parse α) (c : Cursor), Parse.within b p c =
      (p { c with grouped := b }).adjust (fun c' => { c' with grouped := c.grouped }) id := by
    intro α p c
    rw [Parse.within]
    cases p { c with grouped := b } <;> rfl
  have hc : c.Leads { c with grouped := b } := ⟨List.suffix_rfl, rfl, [], rfl, nofun⟩
  rw [hn p c, hn p' (x.cursor c)]
  exact ((hp _ (hx.leads hc)).adjust (ignores_grouped c.grouped)
    ⟨fun _ => rfl, fun _ => rfl, fun _ => rfl, fun _ => rfl⟩).of_leads hc id fun h _ => .inl h

/-- Recovery. The last token before those that follow is one at which it stops, or the problem that
called for it has spoilt the comparison. -/
theorem recovering (hp : Tracks x s g p p') :
    Tracks x s (Option.map g) (recovering p) (recovering p') := by
  intro c hx
  have h := hp c hx
  unfold Parse.recovering
  generalize p c = o, p' (x.cursor c) = o' at h
  obtain ⟨hf, hs⟩ := h
  cases hs with
  | ok h0 => exact ⟨hf, .ok h0⟩
  | early h0 hm hr => exact ⟨hf, .early h0 hm hr⟩
  | @bail c₁ hr hfa =>
    have hf' : c.Leads c₁.synchronize := hf.trans (.synchronize c₁)
    refine ⟨hf', ?_⟩
    have hsees : x.Sees c₁ := by
      by_cases hm : x.more = []
      · exact .inr hm
      · exact .inl (hr hm)
    by_cases hl : x.more ≠ [] → ∀ t ∈ c₁.rest.getLast?, t.kind = .semicolon
    · dsimp only
      rw [Splice.synchronize_cursor hsees hl]
      exact .ok fun _ hm h0 => hr hm (hf.nil h0)
    · have hall : ∀ d, x.Spoils d := by
        simp only [Classical.not_forall] at hl
        obtain ⟨hm, t, ht, hk⟩ := hl
        exact ((hx.leads hf).last hm t ht).2.resolve_left hk
      obtain ⟨d, hd⟩ := List.exists_mem_of_ne_nil _ hfa
      obtain ⟨fs, hfs, -⟩ := (Cursor.Leads.synchronize c₁).faults
      refine .lost ⟨d, ?_, hall d⟩
      rw [Outcome.faults, hfs]
      exact List.mem_append_right fs hd
  | abort hm => exact ⟨hf, .abort hm⟩
  | lost hl =>
    cases o with
    | ok a c₁ => exact ⟨hf, .lost hl⟩
    | bail c₁ =>
      obtain ⟨d, hd, hsp⟩ := hl
      obtain ⟨fs, hfs, -⟩ := (Cursor.Leads.synchronize c₁).faults
      refine ⟨hf.trans (.synchronize c₁), .lost ⟨d, ?_, hsp⟩⟩
      rw [Outcome.faults, hfs]
      exact List.mem_append_right fs hd
    | abort c₁ => exact ⟨hf, .lost hl⟩
    | exhausted => exact ⟨trivial, .exhausted⟩
  | exhausted => exact ⟨trivial, .exhausted⟩

/-- Rounds that match, with a budget that is no smaller in the other input. -/
theorem iterate {round : α → Parse (Option α)} {round' : β → Parse (Option β)}
    (hr : ∀ a, Tracks x .loose (Option.map g) (round a) (round' (g a)))
    {budget budget' : List Token} (hb : budget.length ≤ budget'.length) (a : α) :
    Tracks x .loose g (iterate round budget a) (iterate round' budget' (g a)) := by
  induction budget generalizing budget' a with
  | nil =>
    rw [iterate_eq, iterate_eq round']
    refine .bind (hr a) fun o => ?_
    cases o with
    | none => exact .pure a
    | some a' => exact .exhausted
  | cons t budget ih =>
    obtain ⟨t', budget', rfl⟩ : ∃ t' b, budget' = t' :: b := List.exists_cons_of_length_pos
      (Nat.lt_of_lt_of_le (Nat.succ_pos budget.length) hb)
    rw [iterate_eq, iterate_eq round']
    refine .bind (hr a) fun o => ?_
    cases o with
    | none => exact .pure a
    | some a' => exact ih (Nat.le_of_succ_le_succ hb) a'

/-- A repetition stops loosely: its last round has looked at what follows. -/
theorem many {round : α → Parse (Option α)} {round' : β → Parse (Option β)}
    (hr : ∀ a, Tracks x .loose (Option.map g) (round a) (round' (g a))) (a : α) :
    Tracks x .loose g (many round a) (many round' (g a)) :=
  fun c hx => iterate hr (by simp [Splice.cursor]) a c hx

end Parse.Tracks

end Lox
