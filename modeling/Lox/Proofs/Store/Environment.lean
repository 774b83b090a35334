import Lox.Proofs.Store.Chain

/-!
# Frames as chains of finite maps

A frame is a finite map from names to values that is shared by all chains it stands in. Four
operations act on frames: a new one is made, a name is bound in one, and a value is given to a name
that is bound, in the nearest frame or at a distance. Each of them writes at most one name in one
frame, so what it changes can be said for all frames and names at once.
-/

namespace Lox

/-- An operation on the frames of a store. A distance may be negative. -/
inductive FrameOp where
  | new (parent : Option FrameId)
  | define (e : FrameId) (x : Text) (v : Value)
  | assign (e : FrameId) (x : Text) (v : Value)
  | assignAt (e : FrameId) (d : Int) (x : Text) (v : Value)

namespace Store

/-- The store after an operation; nothing if the operation fails. -/
def attempt (s : Store) : FrameOp → Option Store
  | .new parent => some (s.newFrame parent).2
  | .define e x v => some (s.define e x v)
  | .assign e x v => s.assign e x v
  | .assignAt e d x v => s.assignAt e (distance d) x v

/-- The store with which one goes on after an operation. -/
def perform (s : Store) (op : FrameOp) : Store := (s.attempt op).getD s

end Store

namespace FrameOp

/-- The frames that an operation mentions are there. -/
def Mentions (s : Store) : FrameOp → Prop
  | new parent => ∀ p ∈ parent, p < s.frames.size
  | define e _ _ => e < s.frames.size
  | assign e _ _ => e < s.frames.size
  | assignAt e _ _ _ => e < s.frames.size

instance (s : Store) : (op : FrameOp) → Decidable (op.Mentions s)
  | new parent => inferInstanceAs (Decidable (∀ p ∈ parent, p < s.frames.size))
  | define e _ _ => inferInstanceAs (Decidable (e < s.frames.size))
  | assign e _ _ => inferInstanceAs (Decidable (e < s.frames.size))
  | assignAt e _ _ _ => inferInstanceAs (Decidable (e < s.frames.size))

/-- The name that an operation writes and the frame in which it does, if it writes any. -/
def target (s : Store) : FrameOp → Option (FrameId × Text)
  | new _ => none
  | define e x _ => some (e, x)
  | assign e x _ => (s.holder e x).map (·, x)
  | assignAt e d x _ => (s.holderAt e (Store.distance d) x).map (·, x)

/-- The value that an operation writes. -/
def value? : FrameOp → Option Value
  | new _ => none
  | define _ _ v => some v
  | assign _ _ v => some v
  | assignAt _ _ _ v => some v

end FrameOp

namespace Store

variable {s s' later : Store} {op : FrameOp} {e f g : FrameId} {x y : Text} {v : Value} {d : Nat}

/-- A store made by a sequence of operations from an empty one. -/
inductive Assembled : Store → Prop
  | empty : Assembled {}
  | perform {s : Store} {op : FrameOp} : Assembled s → op.Mentions s → Assembled (s.perform op)

/-- A store that differs from another in the value that one frame gives to one name. -/
structure Rebinds (s : Store) (f : FrameId) (x : Text) (v : Value) (s' : Store) : Prop where
  size : s'.frames.size = s.frames.size
  parent : ∀ g, s'.parent? g = s.parent? g
  value : s'.lookup f x = some v
  others : ∀ g y, (g, y) ≠ (f, x) → s'.lookup g y = s.lookup g y

/-- A store that operations have made from another, none of which has written a name in a frame. -/
inductive Spares (f : FrameId) (x : Text) (s : Store) : Store → Prop
  | refl : Spares f x s s
  | perform {later : Store} {op : FrameOp} : Spares f x s later → op.Mentions later →
      op.target later ≠ some (f, x) → Spares f x s (later.perform op)

/-! ### Single operations -/

theorem holderAt_eq_some_iff :
    s.holderAt e d x = some f ↔ s.ancestor e d = some f ∧ s.binds f x = true := by
  unfold holderAt
  rw [Option.filter_eq_some_iff]

theorem holderAt_eq_none_iff : s.holderAt e d x = none ↔ ¬ s.BindsAt e x d := by
  rw [Option.eq_none_iff_forall_ne_some]
  constructor
  · rintro hnone ⟨f, hf⟩
    exact hnone f (holderAt_eq_some_iff.mpr hf)
  · intro hnone f hf
    exact hnone ⟨f, holderAt_eq_some_iff.mp hf⟩

/-- The frame in which a search ends binds the name that was searched. -/
theorem binds_of_holder (h : s.holder e x = some f) : s.binds f x = true := by
  unfold holder at h
  simpa using List.find?_some h

theorem rebinds_define (hf : f < s.frames.size) (x : Text) (v : Value) :
    s.Rebinds f x v (s.define f x v) where
  size := size_define
  parent _ := parent?_define
  value := lookup_define_self hf
  others g y hne := lookup_define_of_ne (by
    by_contra hboth
    push Not at hboth
    exact hne (Prod.ext hboth.1 hboth.2))

/-- An operation that writes binds a name, and one that writes nothing makes at most a frame. -/
theorem perform_eq (s : Store) (op : FrameOp) :
    (∃ parent, op = .new parent ∧ s.perform op = (s.newFrame parent).2) ∨
      (op.target s = none ∧ s.perform op = s) ∨
      ∃ f x v, op.target s = some (f, x) ∧ op.value? = some v ∧ s.perform op = s.define f x v := by
  cases op with
  | new parent => exact .inl ⟨parent, rfl, rfl⟩
  | define e x v => exact .inr (.inr ⟨e, x, v, rfl, rfl, rfl⟩)
  | assign e x v =>
    cases hh : s.holder e x with
    | none =>
      exact .inr (.inl ⟨by simp [FrameOp.target, hh], by simp [perform, attempt, assign, hh]⟩)
    | some f =>
      refine .inr (.inr ⟨f, x, v, by simp [FrameOp.target, hh], rfl, ?_⟩)
      simp [perform, attempt, assign, hh]
  | assignAt e d x v =>
    cases hh : s.holderAt e (distance d) x with
    | none =>
      exact .inr (.inl ⟨by simp [FrameOp.target, hh], by simp [perform, attempt, assignAt, hh]⟩)
    | some f =>
      refine .inr (.inr ⟨f, x, v, by simp [FrameOp.target, hh], rfl, ?_⟩)
      simp [perform, attempt, assignAt, hh]

theorem target_lt (hm : op.Mentions s) (ht : op.target s = some (f, x)) : f < s.frames.size := by
  cases op with
  | new parent => cases ht
  | define e y v =>
    cases ht
    exact hm
  | assign e y v =>
    obtain ⟨g, hg, heq⟩ := Option.map_eq_some_iff.mp ht
    cases heq
    exact lt_of_binds (binds_of_holder hg)
  | assignAt e d y v =>
    obtain ⟨g, hg, heq⟩ := Option.map_eq_some_iff.mp ht
    cases heq
    exact lt_of_binds (holderAt_eq_some_iff.mp hg).2

/-- A frame that has just been made binds nothing, and the others are as they were. -/
theorem lookup_newFrame (s : Store) (parent : Option FrameId) (g : FrameId) (y : Text) :
    (s.newFrame parent).2.lookup g y = s.lookup g y := by
  unfold newFrame lookup
  rw [Array.getElem?_push]
  split
  · next heq =>
    rw [heq, Array.getElem?_eq_none (Nat.le_refl _)]
    rfl
  · rfl

theorem lookup_perform_of_target_ne (ht : op.target s ≠ some (g, y)) :
    (s.perform op).lookup g y = s.lookup g y := by
  rcases perform_eq s op with ⟨parent, rfl, heq⟩ | ⟨-, heq⟩ | ⟨f, x, v, ht', -, heq⟩
  · rw [heq, lookup_newFrame]
  · rw [heq]
  · rw [heq]
    refine lookup_define_of_ne ?_
    by_contra hboth
    push Not at hboth
    exact ht (by rw [ht', hboth.1, hboth.2])

/-- An operation gives its value to its target and changes no other name of any frame. -/
theorem lookup_perform (hm : op.Mentions s) (g : FrameId) (y : Text) :
    (s.perform op).lookup g y =
      if op.target s = some (g, y) then op.value? else s.lookup g y := by
  split
  · next ht =>
    rcases perform_eq s op with ⟨parent, rfl, -⟩ | ⟨hnone, -⟩ | ⟨f, x, v, ht', hv, heq⟩
    · cases ht
    · rw [hnone] at ht
      cases ht
    · rw [ht'] at ht
      cases ht
      rw [heq, hv]
      exact lookup_define_self (target_lt hm ht')
  · next ht => exact lookup_perform_of_target_ne ht

/-- A name is bound before a value is assigned to it, so only definitions bind names. -/
theorem binds_of_target (hop : ∀ e x v, op ≠ .define e x v) (ht : op.target s = some (f, x)) :
    s.binds f x = true := by
  cases op with
  | new parent => cases ht
  | define e y v => exact absurd rfl (hop e y v)
  | assign e y v =>
    obtain ⟨g, hg, heq⟩ := Option.map_eq_some_iff.mp ht
    cases heq
    exact binds_of_holder hg
  | assignAt e d y v =>
    obtain ⟨g, hg, heq⟩ := Option.map_eq_some_iff.mp ht
    cases heq
    exact (holderAt_eq_some_iff.mp hg).2

theorem binds_perform (hop : ∀ e x v, op ≠ .define e x v) (g : FrameId) (y : Text) :
    (s.perform op).binds g y = s.binds g y := by
  by_cases ht : op.target s = some (g, y)
  · have hbinds := binds_of_target hop ht
    rcases perform_eq s op with ⟨parent, rfl, -⟩ | ⟨hnone, -⟩ | ⟨f, x, v, ht', -, heq⟩
    · cases ht
    · rw [hnone] at ht
      cases ht
    · rw [heq, hbinds]
      exact binds_define hbinds
  · unfold binds
    rw [lookup_perform_of_target_ne ht]

/-! ### Sequences of operations -/

theorem nested_empty : ({} : Store).Nested := by
  intro e p hp
  simp [parent?] at hp

theorem Nested.define (h : s.Nested) (e : FrameId) (x : Text) (v : Value) :
    (s.define e x v).Nested := fun e' p hp => h e' p (parent?_define ▸ hp)

theorem Nested.newFrame (h : s.Nested) {parent : Option FrameId}
    (hp : ∀ p ∈ parent, p < s.frames.size) : (s.newFrame parent).2.Nested := by
  intro e p he
  unfold Store.newFrame parent? at he
  rw [Array.getElem?_push] at he
  split at he
  · next heq =>
    rw [heq]
    exact hp p he
  · exact h e p he

theorem Nested.perform (h : s.Nested) (hm : op.Mentions s) : (s.perform op).Nested := by
  rcases perform_eq s op with ⟨parent, rfl, heq⟩ | ⟨-, heq⟩ | ⟨f, x, v, -, -, heq⟩
  · rw [heq]
    exact h.newFrame hm
  · rw [heq]
    exact h
  · rw [heq]
    exact h.define f x v

theorem Assembled.nested (h : s.Assembled) : s.Nested := by
  induction h with
  | empty => exact nested_empty
  | perform _ hm ih => exact ih.perform hm

namespace Spares

theorem nested (h : Spares f x s later) (hs : s.Nested) : later.Nested := by
  induction h with
  | refl => exact hs
  | perform _ hm _ ih => exact ih.perform hm

/-- A value stays until it is written again. -/
theorem lookup (h : Spares f x s later) : later.lookup f x = s.lookup f x := by
  induction h with
  | refl => rfl
  | perform _ _ ht ih => rw [lookup_perform_of_target_ne ht, ih]

end Spares

/-! ### Reading and writing through chains -/

theorem Nested.get_eq_some_iff (h : s.Nested) :
    s.get e x = some v ↔ ∃ d f, s.NearestBinding e x d f ∧ s.getAt e d x = some v := by
  rw [get_eq_bind_holder, Option.bind_eq_some_iff]
  constructor
  · rintro ⟨f, hf, hv⟩
    obtain ⟨d, hd⟩ := h.holder_eq_some_iff.mp hf
    refine ⟨d, f, hd, ?_⟩
    rw [getAt, hd.frame]
    exact hv
  · rintro ⟨d, f, hd, hv⟩
    rw [getAt, hd.frame] at hv
    exact ⟨f, h.holder_eq_some_iff.mpr ⟨d, hd⟩, hv⟩

theorem Nested.get_eq_none_iff (h : s.Nested) :
    s.get e x = none ↔ ∀ d, ¬ s.BindsAt e x d := by
  rw [← h.holder_eq_none_iff, get_eq_bind_holder]
  cases hh : s.holder e x with
  | none => simp
  | some f =>
    obtain ⟨v, hv⟩ := binds_iff_exists_lookup.mp (binds_of_holder hh)
    simp [hv]

/-- An assignment gives the value to the nearest binding, and from then on the value is read
wherever that binding is the nearest. -/
theorem Nested.assign (h : s.Nested) (ha : s.assign e x v = some s') :
    ∃ d f, s.NearestBinding e x d f ∧ s.Rebinds f x v s' ∧
      ∀ later, Spares f x s' later → ∀ e' d', later.NearestBinding e' x d' f →
        later.get e' x = some v := by
  obtain ⟨f, hf, rfl⟩ := Option.map_eq_some_iff.mp ha
  obtain ⟨d, hd⟩ := h.holder_eq_some_iff.mp hf
  have hrebinds := rebinds_define (lt_of_binds hd.binds) x v
  refine ⟨d, f, hd, hrebinds, fun later hlater e' d' hd' => ?_⟩
  have hnested := hlater.nested (h.define f x v)
  rw [hnested.get_of_nearestBinding hd', hlater.lookup, hrebinds.value]

theorem assignAt_eq_some (ha : s.assignAt e d x v = some s') :
    ∃ f, s.ancestor e d = some f ∧ s.binds f x = true ∧ s.Rebinds f x v s' := by
  obtain ⟨f, hf, rfl⟩ := Option.map_eq_some_iff.mp ha
  obtain ⟨hframe, hbinds⟩ := holderAt_eq_some_iff.mp hf
  exact ⟨f, hframe, hbinds, rebinds_define (lt_of_binds hbinds) x v⟩

/-- The frames of a store that operations have made act as chains of finite maps. A name is read at
the least distance at which it is bound and nowhere else; the root is the frame of the chain without
a parent; an assignment changes one value in one frame, which is then read from wherever that frame
is the nearest to bind the name, or fails and changes nothing; and only definitions bind names. -/
theorem Assembled.acts_as_maps (h : s.Assembled) (e : FrameId) (x : Text) :
    (∀ v, s.get e x = some v ↔ ∃ d f, s.NearestBinding e x d f ∧ s.getAt e d x = some v) ∧
      (s.get e x = none ↔ ∀ d, ¬ s.BindsAt e x d) ∧
      (∀ r, r = s.root e ↔ (∃ d, s.ancestor e d = some r) ∧ s.parent? r = none) ∧
      (∀ v s', s.assign e x v = some s' → ∃ d f, s.NearestBinding e x d f ∧ s.Rebinds f x v s' ∧
        ∀ later, Spares f x s' later → ∀ e' d', later.NearestBinding e' x d' f →
          later.get e' x = some v) ∧
      (∀ v, s.assign e x v = none ↔ ∀ d, ¬ s.BindsAt e x d) ∧
      (∀ (d : Int) v s', s.assignAt e (distance d) x v = some s' → ∃ f,
        s.ancestor e (distance d) = some f ∧ s.binds f x = true ∧ s.Rebinds f x v s') ∧
      (∀ (d : Int) v, s.assignAt e (distance d) x v = none ↔ ¬ s.BindsAt e x (distance d)) ∧
      (∀ op, op.Mentions s → ∀ g y, (s.perform op).lookup g y =
        if op.target s = some (g, y) then op.value? else s.lookup g y) ∧
      (∀ op, s.attempt op = none → s.perform op = s) ∧
      (∀ op, (∀ e x v, op ≠ .define e x v) → ∀ g y, (s.perform op).binds g y = s.binds g y) := by
  have hn := h.nested
  refine ⟨fun v => hn.get_eq_some_iff, hn.get_eq_none_iff, fun r => hn.eq_root_iff,
    fun v s' => hn.assign, fun v => ?_, fun d v s' => assignAt_eq_some, fun d v => ?_,
    fun op hm => lookup_perform hm, fun op hop => ?_, fun op hop => binds_perform hop⟩
  · rw [← hn.holder_eq_none_iff, Store.assign, Option.map_eq_none_iff]
  · rw [← holderAt_eq_none_iff, Store.assignAt, Option.map_eq_none_iff]
  · rw [Store.perform, hop, Option.getD_none]

/-- A name is bound in a frame and again in a child of it. An assignment from a grandchild is seen
from a frame that is made later, and not past the other binding. -/
theorem Assembled.acts_as_maps_shadowed :
    let binding := (({} : Store).perform (.new none)).perform (.define 0 "a" .nil)
    let shadowing := (binding.perform (.new (some 0))).perform (.define 1 "a" (.bool false))
    let s := (shadowing.perform (.new (some 0))).perform (.new (some 2))
    s.Assembled ∧ ∃ s', s.assign 3 "a" (.bool true) = some s' ∧
      (s'.perform (.new (some 2))).get 4 "a" = some (.bool true) ∧
      s'.lookup 1 "a" = some (.bool false) := by
  intro binding shadowing s
  have hbinding : binding.Assembled :=
    .perform (.perform .empty (by decide)) (by decide)
  have hshadowing : shadowing.Assembled := .perform (.perform hbinding (by decide)) (by decide)
  have h : s.Assembled := .perform (.perform hshadowing (by decide)) (by decide)
  obtain ⟨-, -, -, hassign, -⟩ := h.acts_as_maps 3 "a"
  have heq : s.assign 3 "a" (.bool true) = some (s.define 0 "a" (.bool true)) := rfl
  obtain ⟨d, f, hd, hrebinds, hlater⟩ := hassign _ _ heq
  obtain rfl : f = 0 := by
    have hholder := h.nested.holder_eq_some_iff.mpr ⟨d, hd⟩
    exact (Option.some.inj hholder).symm
  refine ⟨h, _, heq, hlater _ (.perform .refl ?_ ?_) 4 2 ⟨rfl, rfl, ?_⟩, hrebinds.others 1 "a" ?_⟩
  · decide
  · decide
  · rintro d' hlt ⟨f, hf, hbinds⟩
    interval_cases d' <;> (cases hf; cases hbinds)
  · decide

end Store

end Lox
