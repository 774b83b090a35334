import Lox.Proofs.Store.Order

/-!
# Changes to stores

Whatever a run does to its store is a sequence of a few changes: a name is bound, a frame, a class
or an instance is created, a field is set. What such a sequence does to the links between frames and
between classes, and which names it can bind in frames that were there before, is said here once for
all of them.
-/

namespace Lox

namespace Store

variable {D : FrameId → Text → Prop} {s s' : Store} {tops : List Bool}

/-- A store has come out of another by a sequence of changes. Among the frames that were there
before, names are bound anew only where `D` allows it; `tops` says of each frame that has been
created, in order, whether it has no parent. If all was in order before, a new class inherits from
one that is there. -/
inductive Changes (D : FrameId → Text → Prop) (s : Store) : List Bool → Store → Prop
  | refl : Changes D s [] s
  | define {tops : List Bool} {s' : Store} {e : FrameId} {x : Text} (v : Value) :
      Changes D s tops s' → (e < s.frames.size → s.binds e x ∨ D e x) →
      Changes D s tops (s'.define e x v)
  | newFrame {tops : List Bool} {s' : Store} (parent : Option FrameId) : Changes D s tops s' →
      Changes D s (tops ++ [parent.isNone]) (s'.newFrame parent).2
  | newClass {tops : List Bool} {s' : Store} {superclass : Option ClassId} (name : Text)
      (methods : Table Closure) : Changes D s tops s' →
      (s.Ordered → ∀ c : Nat, superclass = some c → c < s'.classes.size) →
      Changes D s tops (s'.newClass name superclass methods).2
  | newInstance {tops : List Bool} {s' : Store} (c : ClassId) : Changes D s tops s' →
      Changes D s tops (s'.newInstance c).2
  | setClassField {tops : List Bool} {s' : Store} (c : ClassId) (x : Text) (v : Value) :
      Changes D s tops s' → Changes D s tops (s'.setClassField c x v)
  | setInstanceField {tops : List Bool} {s' : Store} (i : InstanceId) (x : Text) (v : Value) :
      Changes D s tops s' → Changes D s tops (s'.setInstanceField i x v)

/-! ### Names -/

theorem binds_newFrame {parent : Option FrameId} {e : FrameId} {x : Text} :
    (s.newFrame parent).2.binds e x = s.binds e x := by
  unfold newFrame binds lookup
  dsimp only
  rw [Array.getElem?_push]
  split
  · next he =>
    rw [he, Array.getElem?_eq_none (Nat.le_refl _)]
    rfl
  · rfl

theorem eq_or_binds_of_binds_define {e e' : FrameId} {x y : Text} {v : Value}
    (h : (s.define e x v).binds e' y) : e' = e ∧ y = x ∨ s.binds e' y := by
  by_cases heq : e' = e ∧ y = x
  · exact .inl heq
  · refine .inr ?_
    unfold binds at h ⊢
    rwa [lookup_define_of_ne (Decidable.not_and_iff_or_not.mp heq)] at h

namespace Changes

theorem grown (h : s.Changes D tops s') : s.Extends s' := by
  induction h with
  | refl => exact .refl s
  | define v _ _ ih => exact ih.trans (.define _ _ _ _)
  | newFrame parent _ ih => exact ih.trans (.newFrame _ parent)
  | newClass name methods _ _ ih => exact ih.trans (.of_frames_eq (frames_newClass _ _ _ _))
  | _ => next ih => exact ih.trans (.of_frames_eq rfl)

/-- A name that a frame from before binds was bound there before, or may be new there. -/
theorem binds (h : s.Changes D tops s') {e : FrameId} {x : Text} (he : e < s.frames.size)
    (hx : s'.binds e x) : s.binds e x ∨ D e x := by
  induction h with
  | refl => exact .inl hx
  | define v _ hallowed ih =>
    rcases eq_or_binds_of_binds_define hx with ⟨rfl, rfl⟩ | hx
    · exact hallowed he
    · exact ih hx
  | newFrame parent _ ih =>
    rw [binds_newFrame] at hx
    exact ih hx
  | newClass name methods _ _ ih =>
    refine ih ?_
    unfold Store.binds Store.lookup at hx ⊢
    rwa [frames_newClass] at hx
  | _ => next ih => exact ih hx

/-- A new frame may bind anything. -/
theorem defineAll {e : FrameId} (he : s.frames.size ≤ e) (bindings : List (Text × Value))
    (h : s.Changes D tops s') : s.Changes D tops (s'.defineAll e bindings) := by
  induction bindings generalizing s' with
  | nil => exact h
  | cons b bindings ih => exact ih (h.define b.2 fun hlt => absurd hlt (Nat.not_lt.mpr he))

theorem newFrameWith (parent : Option FrameId) (bindings : List (Text × Value))
    (h : s.Changes D tops s') :
    s.Changes D (tops ++ [parent.isNone]) (s'.newFrameWith parent bindings).2 :=
  (h.newFrame parent).defineAll h.grown.size bindings

end Changes

/-! ### Links -/

/-- The frame around each frame, oldest first. -/
def parents (s : Store) : List (Option FrameId) := s.frames.toList.map Frame.parent

/-- The superclass and the metaclass of each class, oldest first. -/
def links (s : Store) : List (Option ClassId × Option ClassId) :=
  s.classes.toList.map fun info => (info.superclass, info.metaclass)

theorem getElem?_parents (s : Store) (e : FrameId) :
    s.parents[e]? = s.frames[e]?.map Frame.parent := by
  simp [parents]

theorem parent?_eq (s : Store) (e : FrameId) : s.parent? e = s.parents[e]?.join := by
  rw [getElem?_parents]
  unfold parent?
  cases s.frames[e]? <;> rfl

theorem getElem?_links (s : Store) (c : ClassId) :
    s.links[c]? = s.classes[c]?.map fun info => (info.superclass, info.metaclass) := by
  simp [links]

theorem length_links (s : Store) : s.links.length = s.classes.size := by
  simp [links]

theorem length_parents (s : Store) : s.parents.length = s.frames.size := by
  simp [parents]

theorem parents_define (s : Store) (e : FrameId) (x : Text) (v : Value) :
    (s.define e x v).parents = s.parents := by
  apply List.ext_getElem?
  intro i
  rw [getElem?_parents, getElem?_parents]
  unfold define
  rw [Array.getElem?_modify]
  split <;> cases s.frames[i]? <;> rfl

theorem parents_newFrame (s : Store) (parent : Option FrameId) :
    (s.newFrame parent).2.parents = s.parents ++ [parent] := by
  simp [newFrame, parents]

theorem links_setClassField (s : Store) (c : ClassId) (x : Text) (v : Value) :
    (s.setClassField c x v).links = s.links := by
  apply List.ext_getElem?
  intro i
  rw [getElem?_links, getElem?_links]
  unfold setClassField
  rw [Array.getElem?_modify]
  split <;> cases s.classes[i]? <;> rfl

/-- The metaclass of the superclass of a class. -/
def superMeta (links : List (Option ClassId × Option ClassId)) (superclass : Option ClassId) :
    Option ClassId :=
  (superclass.bind (links[·]?)).bind Prod.snd

theorem superMeta_links (s : Store) (superclass : Option ClassId) :
    superMeta s.links superclass =
      (superclass.bind (s.classes[·]?)).bind ClassInfo.metaclass := by
  unfold superMeta
  cases superclass with
  | none => rfl
  | some c =>
    simp only [Option.bind_some, getElem?_links]
    cases s.classes[c]? <;> rfl

/-- A new class is linked to its superclass, and to a metaclass of its own if it has one. -/
theorem links_newClass (s : Store) (name : Text) (superclass : Option ClassId)
    (methods : Table Closure) :
    (s.newClass name superclass methods).2.links = s.links ++ [(superclass, none)] ∨
      (s.newClass name superclass methods).2.links =
        s.links ++ [(superMeta s.links superclass, none), (superclass, some s.links.length)] := by
  rw [superMeta_links, length_links]
  unfold newClass
  dsimp only
  split
  · exact .inl (by simp [links])
  · exact .inr (by simp [links])

/-- Classes are younger than what they are linked to, and a metaclass inherits from the metaclass of
the superclass. -/
def Lineage (links : List (Option ClassId × Option ClassId)) : Prop :=
  ∀ (c : Nat) superclass metaclass, links[c]? = some (superclass, metaclass) →
    (∀ d : Nat, superclass = some d → d < c) ∧
      ∀ m : Nat, metaclass = some m → m < c ∧
        links[m]?.map Prod.fst = some (superMeta links superclass)

namespace Lineage

variable {links : List (Option ClassId × Option ClassId)} {superclass : Option ClassId}

theorem superMeta_append {more : List (Option ClassId × Option ClassId)}
    (h : ∀ d : Nat, superclass = some d → d < links.length) :
    superMeta (links ++ more) superclass = superMeta links superclass := by
  cases superclass with
  | none => rfl
  | some d =>
    unfold superMeta
    rw [Option.bind_some, Option.bind_some, List.getElem?_append_left (h d rfl)]

/-- What is added does not disturb what is there. -/
theorem old {more : List (Option ClassId × Option ClassId)} (h : Lineage links) {c : Nat}
    {superclass metaclass : Option ClassId} (hlt : c < links.length)
    (hc : (links ++ more)[c]? = some (superclass, metaclass)) :
    (∀ d : Nat, superclass = some d → d < c) ∧
      ∀ m : Nat, metaclass = some m → m < c ∧
        (links ++ more)[m]?.map Prod.fst = some (superMeta (links ++ more) superclass) := by
  rw [List.getElem?_append_left hlt] at hc
  obtain ⟨hsuper, hmeta⟩ := h c superclass metaclass hc
  refine ⟨hsuper, fun m hm => ?_⟩
  obtain ⟨hmc, hfst⟩ := hmeta m hm
  have hbelow : ∀ d : Nat, superclass = some d → d < links.length := by
    intro d hd
    exact Nat.lt_trans (hsuper d hd) hlt
  refine ⟨hmc, ?_⟩
  rw [superMeta_append hbelow, List.getElem?_append_left (Nat.lt_trans hmc hlt)]
  exact hfst

/-- A class without a metaclass. -/
theorem push (h : Lineage links) (hs : ∀ d : Nat, superclass = some d → d < links.length) :
    Lineage (links ++ [(superclass, none)]) := by
  intro c superclass' metaclass' hc
  by_cases hlt : c < links.length
  · exact h.old hlt hc
  · have heq : c = links.length := by
      have := (List.getElem?_eq_some_iff.mp hc).1
      simp at this
      omega
    subst heq
    rw [List.getElem?_append_right (Nat.le_refl _)] at hc
    simp only [Nat.sub_self, List.getElem?_cons_zero, Option.some.injEq, Prod.mk.injEq] at hc
    obtain ⟨rfl, rfl⟩ := hc
    exact ⟨hs, by rintro m ⟨⟩⟩

theorem superMeta_lt (h : Lineage links) {d : Nat} (hd : superMeta links superclass = some d) :
    d < links.length := by
  obtain ⟨⟨above, metaclass⟩, hlink, rfl⟩ := Option.bind_eq_some_iff.mp hd
  obtain ⟨c, -, hc⟩ := Option.bind_eq_some_iff.mp hlink
  have hlt := (List.getElem?_eq_some_iff.mp hc).1
  exact Nat.lt_trans ((h c above _ hc).2 d rfl).1 hlt

/-- A class after its metaclass. -/
theorem pushPair (h : Lineage links) (hs : ∀ d : Nat, superclass = some d → d < links.length) :
    Lineage (links ++ [(superMeta links superclass, none), (superclass, some links.length)]) := by
  have hfirst : Lineage (links ++ [(superMeta links superclass, none)]) :=
    h.push fun d hd => h.superMeta_lt hd
  have hsplit : links ++ [(superMeta links superclass, none), (superclass, some links.length)] =
      links ++ [(superMeta links superclass, none)] ++ [(superclass, some links.length)] := by
    simp
  intro c superclass' metaclass' hc
  by_cases hlt : c < links.length + 1
  · rw [hsplit] at hc ⊢
    exact hfirst.old (by simpa using hlt) hc
  · have heq : c = links.length + 1 := by
      have := (List.getElem?_eq_some_iff.mp hc).1
      simp at this
      omega
    subst heq
    rw [List.getElem?_append_right (by omega)] at hc
    simp only [Nat.add_sub_cancel_left, List.getElem?_cons_succ, List.getElem?_cons_zero,
      Option.some.injEq, Prod.mk.injEq] at hc
    obtain ⟨rfl, rfl⟩ := hc
    refine ⟨fun d hd => Nat.lt_succ_of_lt (hs d hd), ?_⟩
    rintro m ⟨⟩
    refine ⟨Nat.lt_succ_self _, ?_⟩
    rw [superMeta_append hs, List.getElem?_append_right (Nat.le_refl _)]
    simp

end Lineage

namespace Changes

/-- Parents never change, and each new frame has one or not as is said. -/
theorem parents (h : s.Changes D tops s') :
    ∃ new : List (Option FrameId),
      s'.parents = s.parents ++ new ∧ new.map Option.isNone = tops := by
  induction h with
  | refl => exact ⟨[], (List.append_nil _).symm, rfl⟩
  | define v _ _ ih =>
    rw [parents_define]
    exact ih
  | @newFrame tops s' parent _ ih =>
    obtain ⟨new, hnew, htops⟩ := ih
    refine ⟨new ++ [parent], ?_, ?_⟩
    · rw [parents_newFrame, hnew, List.append_assoc]
    · rw [List.map_append, htops]
      rfl
  | newClass name methods _ _ ih =>
    unfold Store.parents
    rw [frames_newClass]
    exact ih
  | _ => next ih => exact ih

/-- Superclasses and metaclasses never change. -/
theorem links (h : s.Changes D tops s') : s.links <+: s'.links := by
  induction h with
  | refl => exact List.prefix_refl _
  | setClassField c x v _ ih =>
    rw [links_setClassField]
    exact ih
  | @newClass _ s' superclass name methods _ _ ih =>
    rcases links_newClass s' name superclass methods with heq | heq
    · rw [heq]
      exact ih.trans (List.prefix_append _ _)
    · rw [heq]
      exact ih.trans (List.prefix_append _ _)
  | _ => next ih => exact ih

theorem lineage (h : s.Changes D tops s') (ho : s.Ordered) (hs : Lineage s.links) :
    Lineage s'.links := by
  induction h with
  | refl => exact hs
  | setClassField c x v _ ih =>
    rw [links_setClassField]
    exact ih
  | @newClass _ s' superclass name methods _ hlt ih =>
    have hbelow := hlt ho
    rw [← length_links] at hbelow
    rcases links_newClass s' name superclass methods with heq | heq
    · rw [heq]
      exact ih.push hbelow
    · rw [heq]
      exact ih.pushPair hbelow
  | _ => next ih => exact ih

end Changes

end Store

end Lox
