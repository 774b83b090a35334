import Lox.Proofs.Store.Growth

/-!
# Order in stores

Whatever is in a store refers to something in the same store. Frames are created after their
parents and classes after their superclasses, so searches that follow these come to an end within
the bounds that the number of a frame or class gives.
-/

namespace Lox

/-- What a class refers to is older than the class. -/
def ClassInfo.Follows (info : ClassInfo) (c : Nat) : Prop :=
  (∀ d : Nat, info.superclass = some d → d < c) ∧ ∀ d : Nat, info.metaclass = some d → d < c

namespace Store

variable {s s' s'' : Store} {e c : Nat} {x : Text} {v : Value}

/-- Whether what a value refers to is in a store. -/
def Has (s : Store) : Value → Prop
  | .function closure => closure.frame < s.frames.size
  | .classRef c => c < s.classes.size
  | .instanceRef i => i < s.instances.size
  | .moduleRef m => m.globals < s.frames.size
  | _ => True

/-- Whether the frame of a method is in a store. -/
def HasMethod (s : Store) (m : Closure) : Prop := m.frame < s.frames.size

/-- A store that is at least as large. -/
structure Grows (s s' : Store) : Prop where
  frames : s.frames.size ≤ s'.frames.size
  classes : s.classes.size ≤ s'.classes.size
  instances : s.instances.size ≤ s'.instances.size

theorem Grows.refl (s : Store) : s.Grows s := ⟨Nat.le_refl _, Nat.le_refl _, Nat.le_refl _⟩

theorem Grows.trans (h : s.Grows s') (h' : s'.Grows s'') : s.Grows s'' :=
  ⟨Nat.le_trans h.frames h'.frames, Nat.le_trans h.classes h'.classes,
    Nat.le_trans h.instances h'.instances⟩

theorem Has.mono (hv : s.Has v) (h : s.Grows s') : s'.Has v := by
  cases v with
  | function closure => exact Nat.lt_of_lt_of_le hv h.frames
  | classRef c => exact Nat.lt_of_lt_of_le hv h.classes
  | instanceRef i => exact Nat.lt_of_lt_of_le hv h.instances
  | moduleRef m => exact Nat.lt_of_lt_of_le hv h.frames
  | _ => trivial

/-! ### How stores grow -/

theorem grows_define (s : Store) (e : FrameId) (x : Text) (v : Value) :
    s.Grows (s.define e x v) :=
  ⟨Nat.le_of_eq size_define.symm, Nat.le_refl _, Nat.le_refl _⟩

theorem grows_defineAll (s : Store) (e : FrameId) (bindings : List (Text × Value)) :
    s.Grows (s.defineAll e bindings) := by
  induction bindings generalizing s with
  | nil => exact .refl s
  | cons b bindings ih => exact (grows_define s e b.1 b.2).trans (ih _)

theorem grows_newFrame (s : Store) (parent : Option FrameId) : s.Grows (s.newFrame parent).2 :=
  ⟨by simp, Nat.le_refl _, Nat.le_refl _⟩

theorem grows_newFrameWith (s : Store) (parent : Option FrameId)
    (bindings : List (Text × Value)) : s.Grows (s.newFrameWith parent bindings).2 :=
  (grows_newFrame s parent).trans (grows_defineAll _ _ _)

theorem grows_newInstance (s : Store) (c : ClassId) : s.Grows (s.newInstance c).2 :=
  ⟨Nat.le_refl _, Nat.le_refl _, by simp [newInstance]⟩

theorem newClass_fst_lt (s : Store) (name : Text) (superclass : Option ClassId)
    (methods : Table Closure) :
    (s.newClass name superclass methods).1 <
      (s.newClass name superclass methods).2.classes.size := by
  unfold newClass
  dsimp only
  split <;> simp

theorem grows_newClass (s : Store) (name : Text) (superclass : Option ClassId)
    (methods : Table Closure) : s.Grows (s.newClass name superclass methods).2 := by
  unfold newClass
  dsimp only
  split
  · exact ⟨Nat.le_refl _, by simp, Nat.le_refl _⟩
  · refine ⟨Nat.le_refl _, ?_, Nat.le_refl _⟩
    simp only [Array.size_push]
    omega

theorem grows_setClassField (s : Store) (c : ClassId) (x : Text) (v : Value) :
    s.Grows (s.setClassField c x v) :=
  ⟨Nat.le_refl _, by simp [setClassField], Nat.le_refl _⟩

theorem grows_setInstanceField (s : Store) (i : InstanceId) (x : Text) (v : Value) :
    s.Grows (s.setInstanceField i x v) :=
  ⟨Nat.le_refl _, Nat.le_refl _, by simp [setInstanceField]⟩

/-! ### Classes in order -/

/-- Every class is younger than its superclass and its metaclass. -/
def Ranked (s : Store) : Prop :=
  ∀ (c : ClassId) info, s.classes[c]? = some info → info.Follows c

namespace Ranked

/-- One more class, given what it refers to. -/
theorem push (h : s.Ranked) {info : ClassInfo} (hi : info.Follows s.classes.size) :
    { s with classes := s.classes.push info }.Ranked := by
  intro c info' hc
  rw [Array.getElem?_push] at hc
  split at hc
  · next heq =>
    cases hc
    rw [heq]
    exact hi
  · exact h c info' hc

/-- The metaclass of a superclass is older than any new class. -/
theorem superMeta_lt (h : s.Ranked) {superclass : Option ClassId} {d : Nat}
    (hd : (superclass.bind (s.classes[·]?)).bind ClassInfo.metaclass = some d) :
    d < s.classes.size := by
  obtain ⟨info, hinfo, hd⟩ := Option.bind_eq_some_iff.mp hd
  obtain ⟨c, -, hc⟩ := Option.bind_eq_some_iff.mp hinfo
  obtain ⟨hlt, -⟩ := Array.getElem?_eq_some_iff.mp hc
  exact Nat.lt_trans ((h c info hc).2 d hd) hlt

/-- A search along the superclasses ends within the number of its first class. -/
theorem findMethodFrom_eq (h : s.Ranked) {bound : Nat} (hb : c ≤ bound) :
    s.findMethodFrom x bound c = s.findMethod c x := by
  unfold findMethod
  induction c using Nat.strongRecOn generalizing bound with
  | ind c ih =>
    cases hc : s.classes[c]? with
    | none => cases bound <;> cases c <;> simp [findMethodFrom, hc]
    | some info =>
      cases hs : info.superclass with
      | none =>
        cases hm : info.methods.find? x <;> cases bound <;> cases c <;>
          simp [findMethodFrom, hc, hs, hm]
      | some d =>
        have hlt := (h c info hc).1 d hs
        obtain ⟨b, rfl⟩ : ∃ b, bound = b + 1 := ⟨bound - 1, by omega⟩
        obtain ⟨c, rfl⟩ : ∃ k, c = k + 1 := ⟨c - 1, by omega⟩
        have hdc := Nat.le_of_lt_succ hlt
        simp only [findMethodFrom, hc, hs, Option.bind_some]
        rw [ih d hlt (Nat.le_trans hdc (Nat.le_of_succ_le_succ hb)), ih d hlt hdc]

theorem findMethod_eq (h : s.Ranked) (c : ClassId) (x : Text) :
    s.findMethod c x = s.classes[c]?.bind fun info =>
      (info.methods.find? x).or (info.superclass.bind (s.findMethod · x)) := by
  rw [← h.findMethodFrom_eq (Nat.le_succ c)]
  unfold findMethodFrom
  cases hc : s.classes[c]? with
  | none => rfl
  | some info =>
    dsimp only [Option.bind_some]
    cases info.methods.find? x with
    | some method => rfl
    | none =>
      cases hs : info.superclass with
      | none => rfl
      | some d => exact h.findMethodFrom_eq (Nat.le_of_lt ((h c info hc).1 d hs))

end Ranked

/-! ### Chains of frames -/

/-- Frames are younger than the frames around them. -/
def Nested (s : Store) : Prop := ∀ e p : Nat, s.parent? e = some p → p < e

namespace Nested

/-- A chain of frames ends within the number of its first frame. -/
theorem chainFrom_eq (h : s.Nested) {bound : Nat} (hb : e ≤ bound) :
    s.chainFrom bound e = s.chain e := by
  unfold chain
  induction e using Nat.strongRecOn generalizing bound with
  | ind e ih =>
    cases hp : s.parent? e with
    | none => cases bound <;> cases e <;> simp [chainFrom, hp]
    | some p =>
      have hlt := h e p hp
      obtain ⟨b, rfl⟩ : ∃ b, bound = b + 1 := ⟨bound - 1, by omega⟩
      obtain ⟨e, rfl⟩ : ∃ k, e = k + 1 := ⟨e - 1, by omega⟩
      have hpe := Nat.le_of_lt_succ hlt
      simp only [chainFrom, hp]
      rw [ih p hlt (Nat.le_trans hpe (Nat.le_of_succ_le_succ hb)), ih p hlt hpe]

theorem rootFrom_eq (h : s.Nested) {bound : Nat} (hb : e ≤ bound) :
    s.rootFrom bound e = s.root e := by
  unfold root
  induction e using Nat.strongRecOn generalizing bound with
  | ind e ih =>
    cases hp : s.parent? e with
    | none => cases bound <;> cases e <;> simp [rootFrom, hp]
    | some p =>
      have hlt := h e p hp
      obtain ⟨b, rfl⟩ : ∃ b, bound = b + 1 := ⟨bound - 1, by omega⟩
      obtain ⟨e, rfl⟩ : ∃ k, e = k + 1 := ⟨e - 1, by omega⟩
      have hpe := Nat.le_of_lt_succ hlt
      simp only [rootFrom, hp]
      rw [ih p hlt (Nat.le_trans hpe (Nat.le_of_succ_le_succ hb)), ih p hlt hpe]

end Nested

/-! ### Stores in order -/

/-- Everything in a store refers to something in it; parents are older than their children and
superclasses older than their subclasses. -/
structure Ordered (s : Store) : Prop where
  parent : ∀ e p : Nat, s.parent? e = some p → p < e
  classes : s.Ranked
  instances : ∀ (i : InstanceId) info, s.instances[i]? = some info →
    info.classId < s.classes.size
  contents : s.All s.Has s.HasMethod

theorem ordered_empty : ({} : Store).Ordered :=
  ⟨by simp [parent?], by simp [Ranked], by simp, .empty⟩

namespace Ordered

theorem nested (h : s.Ordered) : s.Nested := h.parent

theorem grown (h : s.Ordered) (hg : s.Grows s') : s.All s'.Has s'.HasMethod :=
  h.contents.mono (fun _ hv => hv.mono hg) fun _ hm => Nat.lt_of_lt_of_le hm hg.frames

theorem define (h : s.Ordered) (e : FrameId) (x : Text) (hv : s.Has v) :
    (s.define e x v).Ordered where
  parent e' p hp := h.parent e' p (parent?_define ▸ hp)
  classes := h.classes
  instances := h.instances
  contents := (h.grown (grows_define s e x v)).define e x (hv.mono (grows_define s e x v))

theorem defineAll (h : s.Ordered) (e : FrameId) {bindings : List (Text × Value)}
    (hb : ∀ b ∈ bindings, s.Has b.2) : (s.defineAll e bindings).Ordered := by
  induction bindings generalizing s with
  | nil => exact h
  | cons b bindings ih =>
    obtain ⟨hv, hb⟩ := List.forall_mem_cons.mp hb
    exact ih (h.define e b.1 hv) fun b' hb' => (hb b' hb').mono (grows_define _ _ _ _)

theorem newFrame (h : s.Ordered) {parent : Option FrameId}
    (hp : ∀ p : Nat, parent = some p → p < s.frames.size) : (s.newFrame parent).2.Ordered where
  parent e p he := by
    unfold Store.newFrame parent? at he
    rw [Array.getElem?_push] at he
    split at he
    · next heq =>
      rw [heq]
      exact hp p he
    · exact h.parent e p he
  classes := h.classes
  instances := h.instances
  contents := (h.grown (grows_newFrame s parent)).newFrame parent

theorem newFrameWith (h : s.Ordered) {parent : Option FrameId} {bindings : List (Text × Value)}
    (hp : ∀ p : Nat, parent = some p → p < s.frames.size) (hb : ∀ b ∈ bindings, s.Has b.2) :
    (s.newFrameWith parent bindings).2.Ordered :=
  (h.newFrame hp).defineAll _ fun b hm => (hb b hm).mono (grows_newFrame s parent)

theorem newGlobals (h : s.Ordered) : s.newGlobals.2.Ordered := by
  refine h.newFrameWith nofun fun b hb => ?_
  obtain ⟨fn, -, rfl⟩ := List.mem_map.mp hb
  trivial

theorem newInstance (h : s.Ordered) (hc : c < s.classes.size) : (s.newInstance c).2.Ordered where
  parent := h.parent
  classes := h.classes
  instances i info hi := by
    unfold Store.newInstance at hi
    rw [Array.getElem?_push] at hi
    split at hi
    · cases hi
      exact hc
    · exact h.instances i info hi
  contents := (h.grown (grows_newInstance s c)).newInstance c

/-- One more class, given what it contains and refers to. -/
theorem pushClass (h : s.Ordered) {info : ClassInfo} (hi : info.Follows s.classes.size)
    (hm : info.methods.All s.HasMethod) (hf : info.fields.All s.Has) :
    { s with classes := s.classes.push info }.Ordered where
  parent := h.parent
  classes := h.classes.push hi
  instances i info' hi := by
    have hlt : (info'.classId : Nat) < s.classes.size := h.instances i info' hi
    rw [Array.size_push]
    exact Nat.lt_succ_of_lt hlt
  contents := by
    have hg : s.Grows { s with classes := s.classes.push info } :=
      ⟨Nat.le_refl _, by simp, Nat.le_refl _⟩
    exact (h.grown hg).pushClass (hm.mono fun _ h => h) (hf.mono fun _ h => h.mono hg)

theorem newClass (h : s.Ordered) (name : Text) {superclass : Option ClassId}
    {methods : Table Closure} (hs : ∀ c : Nat, superclass = some c → c < s.classes.size)
    (hm : methods.All s.HasMethod) : (s.newClass name superclass methods).2.Ordered := by
  have part : ∀ p : Closure → Bool, (methodsWhere p methods).All s.HasMethod :=
    fun p entry he => hm entry (List.mem_filter.mp he).1
  unfold Store.newClass
  dsimp only
  split
  · exact h.pushClass ⟨hs, by simp⟩ (part _) .empty
  · refine (h.pushClass ⟨fun d hd => h.classes.superMeta_lt hd, by simp⟩ (part _) .empty).pushClass
      ⟨fun d hd => ?_, fun d hd => ?_⟩ (part _) .empty
    · rw [Array.size_push]
      exact Nat.lt_succ_of_lt (hs d hd)
    · obtain rfl : s.classes.size = d := Option.some.inj hd
      rw [Array.size_push]
      exact Nat.lt_succ_self _

theorem setClassField (h : s.Ordered) (c : ClassId) (x : Text) (hv : s.Has v) :
    (s.setClassField c x v).Ordered where
  parent := h.parent
  classes := forall_of_modify h.classes fun _ _ hc => hc
  instances i info hi := by
    have hlt := h.instances i info hi
    simpa [Store.setClassField] using hlt
  contents :=
    (h.grown (grows_setClassField s c x v)).setClassField c x
      (hv.mono (grows_setClassField _ _ _ _))

theorem setInstanceField (h : s.Ordered) (i : InstanceId) (x : Text) (hv : s.Has v) :
    (s.setInstanceField i x v).Ordered where
  parent := h.parent
  classes := h.classes
  instances := forall_of_modify h.instances fun _ _ hi => hi
  contents := (h.grown (grows_setInstanceField s i x v)).setInstanceField i x
    (hv.mono (grows_setInstanceField _ _ _ _))

end Ordered

end Store

end Lox
