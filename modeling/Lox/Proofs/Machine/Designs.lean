import Lox.Proofs.Machine.Heap

/-!
# What classes and instances keep

A class keeps its superclass and its methods, and an instance its class, whatever else happens to
their fields. So the methods that a class has are settled when it is declared.
-/

namespace Lox

namespace Store

variable {s s' s'' : Store} {c : ClassId} {x : Text} {method : Closure}

/-- The superclass and the methods of a class. -/
def design? (s : Store) (c : ClassId) : Option (Option ClassId × Table Closure) :=
  s.classes[c]?.map fun info => (info.superclass, info.methods)

/-- The class of an instance. -/
def classOf? (s : Store) (i : InstanceId) : Option ClassId :=
  s.instances[i]?.map InstanceInfo.classId

/-! ### Later stores -/

/-- A later store has the same classes and instances, and perhaps more. -/
structure Retains (s s' : Store) : Prop where
  design : ∀ c d, s.design? c = some d → s'.design? c = some d
  classOf : ∀ i c, s.classOf? i = some c → s'.classOf? i = some c

namespace Retains

theorem refl (s : Store) : s.Retains s := ⟨fun _ _ => id, fun _ _ => id⟩

theorem trans (h : s.Retains s') (h' : s'.Retains s'') : s.Retains s'' where
  design c d hd := h'.design c d (h.design c d hd)
  classOf i c hc := h'.classOf i c (h.classOf i c hc)

theorem newClass (s : Store) (name : Text) (superclass : Option ClassId)
    (methods : Table Closure) : s.Retains (s.newClass name superclass methods).2 := by
  have push : ∀ (classes : Array ClassInfo) (info : ClassInfo) (c : Nat) d,
      classes[c]?.map (fun info => (info.superclass, info.methods)) = some d →
      (classes.push info)[c]?.map (fun info => (info.superclass, info.methods)) = some d := by
    intro classes info c d hd
    obtain ⟨old, hold, -⟩ := Option.map_eq_some_iff.mp hd
    have hlt := (Array.getElem?_eq_some_iff.mp hold).1
    rw [Array.getElem?_push, if_neg (Nat.ne_of_lt hlt)]
    exact hd
  unfold Store.newClass
  dsimp only
  split
  · exact ⟨fun c d hd => push _ _ c d hd, fun _ _ => id⟩
  · exact ⟨fun c d hd => push _ _ c d (push _ _ c d hd), fun _ _ => id⟩

theorem newInstance (s : Store) (c : ClassId) : s.Retains (s.newInstance c).2 where
  design _ _ := id
  classOf i d hd := by
    obtain ⟨old, hold, -⟩ := Option.map_eq_some_iff.mp hd
    have hlt := (Array.getElem?_eq_some_iff.mp hold).1
    unfold Store.newInstance classOf?
    rw [Array.getElem?_push, if_neg (Nat.ne_of_lt hlt)]
    exact hd

theorem setClassField (s : Store) (c : ClassId) (x : Text) (v : Value) :
    s.Retains (s.setClassField c x v) where
  design c' d hd := by
    unfold Store.setClassField design?
    rw [← hd, Array.getElem?_modify]
    split
    · rw [Option.map_map]
      rfl
    · rfl
  classOf _ _ := id

theorem setInstanceField (s : Store) (i : InstanceId) (x : Text) (v : Value) :
    s.Retains (s.setInstanceField i x v) where
  design _ _ := id
  classOf i' c hc := by
    unfold Store.setInstanceField classOf?
    rw [← hc, Array.getElem?_modify]
    split
    · rw [Option.map_map]
      rfl
    · rfl

end Retains

theorem Changes.retains {D : FrameId → Text → Prop} {tops : List Bool}
    (h : s.Changes D tops s') : s.Retains s' := by
  induction h with
  | refl => exact .refl s
  | define v _ _ ih => exact ⟨ih.design, ih.classOf⟩
  | newFrame parent _ ih => exact ⟨ih.design, ih.classOf⟩
  | newClass name methods _ _ ih => exact ih.trans (.newClass _ _ _ _)
  | newInstance c _ ih => exact ih.trans (.newInstance _ c)
  | setClassField c x v _ ih => exact ih.trans (.setClassField _ c x v)
  | setInstanceField i x v _ ih => exact ih.trans (.setInstanceField _ i x v)

/-! ### Methods -/

/-- A method is the nearest of its name, from a class on along the superclasses. -/
inductive Nearest (s : Store) (x : Text) (method : Closure) : ClassId → Prop
  | own {c : ClassId} {superclass : Option ClassId} {methods : Table Closure} :
      s.design? c = some (superclass, methods) → methods.find? x = some method →
      Nearest s x method c
  | inherited {c d : ClassId} {methods : Table Closure} :
      s.design? c = some (some d, methods) → methods.find? x = none → Nearest s x method d →
      Nearest s x method c

theorem Ordered.findMethod_of_design? (h : s.Ordered) {superclass : Option ClassId}
    {methods : Table Closure} (hd : s.design? c = some (superclass, methods)) :
    s.findMethod c x = (methods.find? x).or (superclass.bind (s.findMethod · x)) := by
  obtain ⟨info, hc, heq⟩ := Option.map_eq_some_iff.mp hd
  cases heq
  rw [h.classes.findMethod_eq, hc]
  rfl

/-- The search for a method finds the nearest one. -/
theorem Ordered.findMethod_eq_some_iff (h : s.Ordered) :
    s.findMethod c x = some method ↔ s.Nearest x method c := by
  constructor
  · intro hm
    -- superclasses are older, so the search goes down
    induction c using Nat.strongRecOn with
    | ind c ih =>
      have hm' := hm
      rw [h.classes.findMethod_eq] at hm'
      obtain ⟨info, hc, -⟩ := Option.bind_eq_some_iff.mp hm'
      have hd : s.design? c = some (info.superclass, info.methods) := by
        unfold design?
        rw [hc]
        rfl
      rw [h.findMethod_of_design? hd] at hm
      cases hx : info.methods.find? x with
      | some own =>
        rw [hx] at hm
        exact .own hd (hx.trans hm)
      | none =>
        rw [hx, Option.none_or] at hm
        obtain ⟨d, hsuper, hm⟩ := Option.bind_eq_some_iff.mp hm
        rw [hsuper] at hd
        exact .inherited hd hx (ih d ((h.classes c info hc).1 d hsuper) hm)
  · intro hm
    induction hm with
    | own hd hx => rw [h.findMethod_of_design? hd, hx, Option.some_or]
    | inherited hd hx _ ih => rw [h.findMethod_of_design? hd, hx, Option.none_or]; exact ih

/-! ### Initializers -/

/-- A class is regular if its methods with the name of an initializer, and those of its
superclasses, are initializers. Metaclasses need not be. -/
inductive Regular (s : Store) : ClassId → Prop
  | mk {c : ClassId} {superclass : Option ClassId} {methods : Table Closure} :
      s.design? c = some (superclass, methods) →
      (∀ m, methods.find? "init" = some m → m.initializer = true) →
      (∀ d, superclass = some d → Regular s d) → Regular s c

theorem Regular.mono (h : s.Retains s') (hc : s.Regular c) : s'.Regular c := by
  induction hc with
  | mk hd hinit _ ih => exact .mk (h.design _ _ hd) hinit ih

theorem Regular.initializer (h : s.Regular c) (hm : s.Nearest "init" method c) :
    method.initializer = true := by
  induction hm with
  | own hd hx =>
    obtain ⟨hd', hinit, -⟩ := h
    rw [hd] at hd'
    cases hd'
    exact hinit _ hx
  | inherited hd _ _ ih =>
    obtain ⟨hd', -, hsuper⟩ := h
    rw [hd] at hd'
    cases hd'
    exact ih (hsuper _ rfl)

theorem design?_newClass (s : Store) (name : Text) (superclass : Option ClassId)
    (methods : Table Closure) :
    (s.newClass name superclass methods).2.design? (s.newClass name superclass methods).1 =
      some (superclass, methodsWhere (fun c => !isStatic c) methods) := by
  have last : ∀ (classes : Array ClassInfo) (info : ClassInfo),
      (classes.push info)[classes.size]? = some info := by
    intro classes info
    rw [Array.getElem?_push, if_pos rfl]
  unfold newClass design?
  dsimp only
  split
  · rw [last]
    rfl
  · have hsize : ∀ info, s.classes.size + 1 = (s.classes.push info).size := fun _ =>
      (Array.size_push _).symm
    dsimp only
    rw [hsize, last]
    rfl

end Store

/-! ### Steps -/

namespace State

variable (host : Host)

theorem retains_step (s : State) : s.world.store.Retains (s.step host).world.store :=
  (changes_step host s).retains

end State

end Lox
