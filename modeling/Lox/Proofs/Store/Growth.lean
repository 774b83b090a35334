import Lox.Store

/-!
# Growth of stores

A run changes its store by binding names, by creating frames, classes and instances, and by setting
fields. None of this removes a frame, moves one or unbinds a name; and what a store contains after
such a change, it contained before or was given with the change.
-/

namespace Lox

/-! ### Tables -/

namespace Table

variable {α : Type} {P : α → Prop}

/-- Every value of a table has a property. -/
def All (P : α → Prop) (t : Table α) : Prop := ∀ entry ∈ t.entries, P entry.2

theorem eq_of_find?_single {x y : Text} {a b : α} (h : (single x a).find? y = some b) : y = x := by
  by_cases hxy : x = y
  · exact hxy.symm
  · simp [find?, single, lookup, hxy] at h

theorem mem_insert {t : Table α} {x : Text} {a : α} {entry : Text × α}
    (h : entry ∈ (t.insert x a).entries) : entry = (x, a) ∨ entry ∈ t.entries := by
  have update : ∀ entries : List (Text × α),
      entry ∈ Table.update x a entries → entry = (x, a) ∨ entry ∈ entries := by
    intro entries
    induction entries with
    | nil =>
      intro he
      exact .inl (List.mem_singleton.mp he)
    | cons e entries ih =>
      intro he
      unfold Table.update at he
      split at he
      · next heq =>
        rcases List.mem_cons.mp he with rfl | he
        · exact .inl (by rw [heq])
        · exact .inr (List.mem_cons_of_mem _ he)
      · rcases List.mem_cons.mp he with rfl | he
        · exact .inr List.mem_cons_self
        · exact (ih he).imp_right (List.mem_cons_of_mem _)
  exact update t.entries h

theorem mem_of_find? {t : Table α} {x : Text} {a : α} (h : t.find? x = some a) :
    (x, a) ∈ t.entries := by
  have lookup : ∀ entries : List (Text × α), Table.lookup x entries = some a →
      (x, a) ∈ entries := by
    intro entries
    induction entries with
    | nil => simp [Table.lookup]
    | cons e entries ih =>
      intro hx
      unfold Table.lookup at hx
      split at hx
      · next heq =>
        obtain rfl := Option.some.inj hx
        subst heq
        exact List.mem_cons_self
      · exact List.mem_cons_of_mem _ (ih hx)
  exact lookup t.entries h

theorem All.empty : (∅ : Table α).All P := by
  rintro _ ⟨⟩

theorem All.mono {Q : α → Prop} {t : Table α} (h : t.All P) (hPQ : ∀ a, P a → Q a) : t.All Q :=
  fun entry he => hPQ _ (h entry he)

theorem All.insert {t : Table α} (h : t.All P) (x : Text) {a : α} (ha : P a) :
    (t.insert x a).All P := by
  intro entry he
  rcases mem_insert he with rfl | hold
  · exact ha
  · exact h entry hold

theorem All.find? {t : Table α} (h : t.All P) {x : Text} {a : α} (hx : t.find? x = some a) :
    P a :=
  h (x, a) (mem_of_find? hx)

end Table

namespace Store

variable {s s' s'' : Store} {e e' : FrameId} {x y : Text} {v : Value}

/-! ### Frames -/

@[simp] theorem size_define : (s.define e x v).frames.size = s.frames.size := by
  simp [define]

@[simp] theorem parent?_define : (s.define e x v).parent? e' = s.parent? e' := by
  unfold define parent?
  rw [Array.getElem?_modify]
  split <;> cases s.frames[e']? <;> rfl

theorem lookup_define_self (he : e < s.frames.size) : (s.define e x v).lookup e x = some v := by
  unfold define lookup
  rw [Array.getElem?_modify, if_pos rfl, Array.getElem?_eq_getElem he]
  exact Table.find?_insert_self _ x v

theorem lookup_define_of_ne (h : e' ≠ e ∨ y ≠ x) :
    (s.define e x v).lookup e' y = s.lookup e' y := by
  unfold define lookup
  rw [Array.getElem?_modify]
  split
  · next heq =>
    have hy : y ≠ x := h.resolve_left fun hne => hne heq.symm
    cases s.frames[e']? with
    | none => rfl
    | some f => exact Table.find?_insert_of_ne f.bindings hy v
  · rfl

theorem lt_of_binds (h : s.binds e x) : e < s.frames.size := by
  refine Nat.lt_of_not_le fun hle => ?_
  simp [binds, lookup, Array.getElem?_eq_none hle] at h

theorem binds_define_self (he : e < s.frames.size) : (s.define e x v).binds e x := by
  simp [binds, lookup_define_self he]

theorem binds_define (h : s.binds e' y) : (s.define e x v).binds e' y := by
  by_cases heq : e' = e ∧ y = x
  · obtain ⟨rfl, rfl⟩ := heq
    exact binds_define_self (lt_of_binds h)
  · unfold binds
    rw [lookup_define_of_ne (Decidable.not_and_iff_or_not.mp heq)]
    exact h

/-- A store that has come out of another: all frames are still there, where they were, and bind at
least the same names. -/
structure Extends (s s' : Store) : Prop where
  size : s.frames.size ≤ s'.frames.size
  parent : ∀ e < s.frames.size, s'.parent? e = s.parent? e
  binds : ∀ e x, s.binds e x → s'.binds e x

theorem Extends.refl (s : Store) : s.Extends s := ⟨Nat.le_refl _, fun _ _ => rfl, fun _ _ => id⟩

theorem Extends.trans (h : s.Extends s') (h' : s'.Extends s'') : s.Extends s'' where
  size := Nat.le_trans h.size h'.size
  parent e he := (h'.parent e (Nat.lt_of_lt_of_le he h.size)).trans (h.parent e he)
  binds e x hx := h'.binds e x (h.binds e x hx)

theorem frames_newClass (s : Store) (name : Text) (superclass : Option ClassId)
    (methods : Table Closure) : (s.newClass name superclass methods).2.frames = s.frames := by
  unfold newClass
  dsimp only
  split <;> rfl

theorem Extends.of_frames_eq (h : s'.frames = s.frames) : s.Extends s' where
  size := Nat.le_of_eq (congrArg Array.size h.symm)
  parent e _ := by simp [parent?, h]
  binds e x := by simp [Store.binds, lookup, h]

theorem Extends.define (s : Store) (e : FrameId) (x : Text) (v : Value) :
    s.Extends (s.define e x v) where
  size := by simp
  parent e' _ := parent?_define
  binds _ _ := binds_define

theorem Extends.defineAll (s : Store) (e : FrameId) (bindings : List (Text × Value)) :
    s.Extends (s.defineAll e bindings) := by
  induction bindings generalizing s with
  | nil => exact .refl s
  | cons b bindings ih => exact (Extends.define s e b.1 b.2).trans (ih _)

@[simp] theorem size_defineAll (s : Store) (e : FrameId) (bindings : List (Text × Value)) :
    (s.defineAll e bindings).frames.size = s.frames.size := by
  induction bindings generalizing s with
  | nil => rfl
  | cons b bindings ih => exact (ih _).trans size_define

theorem binds_defineAll (he : e < s.frames.size) {bindings : List (Text × Value)}
    (hx : x ∈ bindings.map Prod.fst) : (s.defineAll e bindings).binds e x := by
  induction bindings generalizing s with
  | nil => cases hx
  | cons b bindings ih =>
    rcases List.mem_cons.mp hx with rfl | hx
    · exact (Extends.defineAll _ e bindings).binds _ _ (binds_define_self he)
    · exact ih (by simpa using he) hx

variable {parent : Option FrameId} {bindings : List (Text × Value)}

theorem Extends.newFrame (s : Store) (parent : Option FrameId) :
    s.Extends (s.newFrame parent).2 where
  size := by simp [Store.newFrame]
  parent e he := by simp [Store.newFrame, parent?, Array.getElem?_push_lt he, he]
  binds e x hx := by
    have he := lt_of_binds hx
    simpa [Store.newFrame, Store.binds, lookup, Array.getElem?_push_lt he, he] using hx

theorem Extends.newFrameWith (s : Store) (parent : Option FrameId)
    (bindings : List (Text × Value)) : s.Extends (s.newFrameWith parent bindings).2 :=
  (Extends.newFrame s parent).trans (.defineAll _ _ _)

@[simp] theorem newFrame_fst : (s.newFrame parent).1 = s.frames.size := rfl

@[simp] theorem newFrameWith_fst : (s.newFrameWith parent bindings).1 = s.frames.size := rfl

@[simp] theorem size_newFrame : (s.newFrame parent).2.frames.size = s.frames.size + 1 := by
  simp [newFrame]

@[simp] theorem size_newFrameWith :
    (s.newFrameWith parent bindings).2.frames.size = s.frames.size + 1 := by
  simp [newFrameWith]

@[simp] theorem parent?_newFrame : (s.newFrame parent).2.parent? s.frames.size = parent := by
  simp [newFrame, parent?]

@[simp] theorem parent?_newFrameWith :
    (s.newFrameWith parent bindings).2.parent? s.frames.size = parent := by
  have h := (Extends.defineAll (s.newFrame parent).2 s.frames.size bindings).parent
    s.frames.size (by simp)
  exact h.trans parent?_newFrame

theorem binds_newFrameWith (hx : x ∈ bindings.map Prod.fst) :
    (s.newFrameWith parent bindings).2.binds s.frames.size x :=
  binds_defineAll (by simp) hx

/-- Methods are found in the classes. -/
theorem findMethod_congr (h : s'.classes = s.classes) (c : ClassId) (x : Text) :
    s'.findMethod c x = s.findMethod c x := by
  have search : ∀ bound c, s'.findMethodFrom x bound c = s.findMethodFrom x bound c := by
    intro bound
    induction bound with
    | zero => intro c; simp [findMethodFrom, h]
    | succ bound ih => intro c; simp [findMethodFrom, h, ih]
  exact search c c

/-! ### Contents -/

/-- What holds of every entry and is kept by a change holds after the change of one entry. -/
theorem forall_of_modify {α : Type} {P : Nat → α → Prop} {entries : Array α} {change : α → α}
    {i : Nat} (h : ∀ j a, entries[j]? = some a → P j a) (hP : ∀ j a, P j a → P j (change a))
    (j : Nat) (a : α) (ha : (entries.modify i change)[j]? = some a) : P j a := by
  rw [Array.getElem?_modify] at ha
  split at ha
  · obtain ⟨a', ha', rfl⟩ := Option.map_eq_some_iff.mp ha
    exact hP j a' (h j a' ha')
  · exact h j a ha

/-- Every value in a store has the property `V`, and every method the property `M`. -/
structure All (V : Value → Prop) (M : Closure → Prop) (s : Store) : Prop where
  bindings : ∀ (e : FrameId) f, s.frames[e]? = some f → f.bindings.All V
  methods : ∀ (c : ClassId) info, s.classes[c]? = some info → info.methods.All M
  classFields : ∀ (c : ClassId) info, s.classes[c]? = some info → info.fields.All V
  instanceFields : ∀ (i : InstanceId) info, s.instances[i]? = some info → info.fields.All V

namespace All

variable {V : Value → Prop} {M : Closure → Prop}

theorem mono {V' : Value → Prop} {M' : Closure → Prop} (h : s.All V M) (hV : ∀ v, V v → V' v)
    (hM : ∀ m, M m → M' m) : s.All V' M' where
  bindings e f hf := (h.bindings e f hf).mono hV
  methods c info hc := (h.methods c info hc).mono hM
  classFields c info hc := (h.classFields c info hc).mono hV
  instanceFields i info hi := (h.instanceFields i info hi).mono hV

theorem empty : ({} : Store).All V M := by
  constructor <;> simp

theorem lookup (h : s.All V M) (hx : s.lookup e x = some v) : V v := by
  obtain ⟨f, hf, hv⟩ := Option.bind_eq_some_iff.mp hx
  exact (h.bindings e f hf).find? hv

theorem getAt (h : s.All V M) {d : Nat} (hx : s.getAt e d x = some v) : V v := by
  obtain ⟨e', -, hx⟩ := Option.bind_eq_some_iff.mp hx
  exact h.lookup hx

theorem read (h : s.All V M) {ref : Address} (hx : s.read e ref x = some v) : V v := by
  cases ref with
  | none =>
    obtain ⟨e', -, hx⟩ := List.exists_of_findSome?_eq_some hx
    exact h.lookup hx
  | some d => exact h.getAt hx

theorem define (h : s.All V M) (e : FrameId) (x : Text) (hv : V v) : (s.define e x v).All V M where
  bindings := forall_of_modify h.bindings fun _ _ hf => hf.insert x hv
  methods := h.methods
  classFields := h.classFields
  instanceFields := h.instanceFields

theorem defineAll (h : s.All V M) (e : FrameId) (hb : ∀ b ∈ bindings, V b.2) :
    (s.defineAll e bindings).All V M := by
  induction bindings generalizing s with
  | nil => exact h
  | cons b bindings ih =>
    obtain ⟨hv, hb⟩ := List.forall_mem_cons.mp hb
    exact ih (h.define e b.1 hv) hb

theorem newFrame (h : s.All V M) (parent : Option FrameId) : (s.newFrame parent).2.All V M where
  bindings e f hf := by
    rw [Store.newFrame, Array.getElem?_push] at hf
    split at hf
    · obtain rfl := Option.some.inj hf
      exact .empty
    · exact h.bindings e f hf
  methods := h.methods
  classFields := h.classFields
  instanceFields := h.instanceFields

theorem newFrameWith (h : s.All V M) (parent : Option FrameId) (hb : ∀ b ∈ bindings, V b.2) :
    (s.newFrameWith parent bindings).2.All V M :=
  (h.newFrame parent).defineAll _ hb

theorem newInstance (h : s.All V M) (c : ClassId) : (s.newInstance c).2.All V M where
  bindings := h.bindings
  methods := h.methods
  classFields := h.classFields
  instanceFields i info hi := by
    rw [Store.newInstance, Array.getElem?_push] at hi
    split at hi
    · obtain rfl := Option.some.inj hi
      exact .empty
    · exact h.instanceFields i info hi

/-- A store with one more class, given what the class contains. -/
theorem pushClass (h : s.All V M) {info : ClassInfo} (hm : info.methods.All M)
    (hf : info.fields.All V) : { s with classes := s.classes.push info }.All V M where
  bindings := h.bindings
  methods c info' hc := by
    rw [Array.getElem?_push] at hc
    split at hc
    · exact Option.some.inj hc ▸ hm
    · exact h.methods c info' hc
  classFields c info' hc := by
    rw [Array.getElem?_push] at hc
    split at hc
    · exact Option.some.inj hc ▸ hf
    · exact h.classFields c info' hc
  instanceFields := h.instanceFields

theorem newClass (h : s.All V M) (name : Text) (superclass : Option ClassId)
    {methods : Table Closure} (hm : methods.All M) :
    (s.newClass name superclass methods).2.All V M := by
  have part : ∀ p : Closure → Bool, (methodsWhere p methods).All M :=
    fun p entry he => hm entry (List.mem_filter.mp he).1
  unfold Store.newClass
  dsimp only
  split
  · exact h.pushClass (part _) .empty
  · exact (h.pushClass (part _) .empty).pushClass (part _) .empty

theorem setClassField (h : s.All V M) (c : ClassId) (x : Text) (hv : V v) :
    (s.setClassField c x v).All V M where
  bindings := h.bindings
  methods := forall_of_modify h.methods fun _ _ hc => hc
  classFields := forall_of_modify h.classFields fun _ _ hc => hc.insert x hv
  instanceFields := h.instanceFields

theorem setInstanceField (h : s.All V M) (i : InstanceId) (x : Text) (hv : V v) :
    (s.setInstanceField i x v).All V M where
  bindings := h.bindings
  methods := h.methods
  classFields := h.classFields
  instanceFields := forall_of_modify h.instanceFields fun _ _ hi => hi.insert x hv

theorem findMethod (h : s.All V M) {c : ClassId} {m : Closure} (hm : s.findMethod c x = some m) :
    M m := by
  -- along the superclasses, as far as the search goes
  have search : ∀ bound c, s.findMethodFrom x bound c = some m → M m := by
    intro bound
    induction bound with
    | zero =>
      intro c hm
      obtain ⟨info, hc, hx⟩ := Option.bind_eq_some_iff.mp hm
      exact (h.methods c info hc).find? hx
    | succ bound ih =>
      intro c hm
      unfold findMethodFrom at hm
      split at hm
      · cases hm
      · next info hc =>
        split at hm
        · next method hx => exact Option.some.inj hm ▸ (h.methods c info hc).find? hx
        · obtain ⟨c', -, hm⟩ := Option.bind_eq_some_iff.mp hm
          exact ih c' hm
  exact search c c hm

theorem findStatic (h : s.All V M) {c : ClassId} {m : Closure} (hm : s.findStatic c x = some m) :
    M m := by
  obtain ⟨metaclass, -, hm⟩ := Option.bind_eq_some_iff.mp hm
  exact h.findMethod hm

theorem inherited (h : s.All V M) {c : ClassId} {receiver : Value} {m : Closure}
    (hm : s.inherited c receiver x = some m) : M m := by
  unfold Store.inherited at hm
  split at hm
  · exact h.findStatic hm
  · exact h.findMethod hm

theorem of_property_eq_value (h : s.All V M) {object : Value}
    (hp : s.property object x = .value v) : V v := by
  have ofMethod : ∀ m? : Option Closure, Property.ofMethod? m? ≠ .value v := by
    rintro (_ | m) <;> simp [Property.ofMethod?]
  unfold Store.property at hp
  split at hp
  · next m =>
    cases hl : s.lookup m.globals x with
    | none => simp [hl] at hp
    | some u =>
      obtain rfl : u = v := by simpa [hl] using hp
      exact h.lookup hl
  · split at hp
    · next u hu =>
      obtain ⟨info, hc, hx⟩ := Option.bind_eq_some_iff.mp hu
      obtain rfl : u = v := by simpa using hp
      exact (h.classFields _ info hc).find? hx
    · exact absurd hp (ofMethod _)
  · split at hp
    · cases hp
    · next info hi =>
      split at hp
      · next u hx =>
        obtain rfl : u = v := by simpa using hp
        exact (h.instanceFields _ info hi).find? hx
      · exact absurd hp (ofMethod _)
  · cases hp

theorem of_property_eq_method (h : s.All V M) {object : Value} {m : Closure}
    (hp : s.property object x = .method m) : M m := by
  have ofMethod : ∀ {m? : Option Closure}, Property.ofMethod? m? = .method m → m? = some m := by
    rintro (_ | m) <;> simp [Property.ofMethod?]
  unfold Store.property at hp
  split at hp
  · next m' => cases hl : s.lookup m'.globals x <;> simp [hl] at hp
  · split at hp
    · cases hp
    · exact h.findStatic (ofMethod hp)
  · split at hp
    · cases hp
    · split at hp
      · cases hp
      · exact h.findMethod (ofMethod hp)
  · cases hp

end All

end Store

end Lox
