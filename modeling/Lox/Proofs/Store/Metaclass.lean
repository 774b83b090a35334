import Lox.Proofs.Store.Order
import Mathlib.Data.List.Nodup

/-!
# Methods and static methods along the superclasses

A class keeps its static methods in a metaclass, and it has one only if there is something to find
in it. Seen from outside there are no metaclasses: both kinds of method are found at the nearest
class, from the class itself on upward, that declares one of the name, and neither search finds the
other kind.
-/

namespace Lox

/-! ### Tables -/

namespace Table

variable {α : Type} {x : Text}

theorem lookup_eq_none {entries : List (Text × α)} (hx : x ∉ entries.map Prod.fst) :
    lookup x entries = none := by
  induction entries with
  | nil => rfl
  | cons entry entries ih =>
    obtain ⟨hne, hrest⟩ := not_or.mp (List.mem_cons.not.mp hx)
    rw [lookup, if_neg (Ne.symm hne), ih hrest]

/-- Among entries with different names, a part has the entry of a name if it is of that part. -/
theorem lookup_filter (p : α → Bool) {entries : List (Text × α)}
    (hnames : (entries.map Prod.fst).Nodup) :
    lookup x (entries.filter fun entry => p entry.2) = (lookup x entries).filter p := by
  induction entries with
  | nil => rfl
  | cons entry entries ih =>
    obtain ⟨y, a⟩ := entry
    obtain ⟨hnew, hnames⟩ := List.nodup_cons.mp hnames
    have ih := ih hnames
    by_cases hx : y = x
    · subst hx
      rw [lookup_eq_none hnew] at ih
      cases hp : p a <;> simp [lookup, hp, ih, Option.filter_some]
    · cases hp : p a <;> simp [lookup, hp, hx, ih]

theorem entries_eq_nil_iff {t : Table α} : t.entries = [] ↔ ∀ x, t.find? x = none := by
  obtain ⟨entries⟩ := t
  cases entries with
  | nil => simp [find?, lookup]
  | cons entry entries =>
    refine iff_of_false (List.cons_ne_nil _ _) fun h => ?_
    have hself := h entry.1
    simp [find?, lookup] at hself

end Table

/-! ### Declarations -/

/-- What a class is declared with: its superclass, and its methods of both kinds. -/
structure ClassDeclaration where
  superclass : Option ClassId
  methods : Table Closure

namespace ClassDeclaration

/-- The declared method of a name, unless it is static. -/
def own? (d : ClassDeclaration) (x : Text) : Option Closure :=
  (d.methods.find? x).filter fun m => !Store.isStatic m

/-- The declared static method of a name. -/
def static? (d : ClassDeclaration) (x : Text) : Option Closure :=
  (d.methods.find? x).filter Store.isStatic

/-- Of classes declared one after the other, given latest first, the declarations of a class and of
its superclasses, nearest first. -/
def chain : List (ClassId × ClassDeclaration) → Option ClassId → List ClassDeclaration
  | [], _ => []
  | _ :: _, none => []
  | (c, d) :: older, some c' =>
    if c = c' then d :: chain older d.superclass else chain older (some c')

theorem findSome?_cons (f : ClassDeclaration → Option Closure) (d : ClassDeclaration)
    (chain : List ClassDeclaration) :
    (d :: chain).findSome? f = (f d).or (chain.findSome? f) := by
  rw [List.findSome?_cons]
  cases f d <;> rfl

theorem chain_none (declared : List (ClassId × ClassDeclaration)) : chain declared none = [] := by
  cases declared <;> rfl

end ClassDeclaration

namespace Store

variable {s : Store} {c : ClassId} {x : Text} {name : Text} {superclass : Option ClassId}
  {methods : Table Closure} {chain : List ClassDeclaration}

/-- Classes have been declared one after the other, each with a superclass among the earlier ones or
with none, and with one method for each name; the latest is first. -/
inductive Declares : Store → List (ClassId × ClassDeclaration) → Prop
  | start {s : Store} : s.classes = #[] → Declares s []
  | newClass {s : Store} {declared : List (ClassId × ClassDeclaration)} (name : Text)
      {superclass : Option ClassId} {methods : Table Closure} :
      Declares s declared → (∀ c, superclass = some c → c ∈ declared.map Prod.fst) →
      methods.keys.Nodup →
      Declares (s.newClass name superclass methods).2
        (((s.newClass name superclass methods).1, ⟨superclass, methods⟩) :: declared)

/-! ### One more class -/

/-- A store with one more class. -/
def withClass (s : Store) (info : ClassInfo) : Store := { s with classes := s.classes.push info }

/-- The metaclass of a class, if there is a class and it has one. -/
def metaclass? (s : Store) (c : Option ClassId) : Option ClassId :=
  (c.bind (s.classes[·]?)).bind ClassInfo.metaclass

theorem findStatic_eq (c : Option ClassId) :
    c.bind (s.findStatic · x) = (s.metaclass? c).bind (s.findMethod · x) := by
  cases c <;> rfl

section WithClass

variable {info : ClassInfo}

@[simp] theorem size_withClass : (s.withClass info).classes.size = s.classes.size + 1 :=
  Array.size_push _

theorem getElem?_withClass_of_lt (hc : c < s.classes.size) :
    (s.withClass info).classes[c]? = s.classes[c]? := by
  unfold withClass
  rw [Array.getElem?_push, if_neg (Nat.ne_of_lt hc)]

@[simp] theorem getElem?_withClass_size :
    (s.withClass info).classes[s.classes.size]? = some info := by
  unfold withClass
  rw [Array.getElem?_push, if_pos rfl]

theorem metaclass?_withClass_of_lt {c : Option ClassId}
    (hc : ∀ d : Nat, c = some d → d < s.classes.size) :
    (s.withClass info).metaclass? c = s.metaclass? c := by
  cases c with
  | none => rfl
  | some d =>
    unfold metaclass?
    rw [Option.bind_some, getElem?_withClass_of_lt (hc d rfl), Option.bind_some]

theorem metaclass?_withClass_size :
    (s.withClass info).metaclass? (some s.classes.size) = info.metaclass := by
  unfold metaclass?
  rw [Option.bind_some, getElem?_withClass_size, Option.bind_some]

/-- A search from an older class does not come to the new one. -/
theorem Ranked.findMethod_withClass_of_lt (h : s.Ranked) (hc : c < s.classes.size) :
    (s.withClass info).findMethod c x = s.findMethod c x := by
  suffices from_eq : ∀ bound c : Nat, c < s.classes.size →
      (s.withClass info).findMethodFrom x bound c = s.findMethodFrom x bound c from
    from_eq c c hc
  intro bound
  induction bound with
  | zero =>
    intro c hc
    unfold findMethodFrom
    rw [getElem?_withClass_of_lt hc]
  | succ bound ih =>
    intro c hc
    unfold findMethodFrom
    rw [getElem?_withClass_of_lt hc]
    cases hold : s.classes[c]? with
    | none => rfl
    | some old =>
      dsimp only
      cases old.methods.find? x with
      | some m => rfl
      | none =>
        cases hsuper : old.superclass with
        | none => rfl
        | some d => exact ih d (Nat.lt_trans ((h c old hold).1 d hsuper) hc)

/-- A search from the new class goes on at its superclass. -/
theorem Ranked.findMethod_withClass_size (h : s.Ranked) (hi : info.Follows s.classes.size) :
    (s.withClass info).findMethod s.classes.size x =
      (info.methods.find? x).or (info.superclass.bind (s.findMethod · x)) := by
  have hranked : (s.withClass info).Ranked := h.push hi
  rw [hranked.findMethod_eq, getElem?_withClass_size, Option.bind_some]
  cases hsuper : info.superclass with
  | none => rfl
  | some d => rw [Option.bind_some, h.findMethod_withClass_of_lt (hi.1 d hsuper), Option.bind_some]

end WithClass

/-! ### New classes -/

/-- A class as it is stored. -/
def ownInfo (name : Text) (superclass : Option ClassId) (methods : Table Closure)
    (metaclass : Option ClassId) : ClassInfo :=
  { name, superclass, methods := methodsWhere (fun m => !isStatic m) methods, metaclass }

/-- A metaclass as it is stored. -/
def metaInfo (s : Store) (name : Text) (superclass : Option ClassId) (methods : Table Closure) :
    ClassInfo :=
  { name := name ++ " meta", superclass := s.metaclass? superclass,
    methods := methodsWhere isStatic methods, metaclass := none }

theorem newClass_of_plain (hstatic : (methodsWhere isStatic methods).entries = [])
    (hmeta : s.metaclass? superclass = none) :
    s.newClass name superclass methods =
      (s.classes.size, s.withClass (ownInfo name superclass methods none)) := by
  have hsuper : (superclass.bind (s.classes[·]?)).bind ClassInfo.metaclass = none := hmeta
  simp [newClass, hstatic, hsuper, withClass, ownInfo]

theorem newClass_of_meta
    (h : (methodsWhere isStatic methods).entries = [] → s.metaclass? superclass ≠ none) :
    s.newClass name superclass methods =
      (s.classes.size + 1, (s.withClass (s.metaInfo name superclass methods)).withClass
        (ownInfo name superclass methods (some s.classes.size))) := by
  have hcond : ¬ ((methodsWhere isStatic methods).entries.isEmpty &&
      (s.metaclass? superclass).isNone) = true := by
    simpa using h
  exact if_neg hcond

theorem find?_methodsWhere (hnames : methods.keys.Nodup) (p : Closure → Bool) :
    (methodsWhere p methods).find? x = (methods.find? x).filter p :=
  Table.lookup_filter p hnames

theorem Ranked.follows_metaInfo (h : s.Ranked) :
    (s.metaInfo name superclass methods).Follows s.classes.size :=
  ⟨fun d hd => h.superMeta_lt hd, by simp [metaInfo]⟩

theorem Ranked.push_metaInfo (h : s.Ranked) :
    (s.withClass (s.metaInfo name superclass methods)).Ranked :=
  h.push h.follows_metaInfo

theorem Ranked.newClass (h : s.Ranked)
    (hs : ∀ d : Nat, superclass = some d → d < s.classes.size) :
    (s.newClass name superclass methods).2.Ranked := by
  by_cases hplain : (methodsWhere isStatic methods).entries = [] ∧ s.metaclass? superclass = none
  · rw [newClass_of_plain hplain.1 hplain.2]
    exact h.push ⟨hs, by simp [ownInfo]⟩
  · rw [newClass_of_meta (not_and.mp hplain)]
    refine h.push_metaInfo.push ⟨fun d hd => ?_, by simp [ownInfo]⟩
    simpa using Nat.lt_succ_of_lt (hs d hd)

/-! ### Searches -/

/-- From a class on, or from no class, methods and static methods are found where a chain of
declarations has them, and there is a metaclass if the chain has static methods. -/
structure Answers (s : Store) (c : Option ClassId) (chain : List ClassDeclaration) : Prop where
  methods : ∀ x, c.bind (s.findMethod · x) = chain.findSome? (·.own? x)
  statics : ∀ x, c.bind (s.findStatic · x) = chain.findSome? (·.static? x)
  metaclass : (s.metaclass? c).isSome ↔ ∃ d ∈ chain, ∃ x, (d.static? x).isSome

theorem answers_none (s : Store) : s.Answers none [] :=
  ⟨fun _ => rfl, fun _ => rfl, by simp [metaclass?]⟩

namespace Answers

/-- One more class changes no search from an older one. -/
theorem withClass {c : Option ClassId} {info : ClassInfo} (ha : s.Answers c chain) (h : s.Ranked)
    (hc : ∀ d : Nat, c = some d → d < s.classes.size) : (s.withClass info).Answers c chain where
  methods x := by
    rw [← ha.methods x]
    exact Option.bind_congr fun d hd => h.findMethod_withClass_of_lt (hc d hd)
  statics x := by
    rw [← ha.statics x, findStatic_eq, findStatic_eq, metaclass?_withClass_of_lt hc]
    exact Option.bind_congr fun d hd => h.findMethod_withClass_of_lt (h.superMeta_lt hd)
  metaclass := by rw [metaclass?_withClass_of_lt hc, ha.metaclass]

theorem newClass_of_lt {c : Option ClassId} (ha : s.Answers c chain) (h : s.Ranked)
    (hc : ∀ d : Nat, c = some d → d < s.classes.size) :
    (s.newClass name superclass methods).2.Answers c chain := by
  by_cases hplain : (methodsWhere isStatic methods).entries = [] ∧ s.metaclass? superclass = none
  · rw [newClass_of_plain hplain.1 hplain.2]
    exact ha.withClass h hc
  · rw [newClass_of_meta (not_and.mp hplain)]
    refine (ha.withClass h hc).withClass h.push_metaInfo fun d hd => ?_
    simpa using Nat.lt_succ_of_lt (hc d hd)

/-- The methods of a new class, whatever its metaclass. -/
theorem findMethod_ownInfo {metaclass : Option ClassId} (ha : s.Answers superclass chain)
    (h : s.Ranked) (hi : (ownInfo name superclass methods metaclass).Follows s.classes.size)
    (hnames : methods.keys.Nodup) (x : Text) :
    (s.withClass (ownInfo name superclass methods metaclass)).findMethod s.classes.size x =
      (⟨superclass, methods⟩ :: chain : List ClassDeclaration).findSome? (·.own? x) := by
  rw [h.findMethod_withClass_size hi, ClassDeclaration.findSome?_cons, ← ha.methods x]
  exact congrArg (Option.or · _) (find?_methodsWhere hnames _)

/-- The methods of its metaclass. -/
theorem findMethod_metaInfo (ha : s.Answers superclass chain) (h : s.Ranked)
    (hnames : methods.keys.Nodup) (x : Text) :
    (s.withClass (s.metaInfo name superclass methods)).findMethod s.classes.size x =
      (⟨superclass, methods⟩ :: chain : List ClassDeclaration).findSome? (·.static? x) := by
  rw [h.findMethod_withClass_size h.follows_metaInfo, ClassDeclaration.findSome?_cons,
    ← ha.statics x, findStatic_eq]
  exact congrArg (Option.or · _) (find?_methodsWhere hnames _)

/-- A class is stored alone if neither it nor its superclasses declare static methods. -/
theorem ownInfo_none (ha : s.Answers superclass chain) (h : s.Ranked)
    (hs : ∀ d : Nat, superclass = some d → d < s.classes.size) (hnames : methods.keys.Nodup)
    (hstatic : ∀ x, ClassDeclaration.static? ⟨superclass, methods⟩ x = none)
    (hmeta : s.metaclass? superclass = none) :
    (s.withClass (ownInfo name superclass methods none)).Answers (some s.classes.size)
      (⟨superclass, methods⟩ :: chain) := by
  have hnone : (s.withClass (ownInfo name superclass methods none)).metaclass?
      (some s.classes.size) = none := metaclass?_withClass_size
  refine ⟨ha.findMethod_ownInfo h ⟨hs, by simp [ownInfo]⟩ hnames, fun x => ?_, ?_⟩
  · rw [findStatic_eq, hnone, ClassDeclaration.findSome?_cons, hstatic, ← ha.statics,
      findStatic_eq, hmeta]
    rfl
  · have hchain := ha.metaclass
    rw [hmeta] at hchain
    simp [hnone, hstatic, ← hchain]

/-- A class is stored after a metaclass that finds the static methods for it. -/
theorem ownInfo_some {m : Nat} (ha : s.Answers superclass chain) (h : s.Ranked)
    (hs : ∀ d : Nat, superclass = some d → d < s.classes.size) (hnames : methods.keys.Nodup)
    (hm : m < s.classes.size)
    (hstatics : ∀ x, s.findMethod m x =
      (⟨superclass, methods⟩ :: chain : List ClassDeclaration).findSome? (·.static? x))
    (hdeclared : ∃ d ∈ (⟨superclass, methods⟩ :: chain : List ClassDeclaration),
      ∃ x, (d.static? x).isSome) :
    (s.withClass (ownInfo name superclass methods (some m))).Answers (some s.classes.size)
      (⟨superclass, methods⟩ :: chain) := by
  have hsome : (s.withClass (ownInfo name superclass methods (some m))).metaclass?
      (some s.classes.size) = some m := metaclass?_withClass_size
  refine ⟨ha.findMethod_ownInfo h ⟨hs, fun d hd => ?_⟩ hnames, fun x => ?_, ?_⟩
  · exact Option.some.inj hd ▸ hm
  · rw [findStatic_eq, hsome]
    exact (h.findMethod_withClass_of_lt hm).trans (hstatics x)
  · rw [hsome]
    exact iff_of_true rfl hdeclared

/-- A new class answers for its own declaration, and for the rest like its superclass. -/
theorem newClass (ha : s.Answers superclass chain) (h : s.Ranked)
    (hs : ∀ d : Nat, superclass = some d → d < s.classes.size) (hnames : methods.keys.Nodup) :
    (s.newClass name superclass methods).2.Answers (some (s.newClass name superclass methods).1)
      (⟨superclass, methods⟩ :: chain) := by
  have hdeclared : (methodsWhere isStatic methods).entries = [] ↔
      ∀ x, ClassDeclaration.static? ⟨superclass, methods⟩ x = none := by
    rw [Table.entries_eq_nil_iff]
    exact forall_congr' fun x => by rw [find?_methodsWhere hnames]; rfl
  by_cases hplain : (methodsWhere isStatic methods).entries = [] ∧ s.metaclass? superclass = none
  · rw [newClass_of_plain hplain.1 hplain.2]
    exact ha.ownInfo_none h hs hnames (hdeclared.mp hplain.1) hplain.2
  · have hmeta := not_and.mp hplain
    have hsize : s.classes.size + 1 =
      (s.withClass (s.metaInfo name superclass methods)).classes.size := size_withClass.symm
    have hlt := Nat.lt_of_lt_of_eq (Nat.lt_succ_self s.classes.size) hsize
    rw [newClass_of_meta hmeta, hsize]
    -- the metaclass comes first, so its search is known before the class is there
    refine (ha.withClass h hs).ownInfo_some h.push_metaInfo (fun d hd => ?_) hnames hlt
      (ha.findMethod_metaInfo h hnames) ?_
    · exact Nat.lt_trans (hs d hd) hlt
    · by_cases hstatic : (methodsWhere isStatic methods).entries = []
      · obtain ⟨d, hd, hx⟩ := ha.metaclass.mp (Option.isSome_iff_ne_none.mpr (hmeta hstatic))
        exact ⟨d, List.mem_cons_of_mem _ hd, hx⟩
      · obtain ⟨x, hx⟩ := not_forall.mp (hdeclared.not.mp hstatic)
        exact ⟨_, List.mem_cons_self, x, Option.isSome_iff_ne_none.mpr hx⟩

end Answers

/-! ### Hierarchies -/

/-- What is known of classes declared one after the other. -/
structure Hierarchy (s : Store) (declared : List (ClassId × ClassDeclaration)) : Prop where
  ranked : s.Ranked
  lt_size : ∀ c ∈ declared.map Prod.fst, c < s.classes.size
  answers : ∀ c : Option ClassId, (∀ d, c = some d → d ∈ declared.map Prod.fst) →
    s.Answers c (ClassDeclaration.chain declared c)

theorem Declares.hierarchy {declared : List (ClassId × ClassDeclaration)}
    (h : s.Declares declared) : s.Hierarchy declared := by
  induction h with
  | start hs =>
    refine ⟨by simp [Ranked, hs], by simp, fun c hc => ?_⟩
    cases c with
    | none => exact answers_none _
    | some d => cases hc d rfl
  | @newClass s declared name superclass methods _ hsuper hnames ih =>
    have hs : ∀ d : Nat, superclass = some d → d < s.classes.size := fun d hd =>
      ih.lt_size d (hsuper d hd)
    refine ⟨ih.ranked.newClass hs, ?_, fun c hc => ?_⟩
    · refine List.forall_mem_cons.mpr ⟨newClass_fst_lt .., fun c hc => ?_⟩
      exact Nat.lt_of_lt_of_le (ih.lt_size c hc) (grows_newClass ..).classes
    · cases c with
      | none => exact ClassDeclaration.chain_none _ ▸ answers_none _
      | some c =>
        unfold ClassDeclaration.chain
        split
        · next heq =>
          subst heq
          exact (ih.answers superclass hsuper).newClass ih.ranked hs hnames
        · next hne =>
          have hold : c ∈ declared.map Prod.fst :=
            (List.mem_cons.mp (hc c rfl)).resolve_left (Ne.symm hne)
          refine (ih.answers (some c) ?_).newClass_of_lt ih.ranked ?_
          · rintro d ⟨⟩
            exact hold
          · rintro d ⟨⟩
            exact ih.lt_size c hold

/-- Methods and static methods are inherited alike: each search finds the method of its kind that
the nearest class declares, and there is a metaclass exactly if a class along the way declares a
static method. -/
theorem Declares.finds_nearest {declared : List (ClassId × ClassDeclaration)}
    (h : s.Declares declared) (hc : c ∈ declared.map Prod.fst) :
    (∀ x, s.findStatic c x =
        (ClassDeclaration.chain declared (some c)).findSome? (·.static? x)) ∧
      (∀ x, s.findMethod c x =
        (ClassDeclaration.chain declared (some c)).findSome? (·.own? x)) ∧
      (∀ x m, s.findStatic c x = some m → isStatic m = true) ∧
      (∀ x m, s.findMethod c x = some m → isStatic m = false) ∧
      ((s.metaclass? (some c)).isSome ↔
        ∃ d ∈ ClassDeclaration.chain declared (some c), ∃ x, (d.static? x).isSome) := by
  have ha := h.hierarchy.answers (some c) fun d hd => Option.some.inj hd ▸ hc
  refine ⟨ha.statics, ha.methods, fun x m hm => ?_, fun x m hm => ?_, ha.metaclass⟩
  · obtain ⟨d, -, hd⟩ := List.exists_of_findSome?_eq_some ((ha.statics x).symm.trans hm)
    exact (Option.filter_eq_some_iff.mp hd).2
  · obtain ⟨d, -, hd⟩ := List.exists_of_findSome?_eq_some ((ha.methods x).symm.trans hm)
    simpa using (Option.filter_eq_some_iff.mp hd).2

/-- A static method two classes up is found from a class with methods of its own, but only as a
static method. -/
theorem Declares.finds_nearest_two_up :
    let make : Closure := ⟨"make", .staticMethod, .mk [] [], 0, false⟩
    let use : Closure := ⟨"use", .method, .mk [] [], 0, false⟩
    let top := ({} : Store).newClass "Top" none (.single "make" make)
    let middle := top.2.newClass "Middle" (some top.1) ∅
    let bottom := middle.2.newClass "Bottom" (some middle.1) (.single "use" use)
    bottom.2.findStatic bottom.1 "make" = some make ∧
      bottom.2.findMethod bottom.1 "make" = none ∧
      bottom.2.findMethod bottom.1 "use" = some use ∧
      bottom.2.findStatic bottom.1 "use" = none ∧
      (bottom.2.metaclass? (some bottom.1)).isSome := by
  intro make use top middle bottom
  have htop : top.2.Declares [(top.1, ⟨none, .single "make" make⟩)] :=
    .newClass "Top" (.start rfl) (by simp) (by simp [Table.keys, Table.single])
  have hmiddle : middle.2.Declares [(middle.1, ⟨some top.1, ∅⟩), (top.1, _)] :=
    .newClass "Middle" htop (by simp) List.nodup_nil
  have hbottom : bottom.2.Declares
      [(bottom.1, ⟨some middle.1, .single "use" use⟩), (middle.1, _), (top.1, _)] :=
    .newClass "Bottom" hmiddle (by simp) (by simp [Table.keys, Table.single])
  obtain ⟨hstatic, hown, -, -, hmeta⟩ := hbottom.finds_nearest (c := bottom.1) (by simp)
  refine ⟨(hstatic "make").trans rfl, (hown "make").trans rfl, (hown "use").trans rfl,
    (hstatic "use").trans rfl, hmeta.mpr ⟨⟨none, .single "make" make⟩, ?_, "make", rfl⟩⟩
  exact List.mem_of_getElem? (i := 2) rfl

end Store

end Lox
