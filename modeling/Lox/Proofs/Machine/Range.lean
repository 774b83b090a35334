import Lox.Proofs.Machine.Moves
import Lox.Proofs.Store.Order

/-!
# Nothing dangles

In every state of a run, whatever the state and the store refer to is in the store, and the number
of active calls and imports is the number of those that wait to be finished.
-/

namespace Lox

/-! ### What waits -/

/-- What a part of an expression that waits refers to is in a store. -/
def Pending.Within (s : Store) : Pending → Prop
  | .unary _ _ => True
  | .left _ _ _ env => env < s.frames.size
  | .right _ _ v => s.Has v
  | .logical _ _ env => env < s.frames.size
  | .conditional _ _ env => env < s.frames.size
  | .assign _ _ env => env < s.frames.size
  | .get _ => True
  | .setObject _ _ env => env < s.frames.size
  | .setValue object _ => s.Has object
  | .callee _ _ env => env < s.frames.size
  | .argument f _ done _ env => s.Has f ∧ (∀ v ∈ done, s.Has v) ∧ env < s.frames.size

/-- What a statement that waits for a value refers to is in a store. -/
def Use.Within (s : Store) : Use → Prop
  | .define _ env => env < s.frames.size
  | .branch _ _ env => env < s.frames.size
  | .test _ _ env => env < s.frames.size
  | _ => True

/-- What waits for a value refers to what is in a store. -/
def Demand.Within (s : Store) (d : Demand) : Prop :=
  (∀ p ∈ d.pending, p.Within s) ∧ d.use.Within s

/-- What waits for a statement refers to what is in a store. -/
def Resume.Within (s : Store) : Resume → Prop
  | .block _ env => env < s.frames.size
  | .loop _ _ env => env < s.frames.size
  | .program _ env => env < s.frames.size
  | .call closure demand => closure.frame < s.frames.size ∧ demand.Within s
  | .importing i => i.env < s.frames.size ∧ i.loaded.globals < s.frames.size

/-- A value that is returned refers to what is in a store. -/
def Flow.Within (s : Store) : Flow → Prop
  | .returned v => s.Has v
  | _ => True

section

variable {s s' : Store}

theorem Pending.Within.mono {p : Pending} (hp : p.Within s) (h : s.Grows s') : p.Within s' := by
  cases p with
  | unary op mark => trivial
  | get property => trivial
  | right op mark v => exact Store.Has.mono hp h
  | setValue object property => exact Store.Has.mono hp h
  | argument callee paren done rest env =>
    obtain ⟨hc, hv, he⟩ := hp
    exact ⟨hc.mono h, fun v hm => (hv v hm).mono h, Nat.lt_of_lt_of_le he h.frames⟩
  | _ => exact Nat.lt_of_lt_of_le hp h.frames

theorem Use.Within.mono {u : Use} (hu : u.Within s) (h : s.Grows s') : u.Within s' := by
  cases u with
  | echo => trivial
  | print => trivial
  | ret => trivial
  | _ => exact Nat.lt_of_lt_of_le hu h.frames

theorem Demand.Within.mono {d : Demand} (hd : d.Within s) (h : s.Grows s') : d.Within s' :=
  ⟨fun p hp => (hd.1 p hp).mono h, hd.2.mono h⟩

theorem Resume.Within.mono {r : Resume} (hr : r.Within s) (h : s.Grows s') : r.Within s' := by
  cases r with
  | call closure demand => exact ⟨Nat.lt_of_lt_of_le hr.1 h.frames, hr.2.mono h⟩
  | importing i => exact ⟨Nat.lt_of_lt_of_le hr.1 h.frames, Nat.lt_of_lt_of_le hr.2 h.frames⟩
  | _ => exact Nat.lt_of_lt_of_le hr h.frames

theorem Demand.Within.ofUse {u : Use} (hu : u.Within s) : Demand.Within s ⟨[], u⟩ :=
  ⟨List.forall_mem_nil _, hu⟩

theorem Demand.Within.push {d : Demand} {p : Pending} (hd : d.Within s) (hp : p.Within s) :
    (d.push p).Within s :=
  ⟨List.forall_mem_cons.mpr ⟨hp, hd.1⟩, hd.2⟩

theorem Demand.Within.pop {p : Pending} {ps : List Pending} {u : Use}
    (hd : Demand.Within s ⟨p :: ps, u⟩) : p.Within s ∧ Demand.Within s ⟨ps, u⟩ := by
  obtain ⟨hp, hps⟩ := List.forall_mem_cons.mp hd.1
  exact ⟨hp, hps, hd.2⟩

end

theorem Store.Has.of_isPlain {s : Store} {v : Value} (h : v.IsPlain) : s.Has v := by
  cases v <;> trivial

/-- Whether what waits is a call or an import. -/
def Resume.isActive : Resume → Bool
  | .call _ _ => true
  | .importing _ => true
  | _ => false

/-- A world in order, together with what waits to go on in it: what waits refers to what is there,
and the calls and imports among it have been counted on top of `d` others. -/
structure World.Holds (w : World) (d : Nat) (rest : List Resume) : Prop where
  store : w.store.Ordered
  waiting : ∀ r ∈ rest, r.Within w.store
  depth : w.depth = d + rest.countP Resume.isActive

/-- Nothing in a state dangles, and active calls and imports have been counted on top of `d`
others. -/
def State.Within (d : Nat) : State → Prop
  | eval _ env demand rest w => w.Holds d rest ∧ env < w.store.frames.size ∧ demand.Within w.store
  | value v demand rest w => w.Holds d rest ∧ w.store.Has v ∧ demand.Within w.store
  | exec _ env rest w => w.Holds d rest ∧ env < w.store.frames.size
  | flow f rest w => w.Holds d rest ∧ f.Within w.store
  | fail _ rest w => w.Holds d rest

namespace World.Holds

variable {w : World} {d : Nat} {r : Resume} {rest : List Resume}

/-- The store has grown and is still in order. -/
theorem grow (h : w.Holds d rest) {s : Store} (hs : s.Ordered) (hg : w.store.Grows s) :
    { w with store := s }.Holds d rest :=
  ⟨hs, fun r hr => (h.waiting r hr).mono hg, h.depth⟩

/-- Reading changes nothing else. -/
theorem read (h : w.Holds d rest) (input : Input) (clock : Clock) :
    { w with input, clock }.Holds d rest :=
  ⟨h.store, h.waiting, h.depth⟩

theorem define (h : w.Holds d rest) (e : FrameId) (x : Text) {v : Value} (hv : w.store.Has v) :
    (w.define e x v).Holds d rest :=
  h.grow (h.store.define e x hv) (Store.grows_define _ _ _ _)

theorem tail (h : w.Holds d (r :: rest)) (hr : r.isActive = false) : w.Holds d rest :=
  ⟨h.store, fun r hm => h.waiting r (List.mem_cons_of_mem _ hm), by simpa [hr] using h.depth⟩

/-- A call or an import that waits has been counted. -/
theorem depth_pos (h : w.Holds d (r :: rest)) (hr : r.isActive = true) : 0 < w.depth := by
  have hd := h.depth
  rw [List.countP_cons_of_pos hr] at hd
  omega

/-- A call or an import has finished. -/
theorem leave (h : w.Holds d (r :: rest)) (hr : r.isActive = true) : w.leave.Holds d rest := by
  refine ⟨h.store, fun r hm => h.waiting r (List.mem_cons_of_mem _ hm), ?_⟩
  have hd := h.depth
  rw [List.countP_cons_of_pos hr] at hd
  simp only [World.leave]
  omega

theorem cons (h : w.Holds d rest) (hr : r.Within w.store) (ha : r.isActive = false) :
    w.Holds d (r :: rest) :=
  ⟨h.store, List.forall_mem_cons.mpr ⟨hr, h.waiting⟩, by simpa [ha] using h.depth⟩

/-- A call or an import begins. -/
theorem enter (h : w.Holds d rest) (hr : r.Within w.store) (ha : r.isActive = true) :
    w.enter.Holds d (r :: rest) := by
  refine ⟨h.store, List.forall_mem_cons.mpr ⟨hr, h.waiting⟩, ?_⟩
  have hd := h.depth
  rw [List.countP_cons_of_pos ha]
  simp only [World.enter]
  omega

end World.Holds

namespace State

variable {host : Host} {d : Nat} {w : World} {env : FrameId} {demand : Demand} {rest : List Resume}
variable {v : Value} {mark : Mark} {ref : Address}

/-! ### Parts and calls -/

theorem within_part {s : Store} {e e' : Expr Address} {p : Pending} (he : env < s.frames.size)
    (h : e.part? env = some (e', p)) : p.Within s := by
  cases e <;> cases h <;> first | exact he | trivial

theorem within_use {s : Store} {stmt : Stmt Address} {e : Expr Address} {u : Use}
    (he : env < s.frames.size) (h : stmt.part? env = some (e, u)) : u.Within s := by
  unfold Stmt.part? at h
  split at h <;> cases h <;> first | exact he | trivial

theorem has_binding {s : Store} {stmt : Stmt Address} {x : Text} (he : env < s.frames.size)
    (h : stmt.binding? env = some (x, v)) : s.Has v := by
  unfold Stmt.binding? at h
  split at h <;> cases h <;> first | exact he | trivial

theorem within_call {s : Store} {p : Pending} {callee : Value} {paren : Mark} {done : List Value}
    {more : List (Expr Address)} (hp : p.Within s) (hv : s.Has v)
    (h : p.call? v = some (callee, paren, done, more, env)) :
    Pending.Within s (.argument callee paren done more env) := by
  rcases Pending.eq_of_call? h with ⟨rfl, rfl, rfl⟩ | ⟨before, rfl, rfl⟩
  · exact ⟨hv, List.forall_mem_nil _, hp⟩
  · exact ⟨hp.1, List.forall_mem_cons.mpr ⟨hv, hp.2.1⟩, hp.2.2⟩

section

variable (h : w.Holds d rest) (hd : demand.Within w.store)

include h hd

theorem within_bindMethod {method : Closure} {receiver : Value}
    (hm : w.store.HasMethod method) (hv : w.store.Has receiver) :
    (bindMethod method receiver demand rest w).Within d := by
  have hg := Store.grows_newFrameWith w.store (some method.frame) [("this", receiver)]
  have ho : (w.store.newFrameWith (some method.frame) [("this", receiver)]).2.Ordered := by
    refine h.store.newFrameWith ?_ (by simpa using hv)
    rintro p ⟨⟩
    exact hm
  refine ⟨h.grow ho hg, ?_, hd.mono hg⟩
  change w.store.frames.size < (w.store.newFrameWith _ _).2.frames.size
  simp

theorem within_entered {closure : Closure} {arguments : List Value}
    (hc : closure.frame < w.store.frames.size) (ha : ∀ v ∈ arguments, w.store.Has v) :
    (entered closure arguments demand rest w).Within d := by
  have hg := Store.grows_newFrameWith w.store (some closure.frame)
    ((closure.fn.params.map Mark.lexeme).zip arguments)
  have ho : (w.store.newFrameWith (some closure.frame)
      ((closure.fn.params.map Mark.lexeme).zip arguments)).2.Ordered := by
    refine h.store.newFrameWith ?_ fun b hb => ha _ (List.of_mem_zip hb).2
    rintro p ⟨⟩
    exact hc
  have he : w.enter.Holds d (.call closure demand :: rest) := h.enter ⟨hc, hd⟩ rfl
  refine ⟨(he.grow ho hg).cons ?_ rfl, trivial⟩
  change w.store.frames.size < _
  simp

end

/-- A new instance, and the frame of the initializer that is bound to it. -/
theorem ordered_initialized {s : Store} (hs : s.Ordered) {c : ClassId} {method : Closure}
    (hc : c < s.classes.size) (hm : s.findMethod c "init" = some method) :
    (initialized s c method).Ordered ∧ s.Grows (initialized s c method) ∧
      s.frames.size < (initialized s c method).frames.size := by
  have hg := Store.grows_newInstance s c
  have hi : (s.newInstance c).2.Has (.instanceRef s.instances.size) := by
    change s.instances.size < _
    simp [Store.newInstance]
  refine ⟨(hs.newInstance hc).newFrameWith ?_ (by simpa using hi),
    hg.trans (Store.grows_newFrameWith _ _ _), ?_⟩
  · rintro p ⟨⟩
    exact hs.contents.findMethod hm
  · exact Nat.lt_of_lt_of_eq (Nat.lt_succ_self _)
      (Store.size_newFrameWith (s := (s.newInstance c).2)).symm

/-! ### Declarations -/

/-- Every declared method is one of the methods, created in the same frame. -/
theorem all_of_declareMethods {P : Closure → Prop} {methods : List (Method Address)}
    {declared declared' : Table Closure}
    (hp : ∀ c : Closure, c.frame = env → (∃ m ∈ methods, c.fn = m.fn) → P c) (hd : declared.All P)
    (hm : declareMethods env methods declared = .ok declared') : declared'.All P := by
  induction methods generalizing declared with
  | nil =>
    obtain rfl := Except.ok.inj hm
    exact hd
  | cons method methods ih =>
    unfold declareMethods at hm
    dsimp only at hm
    split at hm
    · cases hm
    · refine ih ?_ (hd.insert _ (hp _ rfl ⟨method, List.mem_cons_self, rfl⟩)) hm
      rintro c hc ⟨m, hm, hfn⟩
      exact hp c hc ⟨m, List.mem_cons_of_mem method hm, hfn⟩

section

variable (h : w.Holds d rest)

include h

/-- The superclass of a class declaration is in the store. -/
theorem findSuperclass_lt {superclass : Option (Mark × Address)} {c? : Option ClassId}
    (hs : findSuperclass w.store env superclass = .ok c?) (c : Nat) (hc : c? = some c) :
    c < w.store.classes.size := by
  unfold findSuperclass at hs
  split at hs
  · cases hs
    cases hc
  · split at hs
    · cases hs
    · next hr =>
      cases hs
      cases hc
      exact h.store.contents.read hr
    · cases hs

/-- The frame in which methods are created is in the store. -/
theorem holds_classFrame (name : Mark) (he : env < w.store.frames.size) {c? : Option ClassId}
    (hc : ∀ c : Nat, c? = some c → c < w.store.classes.size) :
    (classFrame w name env c?).2.Holds d rest ∧
      w.store.Grows (classFrame w name env c?).2.store ∧
      (classFrame w name env c?).1 < (classFrame w name env c?).2.store.frames.size := by
  have hn : (w.define env name.lexeme .nil).Holds d rest := h.define env _ trivial
  have hgrows := Store.grows_define w.store env name.lexeme .nil
  have he' : env < (w.define env name.lexeme .nil).store.frames.size :=
    Nat.lt_of_lt_of_le he hgrows.frames
  cases c? with
  | none => exact ⟨hn, hgrows, he'⟩
  | some c =>
    have hg := Store.grows_newFrameWith (w.define env name.lexeme .nil).store (some env)
      [("super", .classRef c)]
    have ho : ((w.define env name.lexeme .nil).store.newFrameWith (some env)
        [("super", .classRef c)]).2.Ordered := by
      refine hn.store.newFrameWith ?_ ?_
      · rintro p ⟨⟩
        exact he'
      · have hv : (w.define env name.lexeme .nil).store.Has (.classRef c) :=
          Nat.lt_of_lt_of_le (hc c rfl) hgrows.classes
        simpa using hv
    refine ⟨hn.grow ho hg, hgrows.trans hg, ?_⟩
    exact Nat.lt_of_lt_of_eq (Nat.lt_succ_self _) Store.size_newFrameWith.symm

end

/-! ### Steps and runs -/

/-- A call yields nothing, what its body returns, or a value from the store. -/
theorem callResult_of_all {V : Value → Prop} {M : Closure → Prop} {s : Store} (h : s.All V M)
    (closure : Closure) {f : Flow} (hnil : V .nil) (hf : ∀ v, f = .returned v → V v) :
    V (callResult closure f s) := by
  unfold callResult
  split
  · cases hv : s.lookup closure.frame "this" with
    | none => exact hnil
    | some v => exact h.lookup hv
  · cases f with
    | returned v => exact hf v rfl
    | _ => exact hnil

theorem has_callResult {s : Store} (hs : s.Ordered) (closure : Closure) {f : Flow}
    (hf : f.Within s) : s.Has (callResult closure f s) := by
  refine callResult_of_all hs.contents closure trivial ?_
  rintro v rfl
  exact hf

variable {s : State}

theorem Within.holds (h : s.Within d) : s.world.Holds d s.waiting := by
  cases s with
  | fail f rest w => exact h
  | _ => exact h.1

theorem Within.grow {store : Store} (h : (value v demand rest w).Within d) (hs : store.Ordered)
    (hg : w.store.Grows store) : (value v demand rest { w with store }).Within d :=
  ⟨h.1.grow hs hg, h.2.1.mono hg, h.2.2.mono hg⟩

theorem Within.step (h : s.Within d) : (s.step host).Within d := by
  have hmove := moves_step host s
  generalize s.opens host = opened, s.step host = s' at hmove
  cases hmove with
  -- expressions
  | literal => exact ⟨h.1, .of_isPlain (Value.isPlain_ofLiteral _), h.2.2⟩
  | function | group => exact h
  | part hp => exact ⟨h.1, h.2.1, h.2.2.push (within_part h.2.1 hp)⟩
  | read _ hv => exact ⟨h.1, h.1.store.contents.read hv, h.2.2⟩
  | inherited _ hthis hm =>
    have hcontents := h.1.store.contents
    exact within_bindMethod h.1 h.2.2 (hcontents.inherited hm) (hcontents.getAt hthis)
  -- operators and properties
  | unary hv => exact ⟨h.1, .of_isPlain hv, h.2.2.pop.2⟩
  | left | object => exact ⟨h.1, h.2.2.pop.1, h.2.2.pop.2.push h.2.1⟩
  | right hv =>
    refine ⟨h.1, ?_, h.2.2.pop.2⟩
    rcases hv with rfl | hv
    · exact h.2.1
    · exact .of_isPlain hv
  | decided => exact ⟨h.1, h.2.1, h.2.2.pop.2⟩
  | undecided | chosen => exact ⟨h.1, h.2.2.pop.1, h.2.2.pop.2⟩
  | assign =>
    exact Within.grow ⟨h.1, h.2.1, h.2.2.pop.2⟩ (h.1.store.define _ _ h.2.1)
      (Store.grows_define _ _ _ _)
  | field hp => exact ⟨h.1, h.1.store.contents.of_property_eq_value hp, h.2.2.pop.2⟩
  | method hp =>
    exact within_bindMethod h.1 h.2.2.pop.2 (h.1.store.contents.of_property_eq_method hp) h.2.1
  | setClass =>
    exact Within.grow ⟨h.1, h.2.1, h.2.2.pop.2⟩ (h.1.store.setClassField _ _ h.2.1)
      (Store.grows_setClassField _ _ _ _)
  | setInstance =>
    exact Within.grow ⟨h.1, h.2.1, h.2.2.pop.2⟩ (h.1.store.setInstanceField _ _ h.2.1)
      (Store.grows_setInstanceField _ _ _ _)
  -- calls
  | argument hp =>
    have hcall := within_call h.2.2.pop.1 h.2.1 hp
    exact ⟨h.1, hcall.2.2, h.2.2.pop.2.push hcall⟩
  | call hp =>
    have hcall := within_call h.2.2.pop.1 h.2.1 hp
    exact within_entered h.1 h.2.2.pop.2 hcall.1 fun v hv => hcall.2.1 v (List.mem_reverse.mp hv)
  | clock => exact ⟨h.1.read _ _, trivial, h.2.2.pop.2⟩
  | readInput _ hread =>
    exact ⟨h.1.read _ _, .of_isPlain (NativeFunction.isPlain_of_read? hread), h.2.2.pop.2⟩
  | noInput => exact h.1.read _ _
  | @newInstance _ _ c _ _ _ _ _ w hp =>
    have hg := Store.grows_newInstance w.store c
    refine ⟨h.1.grow (h.1.store.newInstance (within_call h.2.2.pop.1 h.2.1 hp).1) hg, ?_,
      h.2.2.pop.2.mono hg⟩
    change w.store.instances.size < _
    simp [Store.newInstance]
  | construct hp hm =>
    have hcall := within_call h.2.2.pop.1 h.2.1 hp
    obtain ⟨ho, hg, hlt⟩ := ordered_initialized h.1.store hcall.1 hm
    exact within_entered (h.1.grow ho hg) (h.2.2.pop.2.mono hg) hlt
      fun v hv => (hcall.2.1 v (List.mem_reverse.mp hv)).mono hg
  | constructOverflow hp hm =>
    obtain ⟨ho, hg, -⟩ := ordered_initialized h.1.store (within_call h.2.2.pop.1 h.2.1 hp).1 hm
    exact h.1.grow ho hg
  -- statements that have their value
  | shown _ hw =>
    rcases hw with rfl | rfl
    · exact ⟨h.1, trivial⟩
    · exact ⟨⟨h.1.store, h.1.waiting, h.1.depth⟩, trivial⟩
  | defined => exact ⟨h.1.define _ _ h.2.1, trivial⟩
  | branch => exact ⟨h.1, h.2.2.2⟩
  | round => exact ⟨h.1.cons h.2.2.2 rfl, h.2.2.2⟩
  | result => exact ⟨h.1, h.2.1⟩
  -- statements
  | demand hp => exact ⟨h.1, h.2, .ofUse (within_use h.2 hp)⟩
  | bind hp => exact ⟨h.1.define _ _ (has_binding h.2 hp), trivial⟩
  | @block body env rest w =>
    have ho : (w.store.newFrame (some env)).2.Ordered := by
      refine h.1.store.newFrame ?_
      rintro p ⟨⟩
      exact h.2
    refine ⟨(h.1.grow ho (Store.grows_newFrame w.store (some env))).cons ?_ rfl, trivial⟩
    change w.store.frames.size < (w.store.newFrame _).2.frames.size
    simp
  | declareClass hfind hm =>
    have hlt := findSuperclass_lt h.1 hfind
    obtain ⟨hi, hg, hframe⟩ := holds_classFrame h.1 _ h.2 hlt
    refine ⟨(hi.grow (hi.store.newClass _ (fun c hc => Nat.lt_of_lt_of_le (hlt c hc) hg.classes)
      (all_of_declareMethods (fun c hc _ => ?_) .empty hm))
      (Store.grows_newClass _ _ _ _)).define _ _ (Store.newClass_fst_lt _ _ _ _), trivial⟩
    exact Nat.lt_of_le_of_lt (Nat.le_of_eq hc) hframe
  | repeatMethod hfind => exact (holds_classFrame h.1 _ h.2 (findSuperclass_lt h.1 hfind)).1
  | @load path asName env rest w file source program events =>
    have hg := Store.grows_newFrameWith w.store none
      (NativeFunction.all.map fun fn => (fn.name, .native fn))
    have hlt : w.store.frames.size < w.store.newGlobals.2.frames.size := by
      unfold Store.newGlobals
      simp
    have hi := ((h.1.grow h.1.store.newGlobals hg).enter
      (r := .importing (loading w path asName file env))
      ⟨Nat.lt_of_lt_of_le h.2 hg.frames, hlt⟩ rfl).cons
      (r := .program program w.store.frames.size) hlt rfl
    exact ⟨⟨hi.store, hi.waiting, hi.depth⟩, trivial⟩
  | noLoad => exact ⟨h.1.store, h.1.waiting, h.1.depth⟩
  -- statements that have finished
  | next | nextTop =>
    have hr := h.1.waiting _ List.mem_cons_self
    exact ⟨(h.1.tail rfl).cons hr rfl, hr⟩
  | leave | returned => exact ⟨h.1.tail rfl, h.2⟩
  | again =>
    have hr := h.1.waiting _ List.mem_cons_self
    exact ⟨h.1.tail rfl, hr, .ofUse hr⟩
  | broke | leaveTop => exact ⟨h.1.tail rfl, trivial⟩
  | answer =>
    exact ⟨h.1.leave rfl, has_callResult h.1.store _ h.2, (h.1.waiting _ List.mem_cons_self).2⟩
  | @imported f i rest w =>
    have hr : Resume.Within w.store (.importing i) := h.1.waiting _ List.mem_cons_self
    have h' := (h.1.leave rfl).define i.env i.loaded.name (v := .moduleRef i.loaded) hr.2
    exact ⟨⟨h'.store, h'.waiting, h'.depth⟩, trivial⟩
  -- failures and ends
  | callOverflow | redeclare => exact h.1
  | noBranch | noRound | ret | brk => exact ⟨h.1, trivial⟩
  | fails => exact h.holds
  | @unwind f r rest w =>
    have h : w.Holds d (r :: rest) := h
    cases r with
    | call closure demand => exact h.leave rfl
    | importing i => exact ⟨(h.leave rfl).store, (h.leave rfl).waiting, (h.leave rfl).depth⟩
    | _ => exact h.tail rfl
  | ended => exact h

theorem Within.run (h : s.Within d) (n : Nat) : (s.run host n).Within d := by
  induction n generalizing s with
  | zero => exact h
  | succ n ih =>
    unfold State.run
    split
    · exact h
    · exact ih h.step

theorem Within.ordered (h : s.Within d) : s.world.store.Ordered := by
  cases s with
  | fail f rest w => exact h.store
  | _ => exact h.1.store

/-- A program starts with whatever is active already. -/
theorem within_start {program : Program Address} {globals : FrameId} (hs : w.store.Ordered)
    (hg : globals < w.store.frames.size) : (start program globals w).Within w.depth :=
  ⟨⟨hs, List.forall_mem_singleton.mpr hg, rfl⟩, trivial⟩

end State

end Lox
