import Lox.Machine.Operator
import Lox.Proofs.Store.Order
import Lox.Proofs.Tree.Lines

/-!
# Stores inside larger stores

The things of one store can stand in a larger one, after all that was there before. Their numbers
change then, and nothing else does: whatever is read, searched or changed in the one store is read,
searched or changed in the other at the place where it stands there, and what was there before
neither matters nor changes.

## Design notes

Searches outward and upward are bounded by the number of the frame or class they start at, and this
number grows by a placement. They agree because in a store in order no search needs its whole bound.
-/

namespace Lox

/-! ### Tables -/

namespace Table

variable {α β : Type} (f : α → β)

/-- Acts on the values of a table. -/
def map (t : Table α) : Table β := ⟨t.entries.map fun entry => (entry.1, f entry.2)⟩

@[simp] theorem map_empty : (∅ : Table α).map f = ∅ := rfl

@[simp] theorem map_id (t : Table α) : t.map id = t := by
  simp [map]

@[simp] theorem find?_map (t : Table α) (x : Text) : (t.map f).find? x = (t.find? x).map f := by
  obtain ⟨entries⟩ := t
  unfold find? map
  induction entries with
  | nil => rfl
  | cons entry entries ih =>
    simp only [List.map_cons, lookup, ih]
    split <;> rfl

@[simp] theorem contains_map (t : Table α) (x : Text) : (t.map f).contains x = t.contains x := by
  simp [contains]

@[simp] theorem map_insert (t : Table α) (x : Text) (a : α) :
    (t.insert x a).map f = (t.map f).insert x (f a) := by
  obtain ⟨entries⟩ := t
  unfold insert map
  congr 1
  induction entries with
  | nil => rfl
  | cons entry entries ih =>
    simp only [List.map_cons, update]
    split
    · rfl
    · simp [ih]

@[simp] theorem sortedKeys_map (t : Table α) : (t.map f).sortedKeys = t.sortedKeys := by
  unfold sortedKeys keys map
  congr 1
  simp

end Table

/-- A change behind other elements. -/
theorem modify_append_map {α β : Type} (base : Array β) (elements : Array α) {f : α → β}
    {change : α → α} {change' : β → β} (h : ∀ a, change' (f a) = f (change a)) (k : Nat) :
    (base ++ elements.map f).modify (base.size + k) change' =
      base ++ (elements.modify k change).map f := by
  refine Array.ext_getElem? fun j => ?_
  rw [Array.getElem?_modify]
  by_cases hj : j < base.size
  · rw [if_neg (by omega), Array.getElem?_append_left hj, Array.getElem?_append_left hj]
  · have hle : base.size ≤ j := Nat.le_of_not_lt hj
    rw [Array.getElem?_append_right hle, Array.getElem?_append_right hle, Array.getElem?_map,
      Array.getElem?_map, Array.getElem?_modify]
    by_cases hk : base.size + k = j
    · rw [if_pos hk, if_pos (by omega)]
      cases elements[j - base.size]? with
      | none => rfl
      | some a => exact congrArg some (h a)
    · rw [if_neg hk, if_neg (by omega)]

/-! ### Placements -/

/-- How a store is placed in a larger one: behind what is there already, and with other line
numbers in the code it contains. -/
structure Placement where
  line : Int → Int
  base : Store

namespace Placement

variable (x : Placement)

/-- Where a frame is placed. -/
def frame (e : FrameId) : FrameId := x.base.frames.size + e

/-- Where a class is placed. -/
def classId (c : ClassId) : ClassId := x.base.classes.size + c

/-- Where an instance is placed. -/
def instanceId (i : InstanceId) : InstanceId := x.base.instances.size + i

/-- A function whose frame has been placed. -/
def closure (c : Closure) : Closure :=
  { c with fn := c.fn.mapLines x.line, frame := x.frame c.frame }

/-- A module whose globals have been placed. -/
def moduleInfo (m : Module) : Module := { m with globals := x.frame m.globals }

/-- A value, if what it refers to has been placed. -/
def value : Value → Value
  | .function closure => .function (x.closure closure)
  | .classRef c => .classRef (x.classId c)
  | .instanceRef i => .instanceRef (x.instanceId i)
  | .moduleRef m => .moduleRef (x.moduleInfo m)
  | .nil => .nil
  | .bool b => .bool b
  | .number n => .number n
  | .string t => .string t
  | .native fn => .native fn
  | .foreign code => .foreign code

/-- A frame after the placement. -/
def frameInfo (f : Frame) : Frame := ⟨f.parent.map x.frame, f.bindings.map x.value⟩

/-- A class after the placement. -/
def classInfo (info : ClassInfo) : ClassInfo where
  name := info.name
  superclass := info.superclass.map x.classId
  methods := info.methods.map x.closure
  metaclass := info.metaclass.map x.classId
  fields := info.fields.map x.value

/-- An instance after the placement. -/
def instanceInfo (info : InstanceInfo) : InstanceInfo :=
  ⟨x.classId info.classId, info.fields.map x.value⟩

/-- A store after the placement, with what was there before. -/
def store (s : Store) : Store where
  frames := x.base.frames ++ s.frames.map x.frameInfo
  classes := x.base.classes ++ s.classes.map x.classInfo
  instances := x.base.instances ++ s.instances.map x.instanceInfo

variable {x} {s : Store} {e : FrameId} {c : ClassId} {y : Text} {v : Value}

/-! ### Values -/

@[simp] theorem kind_value : (x.value v).kind = v.kind := by
  cases v <;> rfl

@[simp] theorem isTruthy_value : (x.value v).isTruthy = v.isTruthy := by
  cases v <;> rfl

@[simp] theorem decides_value (op : LogicalOp) : op.decides (x.value v) = op.decides v := by
  cases op <;> simp [LogicalOp.decides]

theorem apply_unary_value (op : UnaryOp) : op.apply (x.value v) = (op.apply v).map x.value := by
  cases op with
  | not => exact congrArg (fun b : Bool => Except.ok (Value.bool !b)) isTruthy_value
  | negate => cases v <;> rfl

@[simp] theorem params_closure (m : Closure) :
    (x.closure m).fn.params.map Mark.lexeme = m.fn.params.map Mark.lexeme := by
  obtain ⟨name, kind, ⟨params, body⟩, frame, initializer⟩ := m
  simp [closure, Function.params]

@[simp] theorem body_closure (m : Closure) :
    (x.closure m).fn.body = Stmt.mapLinesAll x.line m.fn.body := by
  obtain ⟨name, kind, ⟨params, body⟩, frame, initializer⟩ := m
  rfl

@[simp] theorem arity_closure (m : Closure) : (x.closure m).fn.arity = m.fn.arity := by
  obtain ⟨name, kind, ⟨params, body⟩, frame, initializer⟩ := m
  simp [closure, Function.arity, Function.params]

/-! ### Frames -/

@[simp] theorem frames_store :
    (x.store s).frames[x.frame e]? = s.frames[e]?.map x.frameInfo := by
  simp [store, frame, Array.getElem?_append_right]

@[simp] theorem size_frames_store : (x.store s).frames.size = x.frame s.frames.size := by
  simp [store, frame]

/-- What was there before is still there. -/
theorem frames_store_of_lt (he : e < x.base.frames.size) :
    (x.store s).frames[e]? = x.base.frames[e]? :=
  Array.getElem?_append_left he

@[simp] theorem parent?_store : (x.store s).parent? (x.frame e) = (s.parent? e).map x.frame := by
  unfold Store.parent?
  rw [frames_store]
  cases s.frames[e]? <;> rfl

@[simp] theorem lookup_store : (x.store s).lookup (x.frame e) y = (s.lookup e y).map x.value := by
  unfold Store.lookup
  rw [frames_store]
  cases s.frames[e]? with
  | none => rfl
  | some f => exact Table.find?_map x.value f.bindings y

@[simp] theorem binds_store : (x.store s).binds (x.frame e) y = s.binds e y := by
  simp [Store.binds]

theorem names_store : (x.store s).names (x.frame e) = s.names e := by
  unfold Store.names
  rw [frames_store]
  cases s.frames[e]? with
  | none => rfl
  | some f => exact Table.sortedKeys_map x.value f.bindings

theorem ancestor_store (d : Nat) :
    (x.store s).ancestor (x.frame e) d = (s.ancestor e d).map x.frame := by
  induction d generalizing e with
  | zero => rfl
  | succ d ih =>
    simp only [Store.ancestor, parent?_store]
    cases s.parent? e with
    | none => rfl
    | some p => exact ih

theorem getAt_store (d : Nat) :
    (x.store s).getAt (x.frame e) d y = (s.getAt e d y).map x.value := by
  unfold Store.getAt
  rw [ancestor_store]
  cases s.ancestor e d with
  | none => rfl
  | some e => exact lookup_store

theorem holderAt_store (d : Nat) :
    (x.store s).holderAt (x.frame e) d y = (s.holderAt e d y).map x.frame := by
  unfold Store.holderAt
  rw [ancestor_store]
  cases s.ancestor e d with
  | none => rfl
  | some e =>
    simp only [Option.map_some, Option.filter_some, binds_store]
    split <;> rfl

theorem chainFrom_store (bound : Nat) :
    (x.store s).chainFrom bound (x.frame e) = (s.chainFrom bound e).map x.frame := by
  induction bound generalizing e with
  | zero => rfl
  | succ bound ih =>
    simp only [Store.chainFrom, parent?_store]
    cases s.parent? e with
    | none => rfl
    | some p => simp [ih]

theorem rootFrom_store (bound : Nat) :
    (x.store s).rootFrom bound (x.frame e) = x.frame (s.rootFrom bound e) := by
  induction bound generalizing e with
  | zero => rfl
  | succ bound ih =>
    simp only [Store.rootFrom, parent?_store]
    cases s.parent? e with
    | none => rfl
    | some p => exact ih

section

variable (h : s.Ordered)

include h

theorem chain_store : (x.store s).chain (x.frame e) = (s.chain e).map x.frame := by
  unfold Store.chain
  have hle : e ≤ x.frame e := Nat.le_add_left e _
  rw [chainFrom_store, h.nested.chainFrom_eq hle]
  rfl

theorem root_store : (x.store s).root (x.frame e) = x.frame (s.root e) := by
  unfold Store.root
  have hle : e ≤ x.frame e := Nat.le_add_left e _
  rw [rootFrom_store, h.nested.rootFrom_eq hle]
  rfl

theorem get_store : (x.store s).get (x.frame e) y = (s.get e y).map x.value := by
  unfold Store.get
  rw [chain_store h, List.findSome?_map, List.map_findSome?]
  congr 1
  funext e
  exact lookup_store

theorem holder_store : (x.store s).holder (x.frame e) y = (s.holder e y).map x.frame := by
  unfold Store.holder
  rw [chain_store h, List.find?_map]
  congr 2
  funext e
  exact binds_store

theorem read_store (ref : Address) :
    (x.store s).read (x.frame e) ref y = (s.read e ref y).map x.value := by
  cases ref with
  | none =>
    simp only [Store.read]
    rw [root_store h, get_store h]
  | some d => exact getAt_store d

theorem writable_store (ref : Address) :
    (x.store s).writable (x.frame e) ref y = (s.writable e ref y).map x.frame := by
  cases ref with
  | none =>
    simp only [Store.writable]
    rw [root_store h, holder_store h]
  | some d => exact holderAt_store d

end

/-! ### Changes to frames -/

theorem define_store :
    (x.store s).define (x.frame e) y (x.value v) = x.store (s.define e y v) := by
  unfold Store.define store
  congr 1
  dsimp only [frame]
  refine modify_append_map _ _ (fun f => ?_) e
  simp [frameInfo]

theorem defineAll_store (bindings : List (Text × Value)) :
    (x.store s).defineAll (x.frame e) (bindings.map (Prod.map id x.value)) =
      x.store (s.defineAll e bindings) := by
  induction bindings generalizing s with
  | nil => rfl
  | cons b bindings ih =>
    simp only [List.map_cons, Prod.map, Store.defineAll, id, define_store]
    exact ih

theorem newFrame_store (parent : Option FrameId) :
    (x.store s).newFrame (parent.map x.frame) =
      (x.frame s.frames.size, x.store (s.newFrame parent).2) := by
  unfold Store.newFrame
  simp [store, frame, frameInfo]

theorem newFrameWith_store (parent : Option FrameId) (bindings : List (Text × Value)) :
    (x.store s).newFrameWith (parent.map x.frame) (bindings.map (Prod.map id x.value)) =
      (x.frame s.frames.size, x.store (s.newFrameWith parent bindings).2) := by
  unfold Store.newFrameWith
  rw [newFrame_store]
  dsimp only
  rw [defineAll_store]
  rfl

/-- The globals of a program are the same everywhere. -/
theorem newGlobals_store :
    (x.store s).newGlobals = (x.frame s.frames.size, x.store s.newGlobals.2) := by
  have h := newFrameWith_store (x := x) (s := s) none
    (NativeFunction.all.map fun fn => (fn.name, .native fn))
  rw [List.map_map] at h
  exact h

theorem bind_store (m : Closure) :
    (x.store s).bind (x.closure m) (x.value v) =
      (x.closure (s.bind m v).1, x.store (s.bind m v).2) := by
  unfold Store.bind
  have h := newFrameWith_store (x := x) (s := s) (some m.frame) [("this", v)]
  exact congrArg (fun p : FrameId × Store => ({ x.closure m with frame := p.1 }, p.2)) h

/-! ### Classes -/

@[simp] theorem classes_store :
    (x.store s).classes[x.classId c]? = s.classes[c]?.map x.classInfo := by
  simp [store, classId, Array.getElem?_append_right]

@[simp] theorem size_classes_store : (x.store s).classes.size = x.classId s.classes.size := by
  simp [store, classId]

theorem classes_store_of_lt (hc : c < x.base.classes.size) :
    (x.store s).classes[c]? = x.base.classes[c]? :=
  Array.getElem?_append_left hc

theorem methodsWhere_map (p : Closure → Bool) (hp : ∀ m, p (x.closure m) = p m)
    (methods : Table Closure) :
    Store.methodsWhere p (methods.map x.closure) =
      (Store.methodsWhere p methods).map x.closure := by
  unfold Store.methodsWhere Table.map
  dsimp only
  rw [List.filter_map]
  congr 3
  exact funext fun entry => hp entry.2

theorem newClass_store (name : Text) (superclass : Option ClassId) (methods : Table Closure) :
    (x.store s).newClass name (superclass.map x.classId) (methods.map x.closure) =
      (x.classId (s.newClass name superclass methods).1,
        x.store (s.newClass name superclass methods).2) := by
  have hmeta : ((superclass.map x.classId).bind ((x.store s).classes[·]?)).bind
        ClassInfo.metaclass =
      ((superclass.bind (s.classes[·]?)).bind ClassInfo.metaclass).map x.classId := by
    cases superclass with
    | none => rfl
    | some c =>
      simp only [Option.map_some, Option.bind_some, classes_store]
      cases s.classes[c]? <;> rfl
  have hwhere := methodsWhere_map (x := x) Store.isStatic (fun _ => rfl) methods
  have hwhere' := methodsWhere_map (x := x) (fun m => !Store.isStatic m) (fun _ => rfl) methods
  have hempty : ((Store.methodsWhere Store.isStatic methods).map x.closure).entries.isEmpty =
      (Store.methodsWhere Store.isStatic methods).entries.isEmpty := by
    simp [Table.map]
  unfold Store.newClass
  dsimp only
  rw [hmeta, hwhere, hwhere', hempty, Option.isNone_map, size_classes_store]
  split
  · simp [store, classInfo]
  · simp [store, classInfo, classId, Nat.add_assoc]

theorem findMethodFrom_store (bound : Nat) :
    (x.store s).findMethodFrom y bound (x.classId c) =
      (s.findMethodFrom y bound c).map x.closure := by
  induction bound generalizing c with
  | zero =>
    simp only [Store.findMethodFrom, classes_store]
    cases s.classes[c]? with
    | none => rfl
    | some info => exact Table.find?_map x.closure info.methods y
  | succ bound ih =>
    simp only [Store.findMethodFrom, classes_store]
    cases s.classes[c]? with
    | none => rfl
    | some info =>
      simp only [Option.map_some, classInfo, Table.find?_map]
      cases info.methods.find? y with
      | some m => rfl
      | none =>
        cases info.superclass with
        | none => rfl
        | some d => exact ih

theorem className_store : (x.store s).className (x.classId c) = s.className c := by
  unfold Store.className
  rw [classes_store]
  cases s.classes[c]? <;> rfl

theorem setClassField_store :
    (x.store s).setClassField (x.classId c) y (x.value v) = x.store (s.setClassField c y v) := by
  unfold Store.setClassField store
  congr 1
  dsimp only [classId]
  refine modify_append_map _ _ (fun info => ?_) c
  simp [classInfo]

/-! ### Instances -/

variable {i : InstanceId}

@[simp] theorem instances_store :
    (x.store s).instances[x.instanceId i]? = s.instances[i]?.map x.instanceInfo := by
  simp [store, instanceId, Array.getElem?_append_right]

theorem instances_store_of_lt (hi : i < x.base.instances.size) :
    (x.store s).instances[i]? = x.base.instances[i]? :=
  Array.getElem?_append_left hi

theorem newInstance_store :
    (x.store s).newInstance (x.classId c) =
      (x.instanceId s.instances.size, x.store (s.newInstance c).2) := by
  unfold Store.newInstance
  simp [store, instanceId, instanceInfo]

theorem setInstanceField_store :
    (x.store s).setInstanceField (x.instanceId i) y (x.value v) =
      x.store (s.setInstanceField i y v) := by
  unfold Store.setInstanceField store
  congr 1
  dsimp only [instanceId]
  refine modify_append_map _ _ (fun info => ?_) i
  simp [instanceInfo]

/-! ### Values seen through a store -/

theorem render_store : (x.store s).render (x.value v) = s.render v := by
  cases v with
  | classRef c => exact congrArg (fun t : Text => "<class " ++ t ++ ">") className_store
  | instanceRef i =>
    simp only [value, Store.render, instances_store]
    cases s.instances[i]? with
    | none => rfl
    | some info =>
      exact congrArg (fun t : Text => "<" ++ t ++ " instance>") className_store
  | _ => rfl

theorem dump_store : (x.store s).dump (x.frame e) = s.dump e := by
  unfold Store.dump
  rw [names_store]
  congr 1
  funext y
  rw [lookup_store]
  cases s.lookup e y with
  | none => rfl
  | some v =>
    have hr := render_store (x := x) (s := s) (v := v)
    cases v with
    | native fn => rfl
    | _ => exact congrArg (fun t => some (y, _, t)) hr

theorem number_of_value {a : Float} (h : x.value v = .number a) : v = .number a := by
  cases v <;> first | exact h | cases h

/-- Numbers are not placed anywhere. -/
theorem onNumbers_map (op : BinaryOp) (a b : Float) :
    (op.onNumbers a b).map x.value = op.onNumbers a b := by
  cases op with
  | divide | modulo =>
    unfold BinaryOp.onNumbers
    dsimp only
    split <;> rfl
  | _ => rfl

theorem apply_binary_store (op : BinaryOp) (left right : Value) :
    op.apply (x.store s) (x.value left) (x.value right) =
      (op.apply s left right).map x.value := by
  have back : (∀ a b, left = .number a → right = .number b → False) →
      ∀ a b, x.value left = .number a → x.value right = .number b → False :=
    fun hn a b ha hb => hn a b (number_of_value ha) (number_of_value hb)
  fun_cases BinaryOp.apply s op left right with
  | case1 => rfl
  | case2 op a b hop =>
    rw [onNumbers_map]
    exact BinaryOp.apply.eq_2 _ _ _ _ hop
  | case3 left right hs hn | case4 left right hs hn =>
    rw [BinaryOp.apply.eq_3 _ _ _ (back hn)]
    simp only [kind_value, render_store, hs, if_true]
    rfl
  | case5 op left right hop hplus hn =>
    rw [BinaryOp.apply.eq_4 _ _ _ _ hop hplus (back hn)]
    rfl

variable (x) in
/-- A property after the placement. -/
def property : Store.Property → Store.Property
  | .value v => .value (x.value v)
  | .method m => .method (x.closure m)
  | .undefined => .undefined
  | .noProperties => .noProperties

theorem ofMethod?_map (m? : Option Closure) :
    .ofMethod? (m?.map x.closure) = x.property (.ofMethod? m?) := by
  cases m? <;> rfl

section

variable (h : s.Ordered)

include h

theorem findMethod_store :
    (x.store s).findMethod (x.classId c) y = (s.findMethod c y).map x.closure := by
  have hle : c ≤ x.classId c := Nat.le_add_left c _
  unfold Store.findMethod
  rw [findMethodFrom_store, h.classes.findMethodFrom_eq hle]
  rfl

theorem findStatic_store :
    (x.store s).findStatic (x.classId c) y = (s.findStatic c y).map x.closure := by
  unfold Store.findStatic
  rw [classes_store]
  cases s.classes[c]? with
  | none => rfl
  | some info =>
    simp only [Option.map_some, Option.bind_some, classInfo]
    cases info.metaclass with
    | none => rfl
    | some d => exact findMethod_store h

theorem inherited_store (receiver : Value) :
    (x.store s).inherited (x.classId c) (x.value receiver) y =
      (s.inherited c receiver y).map x.closure := by
  cases receiver with
  | classRef d => exact findStatic_store h
  | _ => exact findMethod_store h

theorem arity?_store : (x.store s).arity? (x.value v) = s.arity? v := by
  cases v with
  | function m => exact congrArg some (arity_closure m)
  | classRef c =>
    simp only [value, Store.arity?, findMethod_store h]
    cases s.findMethod c "init" with
    | none => rfl
    | some m => exact congrArg some (arity_closure m)
  | _ => rfl

theorem property_store (object : Value) :
    (x.store s).property (x.value object) y = x.property (s.property object y) := by
  cases object with
  | moduleRef m =>
    simp only [value, moduleInfo, Store.property, lookup_store]
    cases s.lookup m.globals y <;> rfl
  | classRef c =>
    simp only [value, Store.property, classes_store, findStatic_store h]
    cases s.classes[c]? with
    | none => exact ofMethod?_map _
    | some info =>
      simp only [Option.map_some, Option.bind_some, classInfo, Table.find?_map]
      cases info.fields.find? y with
      | none => exact ofMethod?_map _
      | some v => rfl
  | instanceRef i =>
    simp only [value, Store.property, instances_store]
    cases s.instances[i]? with
    | none => rfl
    | some info =>
      simp only [Option.map_some, instanceInfo, Table.find?_map, findMethod_store h]
      cases info.fields.find? y with
      | none => exact ofMethod?_map _
      | some v => rfl
  | _ => rfl

end

/-! ### No change -/

/-- The placement behind nothing, on the same lines. -/
def unmoved : Placement := ⟨id, {}⟩

@[simp] theorem frame_unmoved : unmoved.frame = id := funext fun _ => Nat.zero_add _

@[simp] theorem classId_unmoved : unmoved.classId = id := funext fun _ => Nat.zero_add _

@[simp] theorem instanceId_unmoved : unmoved.instanceId = id := funext fun _ => Nat.zero_add _

@[simp] theorem closure_unmoved : unmoved.closure = id := by
  funext m
  obtain ⟨name, kind, fn, frame, initializer⟩ := m
  simp [closure, show unmoved.line = id from rfl]

@[simp] theorem value_unmoved : unmoved.value = id := by
  funext v
  cases v <;> simp [value, moduleInfo]

@[simp] theorem frameInfo_unmoved : unmoved.frameInfo = id := by
  funext f
  simp [frameInfo]

@[simp] theorem classInfo_unmoved : unmoved.classInfo = id := by
  funext info
  simp [classInfo]

@[simp] theorem instanceInfo_unmoved : unmoved.instanceInfo = id := by
  funext info
  simp [instanceInfo]

@[simp] theorem store_unmoved : unmoved.store = id := by
  funext s
  simp [store, show unmoved.base = {} from rfl]

end Placement

end Lox
