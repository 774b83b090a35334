import Lox.Proofs.Machine.Depth
import Lox.Proofs.Machine.Proper

/-!
# Frames that a step writes to

Statements are executed in the frames of programs and modules, of blocks and of calls. The frame
that gives a method its receiver is not one of these, and neither is the one that gives the methods
of a class their superclass: each of them is created with the one name that it binds. A step writes
to frames in which statements are executed and to the one to which it assigns, and to no others.
-/

namespace Lox

/-- Whether a frame is opened for a receiver or for a superclass. -/
def Origin.isSealed : Origin → Bool
  | receiver _ => true
  | superclass _ => true
  | _ => false

/-- What a sealed frame holds: the receiver of a method, or the superclass of methods that are
declared in a frame. -/
inductive Seal where
  | receiver (method : Closure) (v : Value)
  | superclass (methods : List (Method Address)) (env : FrameId) (c : ClassId)

namespace Seal

/-- What the frame is opened for. -/
def origin : Seal → Origin
  | receiver method _ => .receiver method.fn
  | superclass methods _ _ => .superclass methods

/-- The frame itself, with the one name that it binds. -/
def frame : Seal → Frame
  | receiver method v => ⟨some method.frame, .single "this" v⟩
  | superclass _ env c => ⟨some env, .single "super" (.classRef c)⟩

theorem isSealed_origin (held : Seal) : held.origin.isSealed = true := by
  cases held <;> rfl

/-- The one name of a sealed frame is no identifier. -/
theorem not_isIdentifier {held : Seal} {x : Text} {v : Value}
    (h : held.frame.bindings.find? x = some v) : ¬ x.IsIdentifier := by
  intro hx
  cases held with
  | receiver method v => exact hx.ne_this (Table.eq_of_find?_single h)
  | superclass methods env c => exact hx.ne_super (Table.eq_of_find?_single h)

end Seal

/-! ### Frames in stores -/

namespace Store

variable {s : Store} {e e' : FrameId} {x : Text} {v : Value} {parent : Option FrameId}

theorem frames_define_of_ne (h : e' ≠ e) : (s.define e x v).frames[e']? = s.frames[e']? := by
  unfold define
  rw [Array.getElem?_modify, if_neg (Ne.symm h)]

theorem frames_newFrame_of_lt (h : e < s.frames.size) :
    (s.newFrame parent).2.frames[e]? = s.frames[e]? := by
  unfold newFrame
  rw [Array.getElem?_push, if_neg (Nat.ne_of_lt h)]

theorem frames_newFrameWith_of_lt (h : e < s.frames.size) (bindings : List (Text × Value)) :
    (s.newFrameWith parent bindings).2.frames[e]? = s.frames[e]? := by
  have defineAll : ∀ s' : Store,
      (s'.defineAll s.frames.size bindings).frames[e]? = s'.frames[e]? := by
    induction bindings with
    | nil => exact fun _ => rfl
    | cons b bindings ih =>
      intro s'
      exact (ih _).trans (frames_define_of_ne (Nat.ne_of_lt h))
  exact (defineAll _).trans (frames_newFrame_of_lt h)

/-- A new frame that binds a single name holds nothing else. -/
theorem frames_newFrameWith_single :
    (s.newFrameWith parent [(x, v)]).2.frames[s.frames.size]? = some ⟨parent, .single x v⟩ := by
  change ((s.newFrame parent).2.define s.frames.size x v).frames[s.frames.size]? = _
  unfold define newFrame
  rw [Array.getElem?_modify, if_pos rfl, Array.getElem?_push, if_pos rfl]
  rfl

end Store

/-! ### Occupied frames -/

/-- The frame in which a statement goes on with the value that it waits for. -/
def Use.place? : Use → Option FrameId
  | .define _ env => some env
  | .branch _ _ env => some env
  | .test _ _ env => some env
  | _ => none

/-- The frame in which statements go on after the one that is waited for. -/
def Resume.place? : Resume → Option FrameId
  | .block _ env => some env
  | .loop _ _ env => some env
  | .program _ env => some env
  | .call _ demand => demand.use.place?
  | .importing i => some i.env

/-- Something that waits goes on in a frame. -/
def Resume.Occupy (rest : List Resume) (e : FrameId) : Prop := ∃ r ∈ rest, r.place? = some e

/-- Something that waits for a value, or for a statement around it, goes on in a frame. -/
def Demand.Occupies (d : Demand) (rest : List Resume) (e : FrameId) : Prop :=
  d.use.place? = some e ∨ Resume.Occupy rest e

theorem Resume.occupy_cons {r : Resume} {rest : List Resume} {e : FrameId} :
    Resume.Occupy (r :: rest) e ↔ r.place? = some e ∨ Resume.Occupy rest e := by
  simp [Resume.Occupy]

namespace State

/-- A statement is executed in a frame, or will be. -/
def Occupies : State → FrameId → Prop
  | eval _ _ demand rest _, e => demand.Occupies rest e
  | value _ demand rest _, e => demand.Occupies rest e
  | exec _ env rest _, e => env = e ∨ Resume.Occupy rest e
  | flow _ rest _, e => Resume.Occupy rest e
  | fail _ rest _, e => Resume.Occupy rest e

/-- The frame in which the next step gives a new value to a name. -/
def assigns? : State → Option FrameId
  | value _ ⟨.assign mark ref env :: _, _⟩ _ w => w.store.writable env ref mark.lexeme
  | _ => none

/-! ### Seals -/

/-- The receiver of a method found as a property. -/
def sealsProperty (object : Value) (x : Text) (w : World) : Option Seal :=
  match w.store.property object x with
  | .method method => some (.receiver method object)
  | _ => none

/-- The receiver of a method found in a superclass. -/
def sealsInherited (method : Mark) (ref : Address) (env : FrameId) (w : World) : Option Seal :=
  match ref with
  | none => none
  | some d =>
    match w.store.getAt env d "super" with
    | some (.classRef superclass) =>
      match w.store.getAt env (d - 1) "this" with
      | none => none
      | some receiver => (w.store.inherited superclass receiver method.lexeme).map (.receiver · receiver)
    | _ => none

/-- The new instance, as the receiver of the initializer of its class. -/
def sealsCall (callee : Value) (arguments : List Value) (w : World) : Option Seal :=
  if w.store.arity? callee = some arguments.length then
    match callee with
    | .classRef c =>
      (w.store.findMethod c "init").map (.receiver · (.instanceRef w.store.instances.size))
    | _ => none
  else none

/-- The superclass around the methods of a class. -/
def sealsClass (superclass : Option (Mark × Address)) (methods : List (Method Address))
    (env : FrameId) (w : World) : Option Seal :=
  match findSuperclass w.store env superclass with
  | .ok (some c) => some (.superclass methods env c)
  | _ => none

/-- The sealed frame that the next step creates. -/
def seals? : State → Option Seal
  | eval (.inherited _ method ref) env _ _ w => sealsInherited method ref env w
  | value v ⟨.get property :: _, _⟩ _ w => sealsProperty v property.lexeme w
  | value v ⟨.callee _ [] _ :: _, _⟩ _ w => sealsCall v [] w
  | value v ⟨.argument callee _ done [] _ :: _, _⟩ _ w => sealsCall callee (v :: done).reverse w
  | exec (.classDecl _ superclass methods) env _ w => sealsClass superclass methods env w
  | _ => none

/-- Frames are opened for a seal, if there is one, and then for things that need none. -/
def OpensFor (sealed : Option Seal) (opened : List Origin) : Prop :=
  ∃ more, opened = sealed.toList.map Seal.origin ++ more ∧ ∀ o ∈ more, o.isSealed = false

section

variable {host : Host} {w : World} {env : FrameId}

/-- Only the first frame can be a sealed one. -/
theorem OpensFor.eq_zero {sealed : Option Seal} {opened : List Origin} (h : OpensFor sealed opened)
    {k : Nat} {o : Origin} (ho : opened[k]? = some o) (hs : o.isSealed = true) :
    k = 0 ∧ ∃ held, sealed = some held ∧ held.origin = o := by
  obtain ⟨more, rfl, hmore⟩ := h
  have hfirst : o ∉ more := by
    intro hmem
    have hfree := hmore o hmem
    rw [hs] at hfree
    cases hfree
  cases sealed with
  | none => exact absurd (List.mem_of_getElem? ho) hfirst
  | some held =>
    cases k with
    | zero => exact ⟨rfl, held, rfl, Option.some.inj ho⟩
    | succ k =>
      have hlater : more[k]? = some o := ho
      exact absurd (List.mem_of_getElem? hlater) hfirst

theorem OpensFor.eq_none {sealed : Option Seal} (h : OpensFor sealed []) : sealed = none := by
  obtain ⟨more, heq, -⟩ := h
  cases sealed with
  | none => rfl
  | some held => cases heq

theorem opensFor_none {opened : List Origin} (h : ∀ o ∈ opened, o.isSealed = false) :
    OpensFor none opened :=
  ⟨opened, rfl, h⟩

theorem not_isSealed_opensBody (host : Host) (closure : Closure) (w : World) :
    ∀ o ∈ opensBody host closure w, o.isSealed = false := by
  unfold opensBody
  split
  · exact List.forall_mem_nil _
  · exact List.forall_mem_singleton.mpr rfl

theorem opensFor_property (object : Value) (x : Text) :
    OpensFor (sealsProperty object x w) (opensProperty object x w) := by
  unfold sealsProperty opensProperty
  cases w.store.property object x with
  | method method => exact ⟨[], rfl, List.forall_mem_nil _⟩
  | _ => exact opensFor_none (List.forall_mem_nil _)

/-- A method of a superclass is found and bound to the receiver, or nothing is opened and the
expression fails. -/
theorem inherited_cases (method : Mark) (ref : Address) (env : FrameId) (w : World) :
    (∃ closure receiver, sealsInherited method ref env w = some (.receiver closure receiver) ∧
      opensInherited method ref env w = [.receiver closure.fn] ∧
      ∀ keyword demand rest, getInherited keyword method ref env demand rest w =
        bindMethod closure receiver demand rest w) ∨
    sealsInherited method ref env w = none ∧ opensInherited method ref env w = [] ∧
      ∀ keyword demand rest, ∃ f, getInherited keyword method ref env demand rest w =
        fail f rest w := by
  unfold sealsInherited opensInherited getInherited
  cases ref with
  | none => exact .inr ⟨rfl, rfl, fun _ _ _ => ⟨_, rfl⟩⟩
  | some d =>
    dsimp only
    cases w.store.getAt env d "super" with
    | none => exact .inr ⟨rfl, rfl, fun _ _ _ => ⟨_, rfl⟩⟩
    | some found =>
      cases found with
      | classRef superclass =>
        dsimp only
        cases w.store.getAt env (d - 1) "this" with
        | none => exact .inr ⟨rfl, rfl, fun _ _ _ => ⟨_, rfl⟩⟩
        | some receiver =>
          dsimp only
          cases w.store.inherited superclass receiver method.lexeme with
          | none => exact .inr ⟨rfl, rfl, fun _ _ _ => ⟨_, rfl⟩⟩
          | some closure => exact .inl ⟨closure, receiver, rfl, rfl, fun _ _ _ => rfl⟩
      | _ => exact .inr ⟨rfl, rfl, fun _ _ _ => ⟨_, rfl⟩⟩

theorem opensFor_inherited (method : Mark) (ref : Address) :
    OpensFor (sealsInherited method ref env w) (opensInherited method ref env w) := by
  rcases inherited_cases method ref env w with ⟨closure, receiver, hseals, hopens, -⟩ |
    ⟨hseals, hopens, -⟩
  · rw [hseals, hopens]
    exact ⟨[], rfl, List.forall_mem_nil _⟩
  · rw [hseals, hopens]
    exact opensFor_none (List.forall_mem_nil _)

theorem opensFor_call (callee : Value) (arguments : List Value) :
    OpensFor (sealsCall callee arguments w) (opensCall host callee arguments w) := by
  unfold sealsCall opensCall
  split
  · cases callee with
    | function closure => exact opensFor_none (not_isSealed_opensBody host closure w)
    | classRef c =>
      dsimp only [opensInstance]
      cases w.store.findMethod c "init" with
      | none => exact opensFor_none (List.forall_mem_nil _)
      | some method => exact ⟨_, rfl, not_isSealed_opensBody host method w⟩
    | _ => exact opensFor_none (List.forall_mem_nil _)
  · exact opensFor_none (List.forall_mem_nil _)

theorem opensFor_class (superclass : Option (Mark × Address)) (methods : List (Method Address)) :
    OpensFor (sealsClass superclass methods env w) (opensClass superclass methods env w) := by
  unfold sealsClass opensClass
  cases findSuperclass w.store env superclass with
  | error found => exact opensFor_none (List.forall_mem_nil _)
  | ok c? =>
    cases c? with
    | none => exact opensFor_none (List.forall_mem_nil _)
    | some c => exact ⟨[], rfl, List.forall_mem_nil _⟩

theorem not_isSealed_opensImport (host : Host) (path : Token) (w : World) :
    ∀ o ∈ opensImport host path w, o.isSealed = false := by
  unfold opensImport
  repeat' split
  all_goals first
    | exact List.forall_mem_nil _
    | exact List.forall_mem_singleton.mpr rfl

end

/-- A step creates at most one sealed frame, before any other. -/
theorem opens_eq (host : Host) (s : State) : OpensFor s.seals? (s.opens host) := by
  cases s with
  | eval e env demand rest w =>
    cases e with
    | inherited keyword method ref => exact opensFor_inherited method ref
    | _ => exact opensFor_none (List.forall_mem_nil _)
  | value v demand rest w =>
    obtain ⟨pending, use⟩ := demand
    cases pending with
    | nil => exact opensFor_none (List.forall_mem_nil _)
    | cons p pending =>
      cases p with
      | get property => exact opensFor_property v property.lexeme
      | callee paren arguments env =>
        cases arguments with
        | nil => exact opensFor_call v []
        | cons e more => exact opensFor_none (List.forall_mem_nil _)
      | argument callee paren done more env =>
        cases more with
        | nil => exact opensFor_call callee (v :: done).reverse
        | cons e more => exact opensFor_none (List.forall_mem_nil _)
      | _ => exact opensFor_none (List.forall_mem_nil _)
  | exec stmt env rest w =>
    cases stmt with
    | block body => exact opensFor_none (List.forall_mem_singleton.mpr rfl)
    | classDecl name superclass methods => exact opensFor_class superclass methods
    | importDecl path asName => exact opensFor_none (not_isSealed_opensImport host path w)
    | _ => exact opensFor_none (List.forall_mem_nil _)
  | flow f rest w => exact opensFor_none (List.forall_mem_nil _)
  | fail f rest w => exact opensFor_none (List.forall_mem_nil _)

/-! ### What a step does to frames -/

/-- What becomes of the frames of a store when a state is reached. Frames that are occupied were in
`P`, or they are new and not sealed; frames that were there and not in `W` are as they were; and the
sealed frame is there. -/
structure Treatment (P W : FrameId → Prop) (store : Store) (opened : List Origin)
    (sealed : Option Seal) (t : State) : Prop where
  occupied : ∀ e, t.Occupies e →
    P e ∨ ∃ k o, opened[k]? = some o ∧ o.isSealed = false ∧ e = store.frames.size + k
  kept : ∀ e < store.frames.size, ¬ W e → t.world.store.frames[e]? = store.frames[e]?
  holds : ∀ held, sealed = some held →
    t.world.store.frames[store.frames.size]? = some held.frame

section

variable {P W : FrameId → Prop} {w : World} {env : FrameId} {demand : Demand} {rest : List Resume}
variable {store : Store} {sealed : Option Seal} {t : State}

/-- Nothing happens to the frames. -/
theorem Treatment.still (hs : OpensFor sealed []) (h : ∀ e, t.Occupies e → P e)
    (hframes : t.world.store.frames = store.frames) : Treatment P W store [] sealed t where
  occupied e he := .inl (h e he)
  kept e _ _ := by rw [hframes]
  holds _ := by
    rw [hs.eq_none]
    rintro ⟨⟩

/-- A frame is written to. -/
theorem Treatment.writes {x : Text} {v : Value} (hs : OpensFor sealed [])
    (h : ∀ e, t.Occupies e → P e) (hw : W env)
    (hframes : t.world.store.frames = (store.define env x v).frames) :
    Treatment P W store [] sealed t where
  occupied e he := .inl (h e he)
  kept e _ he := by
    rw [hframes]
    refine Store.frames_define_of_ne ?_
    rintro rfl
    exact he hw
  holds _ := by
    rw [hs.eq_none]
    rintro ⟨⟩

/-! ### Methods and calls -/

section

variable (hd : ∀ e, demand.Occupies rest e → P e)

include hd

theorem treatment_bindMethod (method : Closure) (receiver : Value) :
    Treatment P W w.store [.receiver method.fn] (some (.receiver method receiver))
      (bindMethod method receiver demand rest w) where
  occupied e he := .inl (hd e he)
  kept e he _ := Store.frames_newFrameWith_of_lt he _
  holds := by
    rintro _ ⟨⟩
    exact Store.frames_newFrameWith_single

/-- A body is executed in a frame of its own. -/
theorem occupies_entered {closure : Closure} {arguments : List Value} {e : FrameId}
    (he : (entered closure arguments demand rest w).Occupies e) :
    P e ∨ e = w.store.frames.size := by
  rcases Resume.occupy_cons.mp he with heq | he
  · exact .inr (Option.some.inj heq).symm
  · exact .inl (hd e (Resume.occupy_cons.mp he))

theorem treatment_entered (closure : Closure) (arguments : List Value) :
    Treatment P W w.store [.call closure.fn] none (entered closure arguments demand rest w) where
  occupied e he := (occupies_entered hd he).imp_right fun heq => ⟨0, _, rfl, rfl, heq⟩
  kept e he _ := Store.frames_newFrameWith_of_lt he _
  holds _ := by rintro ⟨⟩

end

section

variable (c : ClassId) (method : Closure)

theorem frames_initialized_of_lt {e : FrameId} (he : e < store.frames.size) :
    (initialized store c method).frames[e]? = store.frames[e]? :=
  Store.frames_newFrameWith_of_lt (s := (store.newInstance c).2) he _

theorem frames_initialized :
    (initialized store c method).frames[store.frames.size]? =
      some (Seal.receiver method (.instanceRef store.instances.size)).frame :=
  Store.frames_newFrameWith_single (s := (store.newInstance c).2)

/-- An initializer gets a frame for its receiver, and then one for its body. -/
theorem treatment_construct (hd : ∀ e, demand.Occupies rest e → P e) (arguments : List Value) :
    Treatment P W w.store [.receiver method.fn, .call method.fn]
      (some (.receiver method (.instanceRef w.store.instances.size)))
      (entered { method with frame := w.store.frames.size } arguments demand rest
        { w with store := initialized w.store c method }) := by
  have hsize : (initialized w.store c method).frames.size = w.store.frames.size + 1 :=
    Store.size_newFrameWith
  refine ⟨fun e he => ?_, fun e he _ => ?_, ?_⟩
  · exact (occupies_entered hd he).imp_right fun heq => ⟨1, _, rfl, rfl, heq.trans hsize⟩
  · exact (Store.frames_newFrameWith_of_lt (hsize ▸ Nat.lt_succ_of_lt he) _).trans
      (frames_initialized_of_lt c method he)
  · rintro _ ⟨⟩
    exact (Store.frames_newFrameWith_of_lt (hsize ▸ Nat.lt_succ_self _) _).trans
      (frames_initialized c method)

end

/-! ### Classes -/

theorem frames_classFrame_of_lt {e : FrameId} (he : e < w.store.frames.size) (hne : e ≠ env)
    (name : Mark) (c? : Option ClassId) :
    (classFrame w name env c?).2.store.frames[e]? = w.store.frames[e]? := by
  have hnil := Store.frames_define_of_ne (s := w.store) (x := name.lexeme) (v := .nil) hne
  cases c? with
  | none => exact hnil
  | some c => exact (Store.frames_newFrameWith_of_lt (by simpa using he) _).trans hnil

/-- The class is bound where it is declared, which is not the frame around its methods. -/
theorem treatment_class (name : Mark) {superclass : Option (Mark × Address)}
    {methods : List (Method Address)} {c? : Option ClassId}
    (hfind : findSuperclass w.store env superclass = .ok c?) (hlt : env < w.store.frames.size)
    (hw : W env) (ht : ∀ e, t.Occupies e → P e)
    (hframes : ∀ e ≠ env, t.world.store.frames[e]? =
      (classFrame w name env c?).2.store.frames[e]?) :
    Treatment P W w.store (if c?.isSome then [.superclass methods] else [])
      (sealsClass superclass methods env w) t := by
  refine ⟨fun e he => .inl (ht e he), fun e he hwe => ?_, ?_⟩
  · have hne : e ≠ env := by
      rintro rfl
      exact hwe hw
    rw [hframes e hne, frames_classFrame_of_lt he hne]
  · unfold sealsClass
    rw [hfind]
    cases c? with
    | none => rintro _ ⟨⟩
    | some c =>
      rintro _ ⟨⟩
      rw [hframes _ (Nat.ne_of_gt hlt), ← Store.size_define]
      exact Store.frames_newFrameWith_single

end

/-! ### Steps -/

section

variable {v : Value} {p : Pending} {ps : List Pending} {u : Use} {rest : List Resume} {w : World}
variable {paren : Mark} {done : List Value} {env : FrameId}

theorem seals?_of_call? {s : State} {callee : Value} {arguments : List Value}
    (hc : s.call? = some (paren, callee, arguments)) :
    s.seals? = sealsCall callee arguments s.world := by
  unfold call? at hc
  split at hc
  · cases hc
    rfl
  · cases hc
    rfl
  · cases hc

theorem seals?_function {closure : Closure}
    (h : p.call? v = some (.function closure, paren, done, [], env)) :
    (value v ⟨p :: ps, u⟩ rest w).seals? = none := by
  rw [seals?_of_call? (call?_of_call h)]
  unfold sealsCall
  split <;> rfl

theorem seals?_construct {c : ClassId} {method : Closure}
    (h : p.call? v = some (.classRef c, paren, done, [], env))
    (hm : w.store.findMethod c "init" = some method) (hlen : done.length = method.fn.arity) :
    (value v ⟨p :: ps, u⟩ rest w).seals? =
      some (.receiver method (.instanceRef w.store.instances.size)) := by
  simp [seals?_of_call? (call?_of_call h), sealsCall, Store.arity?, State.world, hm, hlen]

end

theorem Occupies.of_waiting {s : State} {e : FrameId} (h : Resume.Occupy s.waiting e) :
    s.Occupies e := by
  cases s with
  | flow f rest w | fail f rest w => exact h
  | _ => exact .inr h

theorem place_part {stmt : Stmt Address} {env e : FrameId} {expr : Expr Address} {u : Use}
    (h : stmt.part? env = some (expr, u)) (hu : u.place? = some e) : env = e := by
  unfold Stmt.part? at h
  split at h <;> cases h <;> cases hu <;> rfl

/-- What a step does to frames. It writes only to frames that are occupied and to the one to which
it assigns. -/
theorem treatment_step {host : Host} {d : Nat} {s : State} (h : s.Within d) :
    Treatment s.Occupies (fun e => s.Occupies e ∨ s.assigns? = some e) s.world.store (s.opens host)
      s.seals? (s.step host) := by
  have hmove := moves_step host s
  have hs := opens_eq host s
  generalize s.opens host = opened, s.step host = s' at hmove hs ⊢
  cases hmove with
  -- expressions
  | inherited hsuper hthis hm =>
    simp only [seals?, sealsInherited, hsuper, hthis, hm, Option.map_some]
    refine treatment_bindMethod (fun _ he => ?_) _ _
    exact he
  | method hp =>
    simp only [seals?, sealsProperty, hp]
    refine treatment_bindMethod (fun _ he => ?_) _ _
    exact he
  | assign he => exact .writes hs (fun _ he => he) (.inr he) rfl
  -- calls
  | call hp =>
    rw [seals?_function hp]
    refine treatment_entered (fun _ he => ?_) _ _
    exact he
  | construct hp hm hlen =>
    rw [seals?_construct hp hm hlen]
    refine treatment_construct _ _ (fun _ he => ?_) _
    exact he
  | @constructOverflow _ _ c _ _ _ _ _ _ w method hp hm hlen =>
    rw [seals?_construct hp hm hlen]
    refine ⟨fun e he => .inl (.inr he), fun e he _ => frames_initialized_of_lt c method he, ?_⟩
    rintro _ ⟨⟩
    exact frames_initialized c method
  -- statements that have their value
  | defined => exact .writes hs (fun _ he => .inr he) (.inl (.inl rfl)) rfl
  | branch => exact .still hs (fun _ he => he.imp_left (congrArg some)) rfl
  | round =>
    refine .still hs (fun _ he => ?_) rfl
    rcases he with rfl | he
    · exact .inl rfl
    · exact Resume.occupy_cons.mp he
  | shown _ hw =>
    refine .still hs (fun _ he => .inr he) ?_
    rcases hw with rfl | rfl <;> rfl
  -- statements
  | demand hp => exact .still hs (fun _ he => he.imp_left (place_part hp)) rfl
  | bind => exact .writes hs (fun _ he => .inr he) (.inl (.inl rfl)) rfl
  | block =>
    refine ⟨fun e he => ?_, fun e he _ => Store.frames_newFrame_of_lt he, by rintro _ ⟨⟩⟩
    rcases Resume.occupy_cons.mp he with heq | he
    · exact .inr ⟨0, _, rfl, rfl, (Option.some.inj heq).symm⟩
    · exact .inl (.inr he)
  | @declareClass name _ _ _ _ w c? table hfind =>
    refine treatment_class name hfind h.2 (.inl (.inl rfl)) (fun _ he => .inr he) fun e he => ?_
    exact (Store.frames_define_of_ne he).trans (by rw [Store.frames_newClass]; rfl)
  | repeatMethod hfind =>
    exact treatment_class _ hfind h.2 (.inl (.inl rfl)) (fun _ he => .inr he) fun _ _ => rfl
  | load =>
    refine ⟨fun e he => ?_, fun e he _ => Store.frames_newFrameWith_of_lt he _, by rintro _ ⟨⟩⟩
    rcases Resume.occupy_cons.mp he with heq | he
    · exact .inr ⟨0, _, rfl, rfl, (Option.some.inj heq).symm⟩
    · exact .inl ((Resume.occupy_cons.mp he).imp_left Option.some.inj)
  -- statements that have finished
  | next | nextTop =>
    refine .still hs (fun _ he => ?_) rfl
    rcases he with rfl | he
    · exact Resume.occupy_cons.mpr (.inl rfl)
    · rw [Occupies, Resume.occupy_cons] at *
      exact he
  | again | answer => exact .still hs (fun _ he => Resume.occupy_cons.mpr he) rfl
  | leave | broke | returned | leaveTop =>
    exact .still hs (fun _ he => Resume.occupy_cons.mpr (.inr he)) rfl
  | imported =>
    exact .writes hs (fun _ he => Resume.occupy_cons.mpr (.inr he))
      (.inl (Resume.occupy_cons.mpr (.inl rfl))) rfl
  -- failures and ends
  | callOverflow | noInput | redeclare | noLoad | noBranch | noRound | result | ret | brk =>
    exact .still hs (fun _ he => .inr he) rfl
  | fails => exact .still hs (fun _ he => .of_waiting he) rfl
  | @unwind f r =>
    cases r <;> exact .still hs (fun _ he => Resume.occupy_cons.mpr (.inr he)) rfl
  | _ => exact .still hs (fun _ he => he) rfl

end State

end Lox
