import Lox.Proofs.Machine.History
import Lox.Proofs.Scope.Inheritance

/-!
# What `super` finds

A `super` stands in a method of a class with a superclass. Wherever it is evaluated, in whatever
closure and however late, the frames around it lead to the frame of the receiver that the method was
bound to and, around that, to the frame of the superclass that was found when the class was declared.
So it looks for its method from that superclass on and binds it to that receiver, whatever class the
receiver is an instance of; and the only way for it to fail is that there is no such method.
-/

namespace Lox

/-! ### Methods from a class on -/

/-- A receiver inherits a method from a class on: the nearest instance method or, if the receiver is
itself a class, the nearest static one. -/
def Store.Inherits (s : Store) (c : ClassId) (receiver : Value) (x : Text) (method : Closure) :
    Prop :=
  match receiver with
  | .classRef _ => ∃ m, s.classes[c]?.bind ClassInfo.metaclass = some m ∧ s.Nearest x method m
  | _ => s.Nearest x method c

theorem Store.Ordered.inherited_eq_some_iff {s : Store} (h : s.Ordered) {c : ClassId}
    {receiver : Value} {x : Text} {method : Closure} :
    s.inherited c receiver x = some method ↔ s.Inherits c receiver x method := by
  cases receiver with
  | classRef k =>
    refine Option.bind_eq_some_iff.trans (exists_congr fun m => and_congr_right fun _ => ?_)
    exact h.findMethod_eq_some_iff
  | _ => exact h.findMethod_eq_some_iff

/-! ### Sealed frames -/

theorem Seal.exists_receiver {held : Seal} {fn : Function Address}
    (h : held.origin = .receiver fn) : ∃ method v, held = .receiver method v ∧ method.fn = fn := by
  cases held with
  | receiver method v => exact ⟨method, v, rfl, Origin.receiver.inj h⟩
  | superclass methods env c => cases h

theorem Seal.exists_superclass {held : Seal} {methods : List (Method Address)}
    (h : held.origin = .superclass methods) : ∃ env c, held = .superclass methods env c := by
  cases held with
  | receiver method v => cases h
  | superclass methods' env c => exact ⟨env, c, by rw [Origin.superclass.inj h]⟩

/-! ### Frames around a reference -/

/-- For each origin there is a frame, at the same distance. -/
theorem Setting.Around.exists_frame {Δ : Setting} {gain : Gain} {scopes : Scopes}
    {opened : List Origin} {env : FrameId} {frames : List FrameId} {g : FrameId}
    (h : Δ.Around gain scopes opened env frames g) {d : Nat} {o : Origin}
    (ho : opened[d]? = some o) :
    ∃ e, frames[d]? = some e ∧ Δ.origins[e]? = some o ∧ Δ.store.ancestor env d = some e := by
  obtain ⟨hlt, rfl⟩ := List.getElem?_eq_some_iff.mp ho
  obtain ⟨hlength, hget⟩ := List.forall₂_iff_get.mp h.origins
  have hlt' : d < frames.length := hlength ▸ hlt
  refine ⟨frames[d], List.getElem?_eq_getElem hlt', hget d hlt' hlt, ?_⟩
  rw [h.ancestor d, List.getElem?_append_left hlt']
  exact List.getElem?_eq_getElem hlt'

theorem Store.ancestor_succ (s : Store) (e : FrameId) (d : Nat) :
    s.ancestor e (d + 1) = (s.ancestor e d).bind s.parent? := by
  induction d generalizing e with
  | zero => cases h : s.parent? e <;> simp [ancestor, h]
  | succ d ih =>
    rw [ancestor]
    cases h : s.parent? e with
    | none => simp [ancestor, h]
    | some p => rw [Option.bind_some, ih p, ancestor, h, Option.bind_some]

/-- The value of the one name that a frame binds. -/
theorem Store.getAt_of_frame {s : Store} {env e : FrameId} {d : Nat} {parent : Option FrameId}
    {x : Text} {v : Value} (h : s.ancestor env d = some e)
    (hframe : s.frames[e]? = some ⟨parent, .single x v⟩) : s.getAt env d x = some v := by
  unfold getAt lookup
  rw [h, Option.bind_some, hframe]
  exact if_pos rfl

namespace State

variable {host : Host} {globals : FrameId} {s t : State} {name : Mark} {c : ClassId} {v : Value}
  {demand : Demand} {rest : List Resume}

theorem sealsCall_ne_superclass {callee : Value} {arguments : List Value} {w : World}
    {methods : List (Method Address)} {env : FrameId} :
    sealsCall callee arguments w ≠ some (.superclass methods env c) := by
  unfold sealsCall
  split
  · cases callee with
    | classRef c' =>
      intro h
      obtain ⟨method, -, heq⟩ := Option.map_eq_some_iff.mp h
      cases heq
    | _ => rintro ⟨⟩
  · rintro ⟨⟩

theorem read_of_findSuperclass {store : Store} {env : FrameId}
    {superclass : Option (Mark × Address)}
    (h : findSuperclass store env superclass = .ok (some c)) :
    ∃ mark ref, superclass = some (mark, ref) ∧
      store.read env ref mark.lexeme = some (.classRef c) := by
  unfold findSuperclass at h
  split at h
  · cases h
  · next mark ref =>
    split at h
    · cases h
    · next c' hread =>
      cases h
      exact ⟨mark, ref, rfl, hread⟩
    · cases h

/-- A step that creates the frame of a superclass declares a class, and the name of the superclass
stands for it. -/
theorem eq_exec_of_seals? {methods : List (Method Address)} {env : FrameId}
    (h : s.seals? = some (.superclass methods env c)) :
    ∃ name mark ref rest w, s = exec (.classDecl name (some (mark, ref)) methods) env rest w ∧
      w.store.read env ref mark.lexeme = some (.classRef c) := by
  unfold seals? at h
  split at h
  · next method ref env' demand rest w =>
    rcases inherited_cases method ref env' w with ⟨closure, receiver, hseals, -⟩ | ⟨hseals, -⟩
    · cases hseals.symm.trans h
    · cases hseals.symm.trans h
  · unfold sealsProperty at h
    split at h <;> cases h
  · exact absurd h sealsCall_ne_superclass
  · exact absurd h sealsCall_ne_superclass
  · next name superclass methods' env' rest w =>
    unfold sealsClass at h
    split at h
    · next c' hfind =>
      cases h
      obtain ⟨mark, ref, rfl, hread⟩ := read_of_findSuperclass hfind
      exact ⟨name, mark, ref, rest, w, rfl, hread⟩
    · cases h
  · cases h

/-- Frames, innermost first, lie inside of the call of a method. -/
structure InMethodCall (host : Host) (globals : FrameId) (t : State) (origins : List Origin)
    (frames : List FrameId) (d : Nat) (method : Closure) (v : Value) (c : ClassId) : Prop where
  /-- In the body of the method there are blocks and functions, and no other methods. -/
  inner : ∀ k < d, ∃ e o, frames[k]? = some e ∧ origins[e]? = some o ∧ o.isInner = true
  body : ∃ e, frames[d]? = some e ∧ origins[e]? = some (.call method.fn)
  /-- An earlier step has bound the method to the receiver. -/
  receiver : ∃ e, frames[d + 1]? = some e ∧ t.Created host globals e (.receiver method v)
  frame : frames[d + 2]? = some method.frame
  /-- An earlier step has declared the method in a class whose superclass it found. -/
  declared : ∃ name mark ref methods env rest w,
    (exec (.classDecl name (some (mark, ref)) methods) env rest w).Precedes host globals t ∧
      w.store.read env ref mark.lexeme = some (.classRef c) ∧ method.frame = w.store.frames.size ∧
      ∃ m ∈ methods, m.fn = method.fn

/-- What the evaluation of a `super` comes to, with the superclass and the receiver of the method
that it stands in. -/
structure Dispatches (host : Host) (globals : FrameId) (t : State) (name : Mark) (c : ClassId)
    (v : Value) (demand : Demand) (rest : List Resume) : Prop where
  /-- The method that is found is bound to the receiver, in a frame that is never changed. -/
  found : ∀ method, t.world.store.Inherits c v name.lexeme method →
    (∃ w, t.step host =
      value (.function { method with frame := t.world.store.frames.size }) demand rest w) ∧
    ∀ u, (t.step host).Follows host globals u →
      u.world.store.frames[t.world.store.frames.size]? =
        some ⟨some method.frame, .single "this" v⟩
  /-- Without such a method there is a failure, and this is the only one. -/
  missing : (∀ method, ¬ t.world.store.Inherits c v name.lexeme method) →
    t.step host = failAt name (.undefinedProperty name.lexeme) rest t.world

/-- Frames that stand for the scopes of a method of a class with a superclass are those of a call of
the method, with the receiver and the superclass in their frames. -/
theorem exists_inMethodCall {sources : List Text} {origins : List Origin} {gain : Gain}
    {scopes : Scopes} {p : Position} {env g : FrameId} {frames : List FrameId}
    {inner : List Origin} {fn : Function Address} {methods : List (Method Address)}
    (h : (t.world.setting sources origins).Around gain scopes p.opened env frames g)
    (hmethod : p.InMethod (inner ++ [.call fn]) fn methods)
    (hcreated : ∀ (e : FrameId) o, origins[e]? = some o → o.isSealed = true →
      ∃ held, t.Created host globals e held ∧ held.origin = o) :
    ∃ method v c, t.InMethodCall host globals origins frames inner.length method v c ∧
      t.world.store.getAt env (inner.length + 2) "super" = some (.classRef c) ∧
      t.world.store.getAt env (inner.length + 1) "this" = some v := by
  obtain ⟨outer, hopened⟩ := hmethod.opened
  obtain ⟨body, hbody, hcall, -⟩ :=
    h.exists_frame (d := inner.length) (o := .call fn) (by simp [hopened])
  obtain ⟨receiver, hreceiver, hbound, hinside⟩ :=
    h.exists_frame (d := inner.length + 1) (o := .receiver fn) (by simp [hopened])
  obtain ⟨superclass, hsuperclass, hdeclared, haround⟩ :=
    h.exists_frame (d := inner.length + 2) (o := .superclass methods) (by simp [hopened])
  obtain ⟨_, hbinding, horigin⟩ := hcreated _ _ hbound rfl
  obtain ⟨method, v, rfl, rfl⟩ := Seal.exists_receiver horigin
  obtain ⟨_, hdeclaration, horigin⟩ := hcreated _ _ hdeclared rfl
  obtain ⟨env', c, rfl⟩ := Seal.exists_superclass horigin
  -- the frame around that of the receiver is the one that the method was declared in
  obtain rfl : superclass = method.frame := by
    have hparent := (Store.ancestor_succ t.world.store env (inner.length + 1)).symm.trans haround
    rw [show t.world.store.ancestor env (inner.length + 1) = some receiver from hinside,
      Option.bind_some, Store.parent?, hbinding.frame] at hparent
    exact (Option.some.inj hparent).symm
  refine ⟨method, v, c, ⟨fun k hk => ?_, ⟨body, hbody, hcall⟩, ⟨receiver, hreceiver, hbinding⟩,
    hsuperclass, ?_⟩, ?_, ?_⟩
  · have hinner : p.opened[k]? = some inner[k] := by
      simp [hopened, List.getElem?_append_left hk]
    obtain ⟨e, he, ho, -⟩ := h.exists_frame hinner
    exact ⟨e, inner[k], he, ho, hmethod.within _ (by simp)⟩
  · obtain ⟨s, hprecedes, hseals, hsize⟩ := hdeclaration
    obtain ⟨name, mark, ref, rest, w, rfl, hread⟩ := eq_exec_of_seals? hseals
    exact ⟨name, mark, ref, methods, env', rest, w, hprecedes, hread, hsize.symm, hmethod.member⟩
  · exact Store.getAt_of_frame haround hdeclaration.frame
  · exact Store.getAt_of_frame hinside hbinding.frame

section

variable {keyword : Mark} {env : FrameId} {w : World} {d : Nat}

/-- A superclass and, in the frame just inside, a receiver: the method is looked up from the one on
and bound to the other. -/
theorem sealsInherited_of_getAt (hsuper : w.store.getAt env (d + 1) "super" = some (.classRef c))
    (hthis : w.store.getAt env d "this" = some v) :
    sealsInherited name (some (d + 1)) env w =
      (w.store.inherited c v name.lexeme).map (.receiver · v) := by
  unfold sealsInherited
  dsimp only
  rw [hsuper]
  dsimp only
  rw [Nat.add_sub_cancel, hthis]

theorem getInherited_of_getAt (hsuper : w.store.getAt env (d + 1) "super" = some (.classRef c))
    (hthis : w.store.getAt env d "this" = some v)
    (hnone : w.store.inherited c v name.lexeme = none) :
    getInherited keyword name (some (d + 1)) env demand rest w =
      failAt name (.undefinedProperty name.lexeme) rest w := by
  unfold getInherited
  dsimp only
  rw [hsuper]
  dsimp only
  rw [Nat.add_sub_cancel, hthis]
  dsimp only
  rw [hnone]

theorem Sealed.dispatches {depth : Nat} {origins : List Origin}
    (h : (eval (.inherited keyword name (some (d + 1))) env demand rest w).Sealed depth origins)
    (hg : ∃ o, origins[globals]? = some o ∧ o.isSealed = false)
    (hsuper : w.store.getAt env (d + 1) "super" = some (.classRef c))
    (hthis : w.store.getAt env d "this" = some v) :
    (eval (.inherited keyword name (some (d + 1))) env demand rest w).Dispatches host globals name c
      v demand rest := by
  have hordered : w.store.Ordered := h.within.ordered
  refine ⟨fun method hm => ?_, fun hnone => ?_⟩
  · have hfound : w.store.inherited c v name.lexeme = some method :=
      hordered.inherited_eq_some_iff.mpr hm
    have hseals : sealsInherited name (some (d + 1)) env w = some (.receiver method v) := by
      rw [sealsInherited_of_getAt hsuper hthis, hfound, Option.map_some]
    exact ⟨⟨_, getInherited_of_seals hseals⟩, fun u hu => h.frames_follows hg hseals hu⟩
  · refine getInherited_of_getAt hsuper hthis (Option.eq_none_iff_forall_ne_some.mpr ?_)
    exact fun method hm => hnone method (hordered.inherited_eq_some_iff.mp hm)

end

end State

/-! ### Sessions -/

namespace Interpreter

variable {i : Interpreter} {sources : List Text} {origins : List Origin} {source : Text}
  {program : Program Address} {n : Nat}

/-- Whenever a session evaluates a `super`, it stands in a tree that has run. If the imports of some
tree that it can stand in do not bind its name, the frames around it are those of a call of the
method that it stands in. It looks for its own method from the superclass on that was found when the
class of this method was declared, and binds it to the receiver that this method was bound to; it
fails only if there is no such method. -/
theorem super_dispatches (hi : i.Reachable sources origins)
    (hp : Program.ofSource source = .ok program) {keyword name : Mark} {ref : Address}
    {env : FrameId} {demand : Demand} {rest : List Resume} {w : World}
    (hs : i.stateAt program n = .eval (.inherited keyword name ref) env demand rest w) :
    let Δ := w.setting (source :: sources) (origins ++ i.opened program n)
    (∃ home tree p frames g, Program.Accepted home tree ∧ Δ.Runs home g ∧
      Δ.Places ⟨.inherited, keyword, ref⟩ env tree p frames g) ∧
    ∀ home tree p frames g, Program.Accepted home tree →
      Δ.Places ⟨.inherited, keyword, ref⟩ env tree p frames g →
      .imported "super" ∉ Stmt.declarationsAll tree →
        ∃ d method v c, ref = some (d + 2) ∧
          (i.stateAt program n).InMethodCall i.host i.globals Δ.origins frames d method v c ∧
          (i.stateAt program n).Dispatches i.host i.globals name c v demand rest := by
  intro Δ
  have hagrees := hi.agrees hp n
  have hreference : (i.stateAt program n).reference? = some (⟨.inherited, keyword, ref⟩, env) := by
    rw [hs]
    rfl
  obtain ⟨home, tree, p, e, gain, ha, hv, hsite, haddress, hf, -⟩ := hagrees.reference hreference
  obtain ⟨frames, g, hruns, haround⟩ := hf.frames hagrees.1
  have hplaces := haround.places hv hsite haddress
  have hcreated := fun (e : FrameId) o => hi.created hp n (e := e) (o := o)
  have hsession : (i.stateAt program n).InSession i.host i.globals := .mk n hi hp
  rw [hs] at hruns haround hplaces hcreated hsession ⊢
  refine ⟨⟨home, tree, p, frames, g, ha, hruns, hplaces⟩, ?_⟩
  intro home' tree' p' frames' g' ha' hplaces' himports
  obtain ⟨rfl, hopened⟩ := hplaces'.eq_of_around haround
  rw [← hopened] at haround
  obtain ⟨e', hv', hsite'⟩ := hplaces'.site
  obtain ⟨inner, fn, methods, hmethod⟩ : ∃ inner fn methods,
      p'.InMethod (inner ++ [.call fn]) fn methods := by
    cases e' with
    | inherited keyword' name' ref' => exact ha'.inMethod himports hv'
    | _ => cases hsite'
  obtain ⟨method, v, c, hcall, hsuper, hthis⟩ :=
    State.exists_inMethodCall haround hmethod hcreated
  have href : ref = some (inner.length + 2) := by
    rw [show ref = p'.scopes.address "super" from hplaces'.address, hmethod.address,
      List.length_append]
    rfl
  subst href
  obtain ⟨depth, frameOrigins, hsealed, hg⟩ := hsession.sealed
  exact ⟨inner.length, method, v, c, rfl, hcall, hsealed.dispatches hg hsuper hthis⟩

/-- A function that a method returns, called after the method has returned. The method was bound to
an instance of a subclass. -/
theorem super_dispatches_later :
    ∃ program, Program.ofSource
        "class A {m(){}} class B < A {m(){return fun(){return super.m;};}} class C < B {} C().m()();" =
        .ok program ∧
      let i := Interpreter.new ⟨10, 0, none⟩ { rest := [] } false
      let t := i.stateAt program 25
      ∃ demand rest w, t = .eval (.inherited ⟨"super", 1⟩ ⟨"m", 1⟩ (some 3)) 5 demand rest w ∧
        ∃ origins frames method v c,
          t.InMethodCall i.host i.globals origins frames 1 method v c ∧
          t.Dispatches i.host i.globals ⟨"m", 1⟩ c v demand rest := by
  obtain ⟨program, hprogram⟩ : ∃ program : Program Address, program =
      [.classDecl ⟨"A", 1⟩ none [.mk false ⟨"m", 1⟩ (.mk [] [])],
        .classDecl ⟨"B", 1⟩ (some (⟨"A", 1⟩, none)) [.mk false ⟨"m", 1⟩ (.mk []
          [.ret ⟨"return", 1⟩ (some (.function ⟨"fun", 1⟩ (.mk [] [.ret ⟨"return", 1⟩
            (some (.inherited ⟨"super", 1⟩ ⟨"m", 1⟩ (some 3)))])))])],
        .classDecl ⟨"C", 1⟩ (some (⟨"B", 1⟩, none)) [],
        .expression (.call (.call (.get (.call (.name ⟨"C", 1⟩ none) ⟨")", 1⟩ []) ⟨"m", 1⟩)
          ⟨")", 1⟩ []) ⟨")", 1⟩ [])] := ⟨_, rfl⟩
  have h : Program.ofSource
      "class A {m(){}} class B < A {m(){return fun(){return super.m;};}} class C < B {} C().m()();" =
      .ok program := by
    rw [hprogram]
    set_option maxRecDepth 8000 in cbv
  obtain ⟨demand, rest, w, hs⟩ : ∃ demand rest w,
      (Interpreter.new ⟨10, 0, none⟩ { rest := [] } false).stateAt program 25 =
        .eval (.inherited ⟨"super", 1⟩ ⟨"m", 1⟩ (some 3)) 5 demand rest w := by
    subst hprogram
    exact ⟨_, _, _, rfl⟩
  obtain ⟨⟨home, tree, p, frames, g, ha, hruns, hplaces⟩, hdispatches⟩ :=
    super_dispatches (.new ⟨10, 0, none⟩ { rest := [] } false) h hs
  have himports : .imported "super" ∉ Stmt.declarationsAll tree := by
    subst hprogram
    obtain rfl := List.mem_singleton.mp (hruns.mem_sources rfl rfl)
    cases ha.parsed.symm.trans (Program.reads_of_ofSourceWith h)
    decide
  obtain ⟨d, method, v, c, href, hcall, hdispatch⟩ :=
    hdispatches home tree p frames g ha hplaces himports
  cases href
  exact ⟨program, h, demand, rest, w, hs, _, frames, method, v, c, hcall, hdispatch⟩

end Interpreter

end Lox
