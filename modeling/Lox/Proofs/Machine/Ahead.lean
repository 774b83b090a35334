import Lox.Proofs.Machine.Agreement
import Lox.Proofs.Machine.Changes
import Lox.Proofs.Machine.Depth
import Lox.Proofs.Scope.Distinct

/-!
# Declarations ahead

At every point of a run some statements are under way, and they have names still to declare: those
of the statements behind the current one in each open block and program, the variable whose
initializer is being evaluated, the module that is being imported. In an accepted source these are
different names in each local frame, and none that the frame binds already. So no declaration ever
meets its own name, except among globals.
-/

namespace Lox

/-! ### Names ahead -/

/-- The names that what goes on after a statement has still to declare. -/
def Resume.ahead : Resume → List (FrameId × Text)
  | .block ss env => (Stmt.names ss).map (env, ·)
  | .loop _ _ _ => []
  | .program ss env => (Stmt.names ss).map (env, ·)
  | .call _ demand => demand.use.gain.toList
  | .importing i => [(i.env, i.loaded.name)]

/-- The names that a state has still to declare, soonest first. A state that fails has nothing left
to do. -/
def State.ahead : State → List (FrameId × Text)
  | eval _ _ demand rest _ => demand.use.gain.toList ++ rest.flatMap Resume.ahead
  | value _ demand rest _ => demand.use.gain.toList ++ rest.flatMap Resume.ahead
  | exec s env rest _ => (Stmt.names [s]).map (env, ·) ++ rest.flatMap Resume.ahead
  | flow _ rest _ => rest.flatMap Resume.ahead
  | fail _ _ _ => []

namespace Store

variable {s s' : Store} {ahead old : List (FrameId × Text)} {declared : Option (FrameId × Text)}
  {frame : FrameId} {names : List Text}

/-- Names can be declared in the frames of a store: in no frame with a parent is one of them bound
already or there twice. -/
structure Awaits (s : Store) (ahead : List (FrameId × Text)) : Prop where
  lt_size : ∀ a ∈ ahead, a.1 < s.frames.size
  unbound : ∀ a ∈ ahead, s.parent? a.1 ≠ none → s.binds a.1 a.2 = false
  distinct : ahead.Pairwise fun a b => s.parent? a.1 ≠ none → a ≠ b

/-- Names are ahead in a frame that has been created, if there are any. -/
def Opens (s s' : Store) (frame : FrameId) (names : List Text) : Prop :=
  names ≠ [] → s.frames.size ≤ frame ∧ frame < s'.frames.size ∧
    (s'.parent? frame ≠ none → names.Nodup ∧ ∀ x ∈ names, s'.binds frame x = false)

theorem Awaits.of_globals (h : ∀ a ∈ ahead, a.1 < s.frames.size ∧ s.parent? a.1 = none) :
    s.Awaits ahead where
  lt_size a ha := (h a ha).1
  unbound a ha hlocal := absurd (h a ha).2 hlocal
  distinct := List.pairwise_of_forall_mem_list fun a ha _ _ hlocal => absurd (h a ha).2 hlocal

theorem Awaits.append (h : s.Awaits ahead) (h' : s.Awaits old)
    (hne : ∀ a ∈ ahead, ∀ b ∈ old, a.1 ≠ b.1) : s.Awaits (ahead ++ old) where
  lt_size := List.forall_mem_append.mpr ⟨h.lt_size, h'.lt_size⟩
  unbound := List.forall_mem_append.mpr ⟨h.unbound, h'.unbound⟩
  distinct := List.pairwise_append.mpr ⟨h.distinct, h'.distinct,
    fun a ha b hb _ heq => hne a ha b hb (congrArg Prod.fst heq)⟩

theorem Opens.awaits (h : s.Opens s' frame names) : s'.Awaits (names.map (frame, ·)) := by
  cases names with
  | nil => exact .of_globals (List.forall_mem_nil _)
  | cons x names =>
    obtain ⟨-, hlt, hlocal⟩ := h (List.cons_ne_nil x names)
    refine ⟨?_, ?_, List.pairwise_map.mpr ?_⟩
    · exact List.forall_mem_map.mpr fun _ _ => hlt
    · exact List.forall_mem_map.mpr fun x hx hne => (hlocal hne).2 x hx
    · by_cases hparent : s'.parent? frame = none
      · exact List.pairwise_of_forall fun _ _ hne => absurd hparent hne
      · exact (hlocal hparent).1.imp fun hne _ heq => hne (Prod.mk.inj heq).2

/-- What is still ahead when a name has been declared can still be declared. -/
theorem Awaits.declare {D : FrameId → Text → Prop} {tops : List Bool} (h : s.Awaits ahead)
    (hc : s.Changes D tops s') (hD : ∀ e x, D e x → declared = some (e, x))
    (hold : (declared.toList ++ old).Sublist ahead) : s'.Awaits old := by
  have hmem : ∀ a ∈ old, a ∈ ahead := fun a ha => hold.subset (List.mem_append_right _ ha)
  have hlt : ∀ a ∈ old, a.1 < s.frames.size := fun a ha => h.lt_size a (hmem a ha)
  have hparent : ∀ a ∈ old, s'.parent? a.1 = s.parent? a.1 := fun a ha =>
    hc.grown.parent a.1 (hlt a ha)
  have hpairs := h.distinct.sublist hold
  refine ⟨fun a ha => Nat.lt_of_lt_of_le (hlt a ha) hc.grown.size, fun a ha hlocal => ?_, ?_⟩
  · rw [hparent a ha] at hlocal
    refine Bool.eq_false_iff.mpr fun hbound => ?_
    -- a name that is bound now was not before, so it is the one that has been declared
    rcases hc.binds (hlt a ha) hbound with hbefore | hdeclared
    · rw [h.unbound a (hmem a ha) hlocal] at hbefore
      cases hbefore
    · rw [hD _ _ hdeclared] at hpairs
      exact (List.pairwise_cons.mp hpairs).1 a ha hlocal rfl
  · refine ((List.pairwise_append.mp hpairs).2.1).imp_of_mem fun ha _ hne hlocal => ?_
    exact hne (hparent _ ha ▸ hlocal)

theorem binds_newFrame_size {parent : Option FrameId} {x : Text} :
    (s.newFrame parent).2.binds s.frames.size x = false := by
  rw [binds_newFrame]
  exact Bool.eq_false_iff.mpr fun h => Nat.lt_irrefl _ (lt_of_binds h)

/-- A new frame binds just the names it is given. -/
theorem binds_newFrameWith_size {parent : Option FrameId} {bindings : List (Text × Value)}
    {x : Text} (hx : x ∉ bindings.map Prod.fst) :
    (s.newFrameWith parent bindings).2.binds s.frames.size x = false := by
  suffices hall : ∀ s' : Store, s'.binds s.frames.size x = false →
      (s'.defineAll s.frames.size bindings).binds s.frames.size x = false from
    hall (s.newFrame parent).2 binds_newFrame_size
  induction bindings with
  | nil => exact fun _ h => h
  | cons b bindings ih =>
    obtain ⟨hne, hx⟩ := not_or.mp (List.mem_cons.not.mp hx)
    refine fun s' h => ih hx _ (Bool.eq_false_iff.mpr fun hb => ?_)
    rcases eq_or_binds_of_binds_define hb with ⟨-, heq⟩ | hb
    · exact hne heq
    · rw [h] at hb
      cases hb

end Store

/-! ### Functions -/

/-- A function whose body declares different names, and none that a parameter has. -/
def Function.Distinct (fn : Function Address) : Prop :=
  (Stmt.names fn.body).Nodup ∧ ∀ x ∈ Stmt.names fn.body, x ∉ fn.params.map Mark.lexeme

namespace Setting

variable {Δ : Setting} {gain : Gain} {e : FrameId} {c : Closure}

theorem Stands.distinct {p q : Position} {f : Function Unit}
    (h : Δ.Stands gain ⟨p, .fn f⟩ q e) : (f.resolve p.around p.scopes).1.Distinct := by
  obtain ⟨params, body⟩ := f
  obtain ⟨source, tree, ha, hv, -⟩ := id h
  obtain ⟨hnodup, hparams⟩ := Site.distinct_fn h.regular (ha.faults_eq_nil hv)
  unfold Function.Distinct Function.resolve
  dsimp only [Function.body, Function.params]
  rw [Stmt.names_resolveAll]
  exact ⟨hnodup, hparams⟩

theorem FitsClosure.distinct (h : Δ.FitsClosure c) : c.fn.Distinct := by
  obtain ⟨p, f, hstands, hfn⟩ := h
  exact hfn ▸ hstands.distinct

theorem FitsMethod.distinct (h : Δ.FitsMethod c) : c.fn.Distinct := by
  obtain ⟨p, m, hstands, hfn⟩ := h
  exact hfn ▸ hstands.distinct

end Setting

/-! ### Steps -/

namespace State

/-- Whether a state fails because a name is there already. -/
def repeats : State → Bool
  | fail (.runtime _ fault) _ _ => fault.isRepetition
  | _ => false

/-- What a step makes of the names that are ahead: it may declare one, drop some, and add those of a
frame that it creates. It does not fail for a name that is there already. -/
structure Proceeds (s : Store) (declared : Option (FrameId × Text))
    (ahead : List (FrameId × Text)) (next : State) : Prop where
  quiet : next.repeats = false
  ahead : ∃ frame names old, next.ahead = names.map (frame, ·) ++ old ∧
    (declared.toList ++ old).Sublist ahead ∧ s.Opens next.world.store frame names

variable {host : Host} {s : Store} {w : World} {env : FrameId} {demand : Demand}
  {rest : List Resume} {declared : Option (FrameId × Text)} {ahead : List (FrameId × Text)}
  {next : State}

/-- Nothing is added. -/
theorem Proceeds.on (hq : next.repeats = false)
    (h : (declared.toList ++ next.ahead).Sublist ahead) : next.Proceeds s declared ahead :=
  ⟨hq, 0, [], next.ahead, rfl, h, fun hne => absurd rfl hne⟩

/-! ### Bodies and statements -/

/-- The body of a function adds its names, in a frame that binds the parameters. -/
theorem proceeds_entered {closure : Closure} {arguments : List Value} {ps : List Pending} {u : Use}
    (hs : s.frames.size ≤ w.store.frames.size) (hlen : arguments.length = closure.fn.arity)
    (hbody : closure.fn.Distinct) :
    (entered closure arguments ⟨ps, u⟩ rest w).Proceeds s none
      (u.gain.toList ++ rest.flatMap Resume.ahead) := by
  refine ⟨rfl, w.store.frames.size, Stmt.names closure.fn.body, _, rfl,
    List.Sublist.refl _, fun _ => ⟨hs, ?_, fun _ => ⟨hbody.1, fun x hx => ?_⟩⟩⟩
  · exact Nat.lt_of_lt_of_eq (Nat.lt_succ_self _) Store.size_newFrameWith.symm
  · refine Store.binds_newFrameWith_size ?_
    rw [List.map_fst_zip (by simp [hlen, Function.arity])]
    exact hbody.2 x hx

/-- A statement that governs others declares nothing, and neither do they. -/
theorem proceeds_exec {stmt : Stmt Address} (h : stmt.declares? = none)
    (hr : (rest.flatMap Resume.ahead).Sublist ahead) :
    (exec stmt env rest w).Proceeds s none ahead := by
  refine .on rfl ?_
  rw [State.ahead, Stmt.names_cons, h]
  exact hr

theorem proceeds_demand {stmt : Stmt Address} {e : Expr Address} {u : Use}
    (h : stmt.part? env = some (e, u)) :
    (eval e env ⟨[], u⟩ rest w).Proceeds s (exec stmt env rest w).declares?
      (exec stmt env rest w).ahead := by
  unfold Stmt.part? at h
  split at h <;> cases h <;> exact .on rfl (List.Sublist.refl _)

theorem proceeds_bind {stmt : Stmt Address} {x : Text} {v : Value}
    (h : stmt.binding? env = some (x, v)) :
    (flow .normal rest (w.define env x v)).Proceeds s (exec stmt env rest w).declares?
      (exec stmt env rest w).ahead := by
  unfold Stmt.binding? at h
  split at h <;> cases h <;> exact .on rfl (List.Sublist.refl _)

/-- A block adds its names, in a frame that binds nothing. -/
theorem proceeds_block {body : List (Stmt Address)} (hnodup : (Stmt.names body).Nodup) :
    (flow .normal (.block body w.store.frames.size :: rest)
      { w with store := (w.store.newFrame (some env)).2 }).Proceeds w.store none
      (rest.flatMap Resume.ahead) := by
  refine ⟨rfl, w.store.frames.size, Stmt.names body, _, rfl, List.Sublist.refl _,
    fun _ => ⟨Nat.le_refl _, ?_, fun _ => ⟨hnodup, fun x _ => ?_⟩⟩⟩
  · exact Nat.lt_of_lt_of_eq (Nat.lt_succ_self _) Store.size_newFrame.symm
  · exact Store.binds_newFrame_size

/-- Methods with different names can all be declared. -/
theorem exists_declareMethods {methods : List (Method Address)} {table : Table Closure}
    (hnodup : (methods.map (·.name.lexeme)).Nodup)
    (hnew : ∀ m ∈ methods, table.contains m.name.lexeme = false) :
    ∃ declared, declareMethods env methods table = .ok declared := by
  induction methods generalizing table with
  | nil => exact ⟨table, rfl⟩
  | cons m methods ih =>
    obtain ⟨hm, hnodup⟩ := List.nodup_cons.mp hnodup
    obtain ⟨hfirst, hnew⟩ := List.forall_mem_cons.mp hnew
    unfold declareMethods
    dsimp only
    rw [if_neg (by simp [hfirst])]
    refine ih hnodup fun m' hm' => ?_
    have hne : m'.name.lexeme ≠ m.name.lexeme := fun heq =>
      hm (List.mem_map.mpr ⟨m', hm', heq⟩)
    simp [Table.contains_insert, hne, hnew m' hm']

/-- The first statement is executed, and the others wait with the rest. -/
theorem ahead_next (stmt : Stmt Address) (more : List (Stmt Address)) (env : FrameId)
    (old : List (FrameId × Text)) :
    ((Stmt.names [stmt]).map (env, ·) ++ ((Stmt.names more).map (env, ·) ++ old)).Sublist
      ((Stmt.names (stmt :: more)).map (env, ·) ++ old) := by
  rw [← List.append_assoc, ← List.map_append, ← Stmt.names_append]
  exact List.Sublist.refl _

theorem declares?_sublist (st : State) : st.declares?.toList.Sublist st.ahead := by
  unfold declares?
  split
  case h_6 => exact List.nil_sublist _
  all_goals exact List.singleton_sublist.mpr List.mem_cons_self

/-- A state that fails, or is about to because a variable is there already. -/
def Clashes : State → Prop
  | exec (.varDecl name _) env _ w => w.store.binds env name.lexeme = true
  | fail _ _ _ => True
  | _ => False

theorem ahead_of_clashes {st : State} (h : st.Clashes) : (st.step host).ahead = [] := by
  cases st with
  | exec stmt env rest w =>
    cases stmt with
    | varDecl name initial =>
      have h : w.store.binds env name.lexeme = true := h
      unfold step execStep
      dsimp only
      rw [if_pos h]
      rfl
    | _ => cases h
  | fail f rest w =>
    cases rest with
    | nil => rfl
    | cons r rest => cases r <;> rfl
  | _ => cases h

namespace Agrees

variable {st : State} {sources : List Text} {origins : List Origin}

theorem nodup_block {Δ : Setting} {body : List (Stmt Address)} (h : Δ.FitsStmt (.block body) env) :
    (Stmt.names body).Nodup := by
  obtain ⟨p, body₀, hstands, rfl⟩ := h.of_block
  obtain ⟨source, tree, ha, hv, -⟩ := id hstands
  have hmem : (⟨p.block body₀, .stmts body₀⟩ : Site) ∈ Site.parts ⟨p, .stmt (.block body₀)⟩ :=
    List.mem_singleton_self _
  have hbody := Site.distinct_stmts (p := p.block body₀) rfl (hstands.regular.of_mem_parts hmem)
    (ha.faults_eq_nil (hv.part hmem))
  rw [Stmt.names_resolveAll]
  exact hbody.1

theorem nodup_methods {Δ : Setting} {name : Mark} {superclass : Option (Mark × Address)}
    {methods : List (Method Address)} (h : Δ.FitsStmt (.classDecl name superclass methods) env) :
    (methods.map (·.name.lexeme)).Nodup := by
  obtain ⟨p, superclass₀, methods₀, hstands, -, rfl⟩ := h.of_classDecl
  obtain ⟨source, tree, ha, hv, -⟩ := hstands
  have hfaults := ha.faults_eq_nil hv
  cases superclass₀ <;>
  exact (Method.distinct_resolveAll (List.append_eq_nil_iff.mp hfaults).2).1

/-- What one step makes of the names that are ahead. -/
theorem proceeds (h : st.Agrees sources origins) (hc : ¬ st.Clashes) :
    (st.step host).Proceeds st.world.store st.declares? st.ahead := by
  obtain ⟨hs, hfits⟩ := h
  have hmove := moves_step host st
  generalize st.opens host = opened, st.step host = st' at hmove
  cases hmove with
  | call hp hlen =>
    have hcallee := (hfits.2.1.pop.1.call hfits.1 hp).1
    exact proceeds_entered (Nat.le_refl _) (List.length_reverse.trans hlen)
      (Setting.FitsClosure.distinct hcallee)
  | @construct _ _ c _ _ _ _ _ _ w method _ hm hlen =>
    -- the frame of the body comes after the one of the receiver
    have hsize := (extends_initialized w.store c method).size
    have hmethod := hs.contents.findMethod hm
    exact proceeds_entered hsize (List.length_reverse.trans hlen) hmethod.distinct
  | branch hstmt =>
    obtain ⟨hyes, hno⟩ := hfits.2.1.2
    rcases hstmt with rfl | hsome
    · exact proceeds_exec hyes.2 (List.Sublist.refl _)
    · exact proceeds_exec (hno _ hsome).2 (List.Sublist.refl _)
  | round => exact proceeds_exec hfits.2.1.2.2.2 (List.Sublist.refl _)
  | shown hu => rcases hu with rfl | rfl <;> exact .on rfl (List.Sublist.refl _)
  | demand hp => exact proceeds_demand hp
  | bind hp => exact proceeds_bind hp
  | redeclare hbinds => exact absurd hbinds hc
  | block => exact proceeds_block (nodup_block hfits.1)
  | @repeatMethod name _ methods env _ w c? _ _ hm =>
    obtain ⟨declared, hdeclared⟩ :
        ∃ declared, declareMethods (classFrame w name env c?).1 methods ∅ = .ok declared :=
      exists_declareMethods (nodup_methods hfits.1) fun _ _ => rfl
    rw [hdeclared] at hm
    cases hm
  | load =>
    refine ⟨rfl, _, _, _, rfl, List.Sublist.refl _,
      fun _ => ⟨Nat.le_refl _, ?_, fun hlocal => absurd ?_ hlocal⟩⟩
    · exact Nat.lt_of_lt_of_eq (Nat.lt_succ_self _) Store.size_newFrameWith.symm
    · -- the names of a module may repeat, since its frame has no parent
      exact Store.parent?_newFrameWith
  | noLoad hf => rcases hf with rfl | ⟨why, rfl⟩ <;> exact .on rfl (List.nil_sublist _)
  | next | nextTop => exact .on rfl (ahead_next _ _ _ _)
  | leave => exact .on rfl (List.sublist_append_right _ _)
  | callOverflow | constructOverflow => exact .on rfl (List.nil_sublist _)
  | noInput _ hread =>
    exact .on (NativeFunction.isRepetition_of_read? hread) (List.nil_sublist _)
  | fails _ hrep => exact .on hrep ((List.append_nil _).symm ▸ declares?_sublist _)
  | unwind => exact absurd trivial hc
  | ended hfinal =>
    cases returned_nil_iff.mpr hfinal with
    | flow => exact .on rfl (List.Sublist.refl _)
    | fail => exact absurd trivial hc
  | _ => exact .on rfl (List.Sublist.refl _)

theorem awaits_step (h : st.Agrees sources origins) (ha : st.world.store.Awaits st.ahead) :
    (st.step host).world.store.Awaits (st.step host).ahead := by
  by_cases hc : st.Clashes
  · -- a failure unwinds everything, and whatever was ahead is never declared
    rw [ahead_of_clashes hc]
    exact .of_globals (List.forall_mem_nil _)
  · obtain ⟨frame, names, old, heq, hold, hnew⟩ := (h.proceeds hc).ahead
    have hlater := ha.declare (changes_step host st) (fun _ _ => id) hold
    rw [heq]
    -- the names that are added are in a new frame, those from before in an old one
    refine hnew.awaits.append hlater fun a hadded b hb hframe => ?_
    obtain ⟨x, hx, rfl⟩ := List.mem_map.mp hadded
    have hlt := ha.lt_size b (hold.subset (List.mem_append_right _ hb))
    rw [← hframe] at hlt
    exact Nat.not_lt.mpr (hnew (List.ne_nil_of_mem hx)).1 hlt

theorem awaits_run (h : st.Agrees sources origins) (ha : st.world.store.Awaits st.ahead)
    (n : Nat) : (st.run host n).world.store.Awaits (st.run host n).ahead := by
  induction n generalizing st origins with
  | zero => exact ha
  | succ n ih =>
    rw [run_succ]
    exact ih (h.step host) (h.awaits_step ha)

/-- A name that is there already ends a run only at a variable. -/
theorem eq_varDecl_of_raises (h : st.Agrees sources origins) {mark : Mark} {fault : Fault}
    (hf : fault.isRepetition = true) (hr : st.Raises host (.runtime mark fault)) :
    ∃ initial env rest w, st = exec (.varDecl mark initial) env rest w ∧
      w.store.binds env mark.lexeme = true ∧ fault = .alreadyDefined mark.lexeme := by
  obtain ⟨⟨rest', w', hstep⟩, hne⟩ := hr
  have hc : st.Clashes := by
    by_contra hc
    have hquiet : (st.step host).repeats = false := (h.proceeds hc).quiet
    rw [hstep] at hquiet
    exact Bool.false_ne_true (hquiet.symm.trans hf)
  cases st with
  | exec stmt env rest w =>
    cases stmt with
    | varDecl name initial =>
      have hbinds : w.store.binds env name.lexeme = true := hc
      unfold State.step execStep at hstep
      dsimp only at hstep
      rw [if_pos hbinds] at hstep
      cases hstep
      exact ⟨initial, env, _, _, rfl, hbinds, rfl⟩
    | _ => cases hc
  | fail f rest w => exact absurd rfl (hne f rest w)
  | _ => cases hc

end Agrees

end State

/-! ### Sessions -/

/-- A frame that fits is one of globals, or inside another one. -/
theorem Setting.Fits.isGlobal_or {Δ : Setting} {gain : Gain} {source : Text} {scopes : Scopes}
    {opened : List Origin} {e : FrameId} (h : Δ.Fits gain source scopes opened e) :
    (∃ o, Δ.origins[e]? = some o ∧ o.isGlobal = true) ∨ Δ.store.parent? e ≠ none := by
  cases h with
  | globals hr => exact .inl hr.exists_origin
  | frame _ hp => exact .inr (by simp [hp])

namespace Interpreter

variable {i : Interpreter} {sources : List Text} {origins : List Origin} {source : Text}
  {program : Program Address}

theorem Reachable.awaits (hi : i.Reachable sources origins)
    (hp : Program.ofSource source = .ok program) (n : Nat) :
    (i.stateAt program n).world.store.Awaits (i.stateAt program n).ahead := by
  obtain ⟨hs, hg⟩ := hi.sound
  refine (State.agrees_start hs hg hp).awaits_run (.of_globals fun a ha => ?_) n
  obtain ⟨x, -, rfl⟩ : ∃ x ∈ Stmt.names program, (i.globals, x) = a := by
    simpa [State.start, State.ahead, Resume.ahead] using ha
  exact ⟨hs.lt_size hg, hs.globals hg rfl⟩

/-- A variable is executed among globals, or in a frame that does not bind it. -/
theorem Reachable.isGlobal_or_unbound (hi : i.Reachable sources origins)
    (hp : Program.ofSource source = .ok program) {n : Nat} {name : Mark}
    {initial : Option (Expr Address)} {env : FrameId} {rest : List Resume} {w : World}
    (h : i.stateAt program n = .exec (.varDecl name initial) env rest w) :
    (∃ o, (origins ++ i.opened program n)[env]? = some o ∧ o.isGlobal = true) ∨
      w.store.binds env name.lexeme = false := by
  have hagrees := hi.agrees hp n
  have hawaits := hi.awaits hp n
  rw [h] at hagrees hawaits
  obtain ⟨p, stmt, ⟨home, tree, -, -, hf⟩, -⟩ := hagrees.2.1
  exact hf.isGlobal_or.imp id fun hlocal =>
    hawaits.unbound (env, name.lexeme) (List.mem_append_left _ List.mem_cons_self) hlocal

/-- In a session of accepted sources a class never has two methods of a name, and a name is declared
twice in a frame only among globals, by a variable. -/
theorem redeclares_globals (hi : i.Reachable sources origins)
    (hp : Program.ofSource source = .ok program) (n : Nat) :
    (∀ mark, ¬ (i.stateAt program n).Raises i.host (.runtime mark .duplicateMethod)) ∧
      (∀ mark x, (i.stateAt program n).Raises i.host (.runtime mark (.alreadyDefined x)) →
        x = mark.lexeme ∧ ∃ initial env rest w o,
          i.stateAt program n = .exec (.varDecl mark initial) env rest w ∧
          (origins ++ i.opened program n)[env]? = some o ∧ o.isGlobal = true) ∧
      ∀ name initial env rest w o,
        i.stateAt program n = .exec (.varDecl name initial) env rest w →
        (origins ++ i.opened program n)[env]? = some o → o.isGlobal = false →
        w.store.binds env name.lexeme = false := by
  have hagrees := hi.agrees hp n
  refine ⟨fun mark hr => ?_, fun mark x hr => ?_, fun name initial env rest w o hst ho hlocal => ?_⟩
  · obtain ⟨_, _, _, _, -, -, hfault⟩ := hagrees.eq_varDecl_of_raises rfl hr
    cases hfault
  · obtain ⟨initial, env, rest, w, hst, hbinds, hfault⟩ := hagrees.eq_varDecl_of_raises rfl hr
    obtain rfl := Fault.alreadyDefined.inj hfault
    rcases hi.isGlobal_or_unbound hp hst with ⟨o, ho, hglobal⟩ | hfree
    · exact ⟨rfl, initial, env, rest, w, o, hst, ho, hglobal⟩
    · rw [hbinds] at hfree
      cases hfree
  · refine (hi.isGlobal_or_unbound hp hst).resolve_left ?_
    rintro ⟨o', ho', hglobal⟩
    obtain rfl := Option.some.inj (ho.symm.trans ho')
    rw [hlocal] at hglobal
    cases hglobal

/-- A name that is declared twice among globals, and in a block between. -/
theorem redeclares_globals_block :
    ∃ program, Program.ofSource "var a; { var a; } var a;" = .ok program ∧
      let i := Interpreter.new ⟨10, 0, none⟩ { rest := [] } false
      (∃ rest w, i.stateAt program 5 = .exec (.varDecl ⟨"a", 1⟩ none) 1 rest w ∧
        w.store.binds 1 "a" = false) ∧
      (i.stateAt program 8).Raises i.host (.runtime ⟨"a", 1⟩ (.alreadyDefined "a")) ∧
      ∃ initial env rest w o, i.stateAt program 8 = .exec (.varDecl ⟨"a", 1⟩ initial) env rest w ∧
        ([.session] ++ i.opened program 8)[env]? = some o ∧ o.isGlobal = true := by
  have h : Program.ofSource "var a; { var a; } var a;" = .ok
      [.varDecl ⟨"a", 1⟩ none, .block [.varDecl ⟨"a", 1⟩ none], .varDecl ⟨"a", 1⟩ none] := by
    set_option maxRecDepth 4000 in cbv
  have hi := Reachable.new ⟨10, 0, none⟩ { rest := [] } false
  have hraises : ((Interpreter.new ⟨10, 0, none⟩ { rest := [] } false).stateAt
      [.varDecl ⟨"a", 1⟩ none, .block [.varDecl ⟨"a", 1⟩ none], .varDecl ⟨"a", 1⟩ none] 8).Raises
      ⟨10, 0, none⟩ (.runtime ⟨"a", 1⟩ (.alreadyDefined "a")) :=
    ⟨⟨_, _, rfl⟩, fun f rest w heq => by cases heq⟩
  exact ⟨_, h, ⟨_, _, rfl, (redeclares_globals hi h 5).2.2 _ _ _ _ _ _ rfl rfl rfl⟩, hraises,
    ((redeclares_globals hi h 8).2.1 _ _ hraises).2⟩

end Interpreter

end Lox
