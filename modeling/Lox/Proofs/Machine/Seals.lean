import Lox.Proofs.Machine.Occupancy

/-!
# Sealed frames

The frame that gives a method its receiver, and the one that gives the methods of a class their
superclass, are as they were created in every later state of a session. No statement is executed in
such a frame, so nothing is declared there; and the one name that it binds is no identifier, so
nothing is assigned there either.
-/

namespace Lox

/-- More frames leave alone what the old ones were opened for. -/
theorem Origin.getElem?_append {origins : List Origin} {e : FrameId} {o : Origin}
    (h : origins[e]? = some o) (more : List Origin) : (origins ++ more)[e]? = some o :=
  (List.getElem?_append_left (List.getElem?_eq_some_iff.mp h).1).trans h

namespace State

/-- Nothing in a state dangles, its code is as it was scanned, and of its frames the sealed ones
are as they were created and not occupied. -/
structure Sealed (d : Nat) (origins : List Origin) (s : State) : Prop where
  within : s.Within d
  proper : s.Proper s.world.store
  count : origins.length = s.world.store.frames.size
  free : ∀ e, s.Occupies e → ∃ o, origins[e]? = some o ∧ o.isSealed = false
  seals : ∀ (e : FrameId) o, origins[e]? = some o → o.isSealed = true →
    ∃ held : Seal, held.origin = o ∧ s.world.store.frames[e]? = some held.frame

variable {host : Host} {s : State} {d : Nat} {origins : List Origin} {e : FrameId} {o : Origin}

/-- Only names that are spelled as identifiers are assigned to. -/
theorem Proper.exists_identifier {store : Store} (h : s.Proper store) (ha : s.assigns? = some e) :
    ∃ x : Text, x.IsIdentifier ∧ s.world.store.binds e x = true := by
  cases s with
  | value v demand rest w =>
    obtain ⟨pending, use⟩ := demand
    cases pending with
    | nil => cases ha
    | cons p pending =>
      cases p with
      | assign mark ref env =>
        obtain ⟨-, ⟨hpending, -⟩, -⟩ := h
        exact ⟨mark.lexeme, hpending _ List.mem_cons_self, Store.binds_of_writable ha⟩
      | _ => cases ha
  | _ => cases ha

/-- A step opens as many frames as it creates. -/
theorem size_step (host : Host) (s : State) :
    (s.step host).world.store.frames.size =
      s.world.store.frames.size + (s.opens host).length := by
  obtain ⟨new, hnew, htops⟩ := (changes_step host s).parents
  have hlength := congrArg List.length htops
  rw [List.length_map, List.length_map] at hlength
  rw [← Store.length_parents, ← Store.length_parents, hnew, List.length_append, hlength]

namespace Sealed

theorem lt (h : s.Sealed d origins) (ho : origins[e]? = some o) :
    e < s.world.store.frames.size := by
  rw [← h.count]
  exact (List.getElem?_eq_some_iff.mp ho).1

/-- A step changes no sealed frame. -/
theorem frames_step (h : s.Sealed d origins) (ho : origins[e]? = some o)
    (hs : o.isSealed = true) :
    (s.step host).world.store.frames[e]? = s.world.store.frames[e]? := by
  refine (treatment_step h.within).kept e (h.lt ho) ?_
  rintro (hoccupied | hassigned)
  · obtain ⟨o', ho', hfree⟩ := h.free e hoccupied
    obtain rfl : o = o' := Option.some.inj (ho.symm.trans ho')
    rw [hs] at hfree
    cases hfree
  · obtain ⟨held, -, hframe⟩ := h.seals e o ho hs
    obtain ⟨x, hx, hbinds⟩ := h.proper.exists_identifier hassigned
    obtain ⟨v, hv⟩ := Option.isSome_iff_exists.mp hbinds
    unfold Store.lookup at hv
    rw [hframe] at hv
    exact Seal.not_isIdentifier hv hx

theorem step (h : s.Sealed d origins) : (s.step host).Sealed d (origins ++ s.opens host) where
  within := h.within.step
  proper := h.proper.step
  count := by rw [List.length_append, size_step, h.count]
  free e he := by
    rcases (treatment_step h.within).occupied e he with he | ⟨k, o, ho, hfree, rfl⟩
    · obtain ⟨o, ho, hfree⟩ := h.free e he
      exact ⟨o, Origin.getElem?_append ho _, hfree⟩
    · refine ⟨o, ?_, hfree⟩
      rw [← h.count, List.getElem?_append_right (Nat.le_add_right _ _), Nat.add_sub_cancel_left]
      exact ho
  seals e o ho hs := by
    by_cases hlt : e < origins.length
    · rw [List.getElem?_append_left hlt] at ho
      rw [h.frames_step ho hs]
      exact h.seals e o ho hs
    · rw [List.getElem?_append_right (Nat.le_of_not_lt hlt)] at ho
      obtain ⟨hfirst, held, hheld, rfl⟩ := (opens_eq host s).eq_zero ho hs
      obtain rfl : e = s.world.store.frames.size := by
        rw [← h.count]
        exact Nat.le_antisymm (Nat.le_of_sub_eq_zero hfirst) (Nat.le_of_not_lt hlt)
      exact ⟨held, rfl, (treatment_step h.within).holds held hheld⟩

theorem run (h : s.Sealed d origins) (n : Nat) :
    (s.run host n).Sealed d (origins ++ s.opened host n) := by
  induction n generalizing s origins with
  | zero => rwa [run_zero, State.opened, List.append_nil]
  | succ n ih =>
    unfold State.run State.opened
    split
    · rwa [List.append_nil]
    · rw [← List.append_assoc]
      exact ih h.step

end Sealed

end State

/-! ### Sessions -/

namespace Interpreter

/-- Nothing dangles between two programs, the code is as it was scanned, and the sealed frames are as they were
created, with the globals not among them. -/
structure Sealed (i : Interpreter) (origins : List Origin) : Prop where
  ordered : i.world.store.Ordered
  contents : i.world.store.All (·.Proper i.world.store) (·.fn.Spelled)
  count : origins.length = i.world.store.frames.size
  globals : ∃ o, origins[i.globals]? = some o ∧ o.isSealed = false
  seals : ∀ (e : FrameId) o, origins[e]? = some o → o.isSealed = true →
    ∃ held : Seal, held.origin = o ∧ i.world.store.frames[e]? = some held.frame

variable {i : Interpreter} {origins : List Origin} {kind : Program Address → Prop}
variable {program : Program Address}

theorem Sealed.stateAt (h : i.Sealed origins) (hp : program.Spelled) (n : Nat) :
    (i.stateAt program n).Sealed i.world.depth (origins ++ i.opened program n) := by
  obtain ⟨o, ho, -⟩ := h.globals
  have hlt : i.globals < i.world.store.frames.size := by
    rw [← h.count]
    exact (List.getElem?_eq_some_iff.mp ho).1
  have hwithin : (State.start program i.globals i.world).Within i.world.depth :=
    State.within_start h.ordered hlt
  refine State.Sealed.run ⟨hwithin, ⟨⟨h.contents, ?_⟩, trivial⟩, h.count, ?_, h.seals⟩ n
  · exact List.forall_mem_singleton.mpr (Stmt.spelledAll_iff.mp hp)
  · rintro e ⟨r, hr, hplace⟩
    obtain rfl := List.mem_singleton.mp hr
    exact Option.some.inj hplace ▸ h.globals

/-- What a state leaves to the next program. -/
theorem Sealed.of_state {s : State} {d : Nat} (h : s.Sealed d origins) {globals : FrameId}
    (hg : ∃ o, origins[globals]? = some o ∧ o.isSealed = false) (host : Host)
    (events : List Event) (input : Input) :
    Sealed ⟨host, { s.world with events, input }, globals⟩ origins :=
  ⟨h.within.ordered, h.proper.contents, h.count, hg, h.seals⟩

/-- Every interpreter of a session that runs scanned programs has its frames sealed. -/
theorem Arises.sealed (h : i.Arises kind origins)
    (hkind : ∀ program, kind program → program.Spelled) : i.Sealed origins := by
  induction h with
  | new host input echo =>
    refine ⟨Store.ordered_empty.newGlobals, Store.All.newFrameWith .empty none fun b hb => ?_, rfl,
      ⟨.session, rfl, rfl⟩, ?_⟩
    · obtain ⟨fn, -, rfl⟩ := List.mem_map.mp hb
      trivial
    · intro e o ho hs
      cases e with
      | zero =>
        cases ho
        cases hs
      | succ e => cases ho
  | @execute i origins program n _ hp ih =>
    obtain ⟨o, ho, hfree⟩ := ih.globals
    exact .of_state (ih.stateAt (hkind program hp) n) ⟨o, Origin.getElem?_append ho _, hfree⟩ i.host
      [] (i.stateAt program n).world.input
  | read input _ ih => exact ⟨ih.ordered, ih.contents, ih.count, ih.globals, ih.seals⟩

end Interpreter

/-! ### Later states -/

namespace State

/-- What a session comes to after a state. The run goes on by a step, or it is given up, ended or
not, and another program is started in the same globals. -/
inductive Follows (host : Host) (globals : FrameId) (s : State) : State → Prop
  | refl : Follows host globals s s
  | step {t : State} : Follows host globals s t → Follows host globals s (t.step host)
  | start {t : State} {program : Program Address} (input : Input) : Follows host globals s t →
      program.Scanned →
      Follows host globals s (start program globals { t.world with events := [], input })

variable {host : Host} {globals : FrameId} {s t u : State} {d : Nat} {origins : List Origin}

namespace Follows

theorem run (h : s.Follows host globals t) (n : Nat) : s.Follows host globals (t.run host n) := by
  induction n with
  | zero => exact h
  | succ n ih =>
    rw [run_succ_eq_step]
    exact ih.step

theorem retains (h : s.Follows host globals t) : s.world.store.Retains t.world.store := by
  induction h with
  | refl => exact .refl _
  | step _ ih => exact ih.trans (retains_step host _)
  | start input _ _ ih => exact ih

/-- Whatever a session comes to, its sealed frames are as they were. -/
theorem sealed (h : s.Follows host globals t) (hs : s.Sealed d origins)
    (hg : ∃ o, origins[globals]? = some o ∧ o.isSealed = false) :
    ∃ d' more, t.Sealed d' (origins ++ more) ∧
      ∀ (e : FrameId) o, origins[e]? = some o → o.isSealed = true →
        t.world.store.frames[e]? = s.world.store.frames[e]? := by
  induction h with
  | refl => exact ⟨d, [], by rwa [List.append_nil], fun _ _ _ _ => rfl⟩
  | @step t _ ih =>
    obtain ⟨d', more, ht, hkept⟩ := ih
    refine ⟨d', more ++ t.opens host, by rw [← List.append_assoc]; exact ht.step, ?_⟩
    intro e o ho hsealed
    rw [ht.frames_step (Origin.getElem?_append ho _) hsealed, hkept e o ho hsealed]
  | @start t program input _ hp ih =>
    obtain ⟨d', more, ht, hkept⟩ := ih
    obtain ⟨o, ho, hfree⟩ := hg
    have hnext := Interpreter.Sealed.of_state ht ⟨o, Origin.getElem?_append ho _, hfree⟩ host [] input
    have hstart := hnext.stateAt hp.spelled 0
    rw [Interpreter.opened, State.opened, List.append_nil] at hstart
    exact ⟨t.world.depth, more, hstart, hkept⟩

end Follows

end State

end Lox
