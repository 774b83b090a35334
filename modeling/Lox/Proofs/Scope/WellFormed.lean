import Lox.Proofs.Scope.Resolution

/-!
# Well-formed programs

The rules about names and jumps, each judged by the constructs around the place it is about. The
resolver reports nothing exactly for the programs that keep all of them; for the others it reports
every place where a rule is broken, once, whatever else is wrong.
-/

namespace Lox

/-- The rules about names and jumps. -/
def Occurrence.Legal (o : Occurrence) : Prop :=
  match o.subject with
  -- in the same local scope, the name has not been declared before
  | .declaration name => ∀ declared outer, o.scopes = declared :: outer → name.lexeme ∉ declared
  -- no method before it in the same class has its name, static or not
  | .method before name => ∀ m ∈ before, m.name.lexeme ≠ name.lexeme
  -- a class does not inherit from itself
  | .superclass name super => super.lexeme ≠ name.lexeme
  -- the initializer of a local variable does not read it directly
  | .read name => ∀ own outer, o.around = .initializing own :: outer →
    Enclosure.scopes outer ≠ [] → name.lexeme ≠ own.lexeme
  | .assignment _ => True
  -- a receiver lies in a class
  | .receiver _ => ∃ e ∈ o.around, e.isClass = true
  -- the nearest class around a `super` has a superclass
  | .inherited _ => o.around.find? Enclosure.isClass = some (.classBody true)
  -- a `return` lies in a function, and with a value the nearest one is no `init` of an instance
  | .ret _ hasValue => (∃ e ∈ o.around, e.isFunction = true) ∧ (hasValue = true →
    ∀ name params, o.around.find? Enclosure.isFunction = some (.method false name params) →
      name.lexeme ≠ "init")
  -- a `break` lies in a loop, with no function between them
  | .brk _ => ∃ inner outer, o.around = inner ++ .loop :: outer ∧ ∀ e ∈ inner, e.isFunction = false

/-- No rule about names and jumps is broken. -/
def Program.WellFormed (program : Program Unit) : Prop := ∀ o ∈ program.occurrences, o.Legal

/-! ### What is wrong with an occurrence -/

namespace Enclosure

variable {around : List Enclosure}

theorem isLoop_eq_true_iff {e : Enclosure} : e.isLoop = true ↔ e = .loop := by
  cases e <;> simp [isLoop]

/-- A loop that comes before any function is one with no function between. -/
theorem any_isLoop_takeWhile_iff :
    (around.takeWhile (!·.isFunction)).any isLoop = true ↔
      ∃ inner outer, around = inner ++ .loop :: outer ∧ ∀ e ∈ inner, e.isFunction = false := by
  constructor
  · intro h
    obtain ⟨e, hmem, he⟩ := List.any_eq_true.mp h
    obtain rfl := isLoop_eq_true_iff.mp he
    obtain ⟨inner, outer, heq⟩ := List.append_of_mem hmem
    refine ⟨inner, outer ++ around.dropWhile (!·.isFunction), ?_, fun e he => ?_⟩
    · rw [← List.cons_append, ← List.append_assoc, ← heq, List.takeWhile_append_dropWhile]
    · have hin : e ∈ around.takeWhile (!·.isFunction) := heq ▸ List.mem_append_left _ he
      simpa using List.mem_takeWhile_imp hin
  · rintro ⟨inner, outer, rfl, hinner⟩
    have hloop : Enclosure.loop.isFunction = false := rfl
    rw [List.takeWhile_append_of_pos (by simpa using hinner),
      List.takeWhile_cons_of_pos (by simp [hloop])]
    simp [isLoop]

theorem initialized?_eq_some_iff {x : Text} :
    initialized? around = some x ↔
      ∃ own outer, around = .initializing own :: outer ∧ scopes outer ≠ [] ∧ own.lexeme = x := by
  cases around with
  | nil => simp [initialized?]
  | cons e outer => cases e <;> simp [initialized?]

theorem eq_classBody_of_find? {e : Enclosure} (h : around.find? isClass = some e) :
    ∃ derived, e = .classBody derived := by
  have he := List.find?_some h
  cases e with
  | classBody derived => exact ⟨derived, rfl⟩
  | _ => cases he

end Enclosure

namespace Occurrence

/-- Nothing is wrong with an occurrence exactly if it keeps the rules. -/
theorem problem?_eq_none_iff (o : Occurrence) : o.problem? = none ↔ o.Legal := by
  obtain ⟨around, subject⟩ := o
  cases subject with
  | declaration name =>
    unfold problem? Legal
    dsimp only
    generalize scopes _ = scopes
    cases scopes <;> simp
  | method before name => simp [problem?, Legal]
  | superclass name super => simp [problem?, Legal]
  | read name =>
    unfold problem? Legal
    dsimp only
    rw [ite_eq_right_iff, Enclosure.initialized?_eq_some_iff]
    constructor
    · intro h own outer heq hlocal hname
      cases h ⟨own, outer, heq, hlocal, hname.symm⟩
    · rintro h ⟨own, outer, heq, hlocal, hname⟩
      exact absurd hname.symm (h own outer heq hlocal)
  | assignment name => simp [problem?, Legal]
  | receiver keyword => simp [problem?, Legal]
  | inherited keyword =>
    unfold problem? Legal
    dsimp only
    cases hfind : around.find? Enclosure.isClass with
    | none => simp
    | some e =>
      obtain ⟨derived, rfl⟩ := Enclosure.eq_classBody_of_find? hfind
      cases derived <;> simp
  | ret keyword hasValue =>
    unfold problem? Legal
    dsimp only
    rw [← List.find?_isSome]
    cases hfind : around.find? Enclosure.isFunction with
    | none => simp
    | some e =>
      cases e with
      | method static name params =>
        cases static <;> cases hasValue <;> simp
      | _ => simp
  | brk keyword =>
    unfold problem? Legal
    rw [← Enclosure.any_isLoop_takeWhile_iff]
    simp

instance (o : Occurrence) : Decidable o.Legal := decidable_of_iff _ o.problem?_eq_none_iff

end Occurrence

/-! ### Reports -/

/-- The places where a rule about names and jumps is broken, in source order. -/
def Program.violations (program : Program Unit) : List Occurrence :=
  program.occurrences.filter fun o => ¬ o.Legal

/-- The resolver reports nothing exactly if no rule is broken, and otherwise each place where one is
broken, once. -/
theorem Resolved.faults_ofProgram (program : Program Unit) :
    ((Resolved.ofProgram program).faults = [] ↔ program.WellFormed) ∧
      ∃ reports, List.Forall₂ (fun o d => o.diagnostic? = some d) program.violations reports ∧
        (Resolved.ofProgram program).faults.Perm reports := by
  have hfaults := (Resolved.resolves_ofProgram program).faults
  have hbroken : ∀ o : Occurrence, decide (¬ o.Legal) = o.diagnostic?.isSome := fun o => by
    simp only [← o.problem?_eq_none_iff, Occurrence.diagnostic?, Option.isSome_map]
    cases o.problem? <;> rfl
  have hreports := Occurrence.forall₂_filterMap hbroken (fun _ _ => id) program.occurrences
  refine ⟨?_, _, hreports, hfaults⟩
  calc (Resolved.ofProgram program).faults = []
      ↔ program.occurrences.filterMap Occurrence.diagnostic? = [] :=
        ⟨fun h => (h ▸ hfaults).nil_eq.symm, fun h => (h ▸ hfaults).eq_nil⟩
    _ ↔ program.WellFormed := by
        simp only [List.filterMap_eq_nil_iff, Occurrence.diagnostic?, Option.map_eq_none_iff,
          Occurrence.problem?_eq_none_iff, Program.WellFormed]

end Lox
