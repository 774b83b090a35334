import Lox.Proofs.Scope.Erasure
import Lox.Proofs.Scope.Lines
import Lox.Proofs.Scope.Resolution

/-!
# Lexical addresses

The address of a reference counts the local scopes from its place outward to the first that declares
its name before that place; a reference whose name no such scope declares has none and is global.
This holds of every program, whatever the resolver reports, except for a receiver or a `super` that
is reported as out of place.
-/

namespace Lox

namespace Occurrence

variable {o : Occurrence} {x : Text}

/-- Of the local scopes around an occurrence, the first that declares a name before it is so many
scopes outward. -/
def BoundAt (o : Occurrence) (x : Text) (distance : Nat) : Prop :=
  ∃ inner names outer, o.scopes = inner ++ names :: outer ∧ inner.length = distance ∧ x ∈ names ∧
    ∀ names ∈ inner, x ∉ names

theorem address_eq_some_iff {distance : Nat} :
    o.address x = some distance ↔ o.BoundAt x distance := by
  unfold address BoundAt
  rw [List.findIdx?_eq_some_iff_getElem]
  constructor
  · rintro ⟨hlt, hmem, hfirst⟩
    refine ⟨o.scopes.take distance, o.scopes[distance], o.scopes.drop (distance + 1),
      ?_, ?_, ?_, ?_⟩
    · rw [← List.drop_eq_getElem_cons hlt, List.take_append_drop]
    · exact List.length_take_of_le hlt.le
    · simpa using hmem
    · intro names hnames
      obtain ⟨i, hi, rfl⟩ := List.getElem_of_mem hnames
      rw [List.length_take] at hi
      rw [List.getElem_take]
      simpa using hfirst i (by omega)
  · rintro ⟨inner, names, outer, heq, rfl, hmem, hinner⟩
    simp only [heq]
    refine ⟨by simp, by simpa using hmem, fun i hi => ?_⟩
    rw [List.getElem_append_left hi]
    simpa using hinner _ (List.getElem_mem hi)

theorem address_eq_none_iff : o.address x = none ↔ ∀ names ∈ o.scopes, x ∉ names := by
  simp [address, List.findIdx?_eq_none_iff]

/-- A reference stands at an occurrence and has the address that the scopes around it give its name,
unless it is a receiver or a `super` that is out of place. -/
structure Addressed (o : Occurrence) (r : Reference Address) : Prop where
  mark : r.mark = o.subject.mark
  lexical : ∃ x, o.subject.reference? = some (r.kind, x) ∧ (o.isMisplaced = false →
    (∀ distance, r.ref = some distance ↔ o.BoundAt x distance) ∧
      (r.ref = none ↔ ∀ names ∈ o.scopes, x ∉ names))

theorem Addressed.of_reference? {r : Reference Address} (h : o.reference? = some r) :
    o.Addressed r := by
  obtain ⟨⟨kind, x⟩, hkind, rfl⟩ := Option.map_eq_some_iff.mp h
  refine ⟨rfl, x, hkind, fun hplaced => ?_⟩
  simp only [hplaced, Bool.false_eq_true, if_false]
  exact ⟨fun _ => address_eq_some_iff, address_eq_none_iff⟩

end Occurrence

/-- The places in a program that refer to a name, in source order. -/
def Program.mentions (program : Program Unit) : List Occurrence :=
  program.occurrences.filter (·.subject.reference?.isSome)

/-- A resolved program is the program itself with each reference addressed by its place, and after
its last statement no scope is open. -/
theorem Resolved.addresses_lexical (program : Program Unit) :
    (Resolved.ofProgram program).program.erase = program ∧
      List.Forall₂ Occurrence.Addressed program.mentions
        (Resolved.ofProgram program).program.references ∧
      (Stmt.resolveAll {} [] program).2.1 = [] := by
  refine ⟨Resolved.erase_ofProgram program, ?_, Stmt.resolveAll_top {} program⟩
  rw [(Resolved.resolves_ofProgram program).references]
  exact Occurrence.forall₂_filterMap (fun o => by simp [Occurrence.reference?])
    (fun _ _ => .of_reference?) program.occurrences

end Lox
