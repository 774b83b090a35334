import Lox.Proofs.Session.Reports

/-!
# Composed reports

Problems are put together in three ways: diagnostics are collected one after the other, reports are
appended to a list, which leaves out missing ones and takes over the entries of another list, and a
message is put in front of a report. However these are combined, taking the report apart gives its
single problems from left to right, and the diagnostics among them are those it was made from.
-/

namespace Lox

namespace Report

/-- A list with a report at its end; if the report is a list itself, with the entries of that. -/
def append (list next : Option Report) : Option Report := some (many (spliced list ++ spliced next))

/-- A report with messages in front, the outermost first. -/
def enclosed (messages : List Text) (r : Report) : Report := messages.foldr wrapped r

/-- What is left of a report, if there is one, when it is taken apart. -/
def flattened (r : Option Report) : List Report := (r.map flatten).getD []

/-- The diagnostics of a report, if there is one. -/
def diagnosed (r : Option Report) : List Diagnostic := (r.map diagnostics).getD []

end Report

/-- How a report has been put together. -/
inductive Composition where
  | nothing
  | diagnostic (d : Diagnostic)
  | plain (t : Text)
  /-- Diagnostics collected one after the other. -/
  | collected (ds : List Diagnostic)
  /-- Reports appended to a list one after the other. -/
  | listed (parts : List Composition)
  | wrapped (message : Text) (inner : Composition)

namespace Composition

mutual

/-- The report that has been put together; there is none of nothing. -/
def report : Composition → Option Report
  | nothing => none
  | diagnostic d => some (.diagnostic d)
  | plain t => some (.plain t)
  | collected ds => Report.collected ds
  | listed parts => (reports parts).foldl Report.append none
  | wrapped message inner => some (Report.wrap message inner.report)

/-- The reports of several compositions. -/
def reports : List Composition → List (Option Report)
  | [] => []
  | c :: parts => c.report :: reports parts

end

mutual

/-- The diagnostics that a report has been made from, from left to right. -/
def diagnostics : Composition → List Diagnostic
  | nothing => []
  | diagnostic d => [d]
  | plain _ => []
  | collected ds => ds
  | listed parts => diagnosticsAll parts
  | wrapped _ inner => inner.diagnostics

/-- The diagnostics that several reports have been made from. -/
def diagnosticsAll : List Composition → List Diagnostic
  | [] => []
  | c :: parts => c.diagnostics ++ diagnosticsAll parts

end

mutual

/-- The single problems that a report has been made from, from left to right. Each has the messages
in front of it that have been put there since the last list around it; `messages` are those from
further out. A message in front of nothing is a problem by itself. -/
def problems (messages : List Text) : Composition → List (List Text × Report)
  | nothing => []
  | diagnostic d => [(messages, .diagnostic d)]
  | plain t => [(messages, .plain t)]
  | collected ds => ds.map fun d => ([], .diagnostic d)
  | listed parts => problemsAll parts
  | wrapped message inner =>
    if inner.report.isNone then [(messages, Report.wrap message none)]
    else inner.problems (messages ++ [message])

/-- The single problems of the entries of a list. -/
def problemsAll : List Composition → List (List Text × Report)
  | [] => []
  | c :: parts => c.problems [] ++ problemsAll parts

end

end Composition

/-! ### Taking reports apart -/

namespace Report

theorem flattenAll_append (rs rs' : List Report) :
    flattenAll (rs ++ rs') = flattenAll rs ++ flattenAll rs' := by
  induction rs with
  | nil => rfl
  | cons r rs ih => rw [List.cons_append, flattenAll, ih, flattenAll, List.append_assoc]

mutual

/-- What is left when a report is taken apart are no lists, also behind messages. -/
theorem isMany_of_mem_flatten : (r : Report) → ∀ p ∈ r.flatten, p.isMany = false
  | diagnostic _ => by simp [flatten, isMany]
  | plain _ => by simp [flatten, isMany]
  | many reports => isMany_of_mem_flattenAll reports
  | wrapped message inner => by
    intro p hp
    unfold flatten at hp
    split at hp
    · exact isMany_of_mem_flatten inner p hp
    · next hsingle =>
      obtain rfl := List.mem_singleton.mp hp
      exact Bool.eq_false_iff.mpr hsingle

theorem isMany_of_mem_flattenAll : (rs : List Report) → ∀ p ∈ flattenAll rs, p.isMany = false
  | [] => List.forall_mem_nil _
  | r :: rest =>
    List.forall_mem_append.mpr ⟨isMany_of_mem_flatten r, isMany_of_mem_flattenAll rest⟩

end

theorem flatten_of_single {r : Report} (h : r.isMany = false) : r.flatten = [r] := by
  cases r with
  | diagnostic d => rfl
  | plain t => rfl
  | many reports => cases h
  | wrapped message inner =>
    unfold flatten
    exact if_neg (Bool.eq_false_iff.mp h)

theorem flattenAll_of_single {rs : List Report} (h : ∀ r ∈ rs, r.isMany = false) :
    flattenAll rs = rs := by
  induction rs with
  | nil => rfl
  | cons r rs ih =>
    obtain ⟨hr, hrs⟩ := List.forall_mem_cons.mp h
    rw [flattenAll, flatten_of_single hr, ih hrs]
    rfl

@[simp] theorem isMany_enclosed (messages : List Text) (r : Report) :
    (enclosed messages r).isMany = r.isMany := by
  induction messages with
  | nil => rfl
  | cons message messages ih => exact ih

@[simp] theorem diagnostic?_enclosed (messages : List Text) (r : Report) :
    (enclosed messages r).diagnostic? = r.diagnostic? := by
  induction messages with
  | nil => rfl
  | cons message messages ih => exact ih

/-- Messages in front of a list disappear with it. -/
theorem flatten_enclosed_of_many {r : Report} (h : r.isMany = true) (messages : List Text) :
    (enclosed messages r).flatten = r.flatten := by
  induction messages with
  | nil => rfl
  | cons message messages ih =>
    have hwrapped : (enclosed (message :: messages) r).flatten =
        if (enclosed messages r).isMany then (enclosed messages r).flatten
        else [enclosed (message :: messages) r] := by rfl
    rw [hwrapped, isMany_enclosed, if_pos h, ih]

/-! ### Lists -/

theorem foldl_append_many (rs : List Report) (entries : List (Option Report)) :
    entries.foldl append (some (many rs)) = some (many (rs ++ entries.flatMap spliced)) := by
  induction entries generalizing rs with
  | nil => simp
  | cons entry entries ih =>
    have happend : append (some (many rs)) entry = some (many (rs ++ spliced entry)) := rfl
    rw [List.foldl_cons, happend, ih, List.flatMap_cons, List.append_assoc]

/-- Reports that are appended one after the other make up one list. -/
theorem foldl_append_none (entries : List (Option Report)) :
    entries.foldl append none = ofList entries := by
  cases entries with
  | nil => rfl
  | cons entry entries => exact foldl_append_many _ entries

/-- Taking over the entries of a list leaves of them what taking the list apart would leave. -/
theorem flattenAll_spliced (entry : Option Report) :
    flattenAll (spliced entry) = flattened entry := by
  rcases entry with _ | ⟨d⟩ | ⟨t⟩ | ⟨reports⟩ | ⟨message, inner⟩
  · rfl
  · rfl
  · rfl
  · rfl
  · exact List.append_nil _

theorem flattened_ofList (entries : List (Option Report)) :
    flattened (ofList entries) = entries.flatMap flattened := by
  have hall : flattenAll (entries.flatMap spliced) = entries.flatMap flattened := by
    induction entries with
    | nil => rfl
    | cons entry entries ih =>
      rw [List.flatMap_cons, flattenAll_append, ih, flattenAll_spliced, List.flatMap_cons]
  cases entries with
  | nil => rfl
  | cons entry entries => exact hall

theorem flattened_collected (ds : List Diagnostic) :
    flattened (collected ds) = ds.map diagnostic := by
  rw [collected_eq_ofDiagnostics]
  cases ds with
  | nil => rfl
  | cons d ds => exact flattenAll_diagnostics (d :: ds)

/-- A list of what is left is taken apart into the same. -/
theorem flattened_ofList_of_single {rs : List Report} (h : ∀ r ∈ rs, r.isMany = false) :
    flattened (ofList (rs.map some)) = rs := by
  rw [flattened_ofList, List.flatMap_map]
  induction rs with
  | nil => rfl
  | cons r rs ih =>
    obtain ⟨hr, hrs⟩ := List.forall_mem_cons.mp h
    rw [List.flatMap_cons, ih hrs]
    show r.flatten ++ rs = r :: rs
    rw [flatten_of_single hr]
    rfl

end Report

/-! ### Compositions -/

namespace Composition

open Report (enclosed flattened diagnosed)

theorem map_enclosed_nil (r : Option Report) : r.map (enclosed []) = r := by
  cases r <;> rfl

/-- What is left of a list does not depend on the messages in front of it. -/
theorem flattened_enclosed_of_many {r : Option Report} (h : ∀ r' ∈ r, r'.isMany = true)
    (messages : List Text) : flattened (r.map (enclosed messages)) = flattened r := by
  cases r with
  | none => rfl
  | some r => exact Report.flatten_enclosed_of_many (h r rfl) messages

theorem isMany_ofList (entries : List (Option Report)) :
    ∀ r ∈ Report.ofList entries, r.isMany = true := by
  cases entries with
  | nil => rintro r ⟨⟩
  | cons entry entries =>
    rintro r ⟨⟩
    rfl

theorem isMany_collected (ds : List Diagnostic) : ∀ r ∈ Report.collected ds, r.isMany = true := by
  rw [Report.collected_eq_ofDiagnostics]
  cases ds with
  | nil => rintro r ⟨⟩
  | cons d ds =>
    rintro r ⟨⟩
    rfl

mutual

/-- Behind some messages, a composition leaves its single problems, each with its messages. -/
theorem flatten_enclosed (messages : List Text) : (c : Composition) →
    flattened (c.report.map (enclosed messages)) =
      (c.problems messages).map fun p => enclosed p.1 p.2
  | nothing => rfl
  | diagnostic d => Report.flatten_of_single (Report.isMany_enclosed messages (.diagnostic d))
  | plain t => Report.flatten_of_single (Report.isMany_enclosed messages (.plain t))
  | collected ds => by
    unfold report problems
    rw [flattened_enclosed_of_many (isMany_collected ds), Report.flattened_collected, List.map_map]
    rfl
  | listed parts => by
    unfold report problems
    rw [Report.foldl_append_none, flattened_enclosed_of_many (isMany_ofList _),
      Report.flattened_ofList]
    exact flatten_parts parts
  | wrapped message inner => by
    unfold report problems
    cases hr : inner.report with
    | none => exact Report.flatten_of_single (Report.isMany_enclosed messages (.plain _))
    | some r =>
      -- the message becomes the innermost of those in front
      have hmove : enclosed messages (Report.wrap message (some r)) =
          enclosed (messages ++ [message]) r := by
        unfold enclosed
        rw [List.foldr_append]
        rfl
      have ih := flatten_enclosed (messages ++ [message]) inner
      rw [hr] at ih
      rw [Option.map_some, hmove]
      exact ih

theorem flatten_parts : (parts : List Composition) →
    (reports parts).flatMap flattened = (problemsAll parts).map fun p => enclosed p.1 p.2
  | [] => rfl
  | c :: parts => by
    have hc := flatten_enclosed [] c
    rw [map_enclosed_nil] at hc
    unfold reports problemsAll
    rw [List.flatMap_cons, List.map_append, hc, flatten_parts parts]

end

/-- What makes no report has been made from no diagnostics. -/
theorem diagnostics_of_report_eq_none {c : Composition} (h : c.report = none) :
    c.diagnostics = [] := by
  cases c with
  | nothing => rfl
  | diagnostic d => cases h
  | plain t => cases h
  | collected ds =>
    cases ds with
    | nil => rfl
    | cons d ds =>
      unfold report at h
      rw [Report.collected_eq_ofDiagnostics] at h
      cases h
  | listed parts =>
    cases parts with
    | nil => rfl
    | cons c parts =>
      unfold report at h
      rw [Report.foldl_append_none] at h
      cases h
  | wrapped message inner => cases h

mutual

/-- The diagnostics among the single problems are those the report has been made from. -/
theorem filterMap_problems (messages : List Text) : (c : Composition) →
    (c.problems messages).filterMap (fun p => p.2.diagnostic?) = c.diagnostics
  | nothing => rfl
  | diagnostic _ => rfl
  | plain _ => rfl
  | collected ds => by
    unfold problems diagnostics
    rw [List.filterMap_map]
    exact List.filterMap_some
  | listed parts => filterMap_problemsAll parts
  | wrapped message inner => by
    unfold problems diagnostics
    split
    · next hnone =>
      rw [diagnostics_of_report_eq_none (Option.isNone_iff_eq_none.mp hnone)]
      rfl
    · exact filterMap_problems (messages ++ [message]) inner

theorem filterMap_problemsAll : (parts : List Composition) →
    (problemsAll parts).filterMap (fun p => p.2.diagnostic?) = diagnosticsAll parts
  | [] => rfl
  | c :: parts => by
    unfold problemsAll diagnosticsAll
    rw [List.filterMap_append, filterMap_problems [] c, filterMap_problemsAll parts]

end

theorem flattened_report (c : Composition) :
    flattened c.report = (c.problems []).map fun p => enclosed p.1 p.2 := by
  have hc := flatten_enclosed [] c
  rwa [map_enclosed_nil] at hc

theorem diagnosed_eq_filterMap (r : Option Report) :
    diagnosed r = (flattened r).filterMap Report.diagnostic? := by
  cases r <;> rfl

/-- However a report has been put together, its diagnostics are those it has been made from, each
once and from left to right; taking it apart gives its single problems in the same order, none of
them a list or a message in front of one; and a list of these is taken apart into the same. -/
theorem survives_wrapping (c : Composition) :
    diagnosed c.report = c.diagnostics ∧
      flattened c.report = (c.problems []).map (fun p => enclosed p.1 p.2) ∧
      (c.problems []).filterMap (fun p => p.2.diagnostic?) = c.diagnostics ∧
      (∀ p ∈ flattened c.report, p.isMany = false) ∧
      (Report.many (flattened c.report)).flatten = flattened c.report ∧
      flattened (((flattened c.report).map some).foldl Report.append none) =
        flattened c.report := by
  have hproblems := c.filterMap_problems []
  have hsingle : ∀ p ∈ flattened c.report, p.isMany = false := by
    cases hr : c.report with
    | none => exact List.forall_mem_nil _
    | some r => exact Report.isMany_of_mem_flatten r
  refine ⟨?_, c.flattened_report, hproblems, hsingle, ?_, ?_⟩
  · rw [diagnosed_eq_filterMap, c.flattened_report, List.filterMap_map, ← hproblems]
    simp only [Function.comp_def, Report.diagnostic?_enclosed]
  · exact Report.flattenAll_of_single hsingle
  · rw [Report.foldl_append_none]
    exact Report.flattened_ofList_of_single hsingle

end Composition

end Lox
