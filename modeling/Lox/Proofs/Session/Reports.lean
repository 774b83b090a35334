import Lox.CommandLine
import Lox.Report
import Lox.Proofs.Machine.Traffic

/-!
# Reports of a session

A source with problems is turned away as a whole: its problems are reported, each on one line, in the
order in which they were found, and nothing else happens. A source without problems causes reports
only by what its run does: for modules that are turned away, and for the failure with which it ends.
-/

namespace Lox

/-! ### Collecting problems -/

namespace Report

/-- One more problem at the end of a report. -/
def add (report : Option Report) (d : Diagnostic) : Option Report :=
  some (many (spliced report ++ [diagnostic d]))

/-- The report of problems that are found one after the other. -/
def collected (ds : List Diagnostic) : Option Report := ds.foldl add none

/-- A report with the entries of another at its end; if there is no other, as it is. -/
def join (report other : Option Report) : Option Report :=
  match other with
  | none => report
  | some r => some (many (spliced report ++ spliced (some r)))

theorem foldl_add (ds : List Diagnostic) (reports : List Report) :
    ds.foldl add (some (many reports)) = some (many (reports ++ ds.map diagnostic)) := by
  induction ds generalizing reports with
  | nil => simp
  | cons d ds ih =>
    have hadd : add (some (many reports)) d = some (many (reports ++ [diagnostic d])) := rfl
    rw [List.foldl_cons, hadd, ih, List.map_cons, List.append_assoc]
    rfl

theorem collected_eq_ofDiagnostics (ds : List Diagnostic) : collected ds = ofDiagnostics ds := by
  cases ds with
  | nil => rfl
  | cons d ds => exact foldl_add ds [diagnostic d]

/-- Two lists of problems that are put together are one. -/
theorem join_collected (ds es : List Diagnostic) :
    join (join none (collected ds)) (collected es) = collected (ds ++ es) := by
  simp only [collected_eq_ofDiagnostics]
  cases ds <;> cases es <;> simp [join, ofDiagnostics, spliced]

theorem flattenAll_diagnostics (ds : List Diagnostic) :
    flattenAll (ds.map diagnostic) = ds.map diagnostic := by
  induction ds with
  | nil => rfl
  | cons d ds ih =>
    rw [List.map_cons, flattenAll, ih]
    rfl

/-- Nothing is lost, doubled or moved when a report of problems is taken apart. -/
theorem flatten_collected {ds : List Diagnostic} (h : ds ≠ []) :
    ∃ r, collected ds = some r ∧ r.flatten = ds.map diagnostic := by
  rw [collected_eq_ofDiagnostics]
  cases ds with
  | nil => exact absurd rfl h
  | cons d ds => exact ⟨_, rfl, flattenAll_diagnostics (d :: ds)⟩

end Report

/-! ### The error stream -/

theorem Event.any_isRejection (events : List Event) :
    events.any isRejection = !(events.filterMap rejected?).isEmpty := by
  induction events with
  | nil => rfl
  | cons event events ih =>
    rw [List.any_cons, ih]
    cases event <;> rfl

/-- The line on which a problem is reported. -/
def Diagnostic.shown (d : Diagnostic) : Text := d.text ++ "\n"

/-- The line on which a single problem of a report is shown. -/
def Report.shown (r : Report) : Text := r.text ++ "\n"

namespace Output

/-- What is written to the error stream. -/
def err? : Output → Option Text
  | err t => some t
  | _ => none

/-- Everything written to the error stream, one piece for each time that something is. -/
def errs (outputs : List Output) : List Text := outputs.filterMap err?

theorem errs_append (outputs more : List Output) : errs (outputs ++ more) = errs outputs ++ errs more :=
  List.filterMap_append

theorem errs_reports (faults : List Diagnostic) : errs (reports faults) = faults.map Diagnostic.shown := by
  induction faults with
  | nil => rfl
  | cons d faults ih => exact congrArg (d.shown :: ·) ih

/-- Of the events of a run, those that turn modules away are reported. -/
theorem errs_ofEvents (events : List Event) :
    errs (events.flatMap ofEvent) =
      (events.filterMap Event.rejected?).flatten.map Diagnostic.shown := by
  induction events with
  | nil => rfl
  | cons event events ih =>
    rw [List.flatMap_cons, errs_append, ih]
    cases event with
    | printed t => rfl
    | logged entry => rfl
    | rejected faults =>
      rw [ofEvent, errs_reports, ← List.map_append]
      rfl

end Output

/-! ### Sources with problems, and without -/

namespace Session

/-- A source is turned away for its problems. They are those of the report that the stages make, each
is written on a line of its own, and nothing but the error stream and the memory of the session shows
that there was a source at all. -/
structure Refuses (s : Session) (faults : List Diagnostic) (report : Option Report)
    (result : Verdict × List Output × Session) : Prop where
  verdict : ∃ r, result.1 = .rejected r ∧ r.faults = faults
  errs : Output.errs result.2.1 = faults.map Diagnostic.shown
  flattened : ∃ r, report = some r ∧ Output.errs result.2.1 = r.flatten.map Report.shown
  noOutput : ∀ t, .out t ∉ result.2.1
  session : result.2.2 = { s with hadError := true }

/-- The tree of a program is printed, and that is all. -/
structure Prints (s : Session) (program : Program Unit) (result : Verdict × List Output × Session) :
    Prop where
  verdict : result.1 = .finished
  errs : Output.errs result.2.1 = []
  output : Output.outText result.2.1 = program.printed
  session : result.2.2 = s

/-- The problems of the modules that a run turns away, in order; modules come first that were turned
away before and that nobody has been told about. -/
def rejections (s : Session) (n : Nat) (program : Program Address) : List (List Diagnostic) :=
  s.interpreter.world.events.reverse.filterMap Event.rejected? ++
    (s.interpreter.stateAt program 0).meets s.interpreter.host (State.rejects? s.interpreter.host) n

/-- A program is run, and nothing is reported but modules that are turned away and the failure with
which the run ends. -/
structure Admits (s : Session) (n : Nat) (program : Program Address)
    (result : Verdict × List Output × Session) : Prop where
  verdict : result.1 = .ofEnding (s.interpreter.execute n program).1
  errs : Output.errs result.2.1 =
    (s.rejections n program).flatten.map Diagnostic.shown ++ Output.errs result.1.report
  interpreter : result.2.2.interpreter = (s.interpreter.execute n program).2.2
  printTrees : result.2.2.printTrees = s.printTrees
  hadError : result.2.2.hadError = (s.hadError || !(s.rejections n program).isEmpty)
  hadFailure : result.2.2.hadFailure = (s.hadFailure || result.1.isFailure)

variable {s : Session} {n : Nat} {result : Verdict × List Output × Session}

theorem refuses_reject (s : Session) {r : Rejection} (h : r.faults ≠ []) :
    s.Refuses r.faults (Report.collected r.faults) (s.reject r) where
  verdict := ⟨r, rfl, rfl⟩
  errs := Output.errs_reports r.faults
  flattened := by
    obtain ⟨report, hreport, hflat⟩ := Report.flatten_collected h
    refine ⟨report, hreport, ?_⟩
    rw [hflat, List.map_map]
    exact Output.errs_reports r.faults
  noOutput := by
    intro t ht
    obtain ⟨d, -, hd⟩ := List.mem_map.mp ht
    cases hd
  session := rfl

/-- Messages for tracing change nothing about it. -/
theorem Refuses.cons_debug {faults : List Diagnostic} {report : Option Report}
    (h : s.Refuses faults report result) (message : Text) (fields : List (Text × Text)) :
    s.Refuses faults report (result.1, .debug message fields :: result.2.1, result.2.2) where
  verdict := h.verdict
  errs := h.errs
  flattened := h.flattened
  noOutput := by
    intro t ht
    rcases List.mem_cons.mp ht with ht | ht
    · cases ht
    · exact h.noOutput t ht
  session := h.session

theorem Prints.cons_debug {program : Program Unit} (h : s.Prints program result) (message : Text)
    (fields : List (Text × Text)) :
    s.Prints program (result.1, .debug message fields :: result.2.1, result.2.2) :=
  ⟨h.verdict, h.errs, h.output, h.session⟩

theorem Admits.cons_debug {program : Program Address} (h : s.Admits n program result)
    (message : Text) (fields : List (Text × Text)) :
    s.Admits n program (result.1, .debug message fields :: result.2.1, result.2.2) :=
  ⟨h.verdict, h.errs, h.interpreter, h.printTrees, h.hadError, h.hadFailure⟩

theorem admits_execute (s : Session) (n : Nat) (program : Program Address) :
    s.Admits n program (s.execute n program) := by
  obtain ⟨new, hnew, hrejected, -⟩ := (State.accounts_run s.interpreter.host
    (s.interpreter.stateAt program 0) n).events
  have hevents : (s.interpreter.execute n program).2.1.filterMap Event.rejected? =
      s.rejections n program := by
    calc (s.interpreter.stateAt program n).world.events.reverse.filterMap Event.rejected?
        = (new ++ s.interpreter.world.events).reverse.filterMap Event.rejected? :=
          congrArg (fun events : List Event => events.reverse.filterMap Event.rejected?) hnew
      _ = s.rejections n program := by
          rw [List.reverse_append, List.filterMap_append, hrejected]
          rfl
  refine ⟨rfl, ?_, rfl, rfl, ?_, rfl⟩
  · rw [← hevents, ← Output.errs_ofEvents]
    exact Output.errs_append _ _
  · rw [← hevents, ← Event.any_isRejection]
    rfl

theorem prints_runParsed (htrees : s.printTrees = true) (program : Program Unit) :
    s.Prints program (s.runParsed n program) := by
  unfold runParsed
  rw [if_pos htrees]
  exact ⟨rfl, rfl, List.append_nil _, rfl⟩

theorem refuses_runParsed (htrees : s.printTrees = false) {program : Program Unit}
    (hplaced : (Resolved.ofProgram program).faults ≠ []) :
    s.Refuses (Resolved.ofProgram program).faults
      (Report.collected (Resolved.ofProgram program).faults) (s.runParsed n program) := by
  have haddress : Program.address .full program =
      .error (.misplaced (Resolved.ofProgram program).faults) := by
    unfold Program.address
    dsimp only
    split
    · next hnil => exact absurd hnil hplaced
    · rfl
  unfold runParsed
  rw [if_neg (by simp [htrees]), haddress]
  exact s.refuses_reject (r := .misplaced (Resolved.ofProgram program).faults) hplaced

theorem admits_runParsed (htrees : s.printTrees = false) {program : Program Unit}
    (hplaced : (Resolved.ofProgram program).faults = []) :
    s.Admits n (Resolved.ofProgram program).program (s.runParsed n program) := by
  have haddress : Program.address .full program = .ok (Resolved.ofProgram program).program := by
    unfold Program.address
    dsimp only
    rw [hplaced]
  unfold runParsed
  rw [if_neg (by simp [htrees]), haddress]
  exact (s.admits_execute n _).cons_debug _ _

/-- Every source leaves a message about what was read of it. -/
theorem run_eq (s : Session) (n : Nat) (source : Text) :
    let scan := Scan.ofSource source
    let parsed := Parsed.ofTokens scan.tokens
    let result := if scan.faults ++ parsed.faults = [] then s.runParsed n parsed.program
      else s.reject (.malformed (scan.faults ++ parsed.faults))
    ∃ fields, s.run n source =
      (result.1, .debug "parsed program" fields :: result.2.1, result.2.2) := by
  intro scan parsed
  refine ⟨[("tokens", Text.ofNat scan.tokens.length),
    ("statements", Text.ofNat parsed.program.length)], ?_⟩
  unfold run
  dsimp only
  split
  · next hformed => rw [if_pos hformed]
  · next hformed => rw [if_neg hformed]

theorem refuses_run_malformed {source : Text}
    (h : (Scan.ofSource source).faults ++
      (Parsed.ofTokens (Scan.ofSource source).tokens).faults ≠ []) :
    s.Refuses ((Scan.ofSource source).faults ++
        (Parsed.ofTokens (Scan.ofSource source).tokens).faults)
      (Report.collected ((Scan.ofSource source).faults ++
        (Parsed.ofTokens (Scan.ofSource source).tokens).faults)) (s.run n source) := by
  obtain ⟨fields, hrun⟩ := s.run_eq n source
  rw [hrun, if_neg h]
  exact (s.refuses_reject (r := .malformed _) h).cons_debug _ _

/-- A well-formed source fares as its program does. -/
theorem run_formed {source : Text}
    (h : (Scan.ofSource source).faults ++
      (Parsed.ofTokens (Scan.ofSource source).tokens).faults = []) :
    ∃ fields, s.run n source =
      let result := s.runParsed n (Parsed.ofTokens (Scan.ofSource source).tokens).program
      (result.1, .debug "parsed program" fields :: result.2.1, result.2.2) := by
  obtain ⟨fields, hrun⟩ := s.run_eq n source
  rw [if_pos h] at hrun
  exact ⟨fields, hrun⟩

/-- A source with problems is turned away as a whole, and one without is run. -/
theorem run_static (s : Session) (n : Nat) (source : Text) :
    let scan := Scan.ofSource source
    let parsed := Parsed.ofTokens scan.tokens
    let resolved := Resolved.ofProgram parsed.program
    if scan.faults ++ parsed.faults ≠ [] then
      s.Refuses (scan.faults ++ parsed.faults)
        (Report.join (Report.join none (Report.collected scan.faults))
          (Report.collected parsed.faults)) (s.run n source)
    else if s.printTrees then s.Prints parsed.program (s.run n source)
    else if resolved.faults ≠ [] then
      s.Refuses resolved.faults (Report.collected resolved.faults) (s.run n source)
    else s.Admits n resolved.program (s.run n source) := by
  intro scan parsed resolved
  rw [Report.join_collected]
  by_cases hformed : scan.faults ++ parsed.faults = []
  · rw [if_neg (not_not.mpr hformed)]
    obtain ⟨fields, hrun⟩ := run_formed (s := s) (n := n) hformed
    rw [hrun]
    cases htrees : s.printTrees with
    | true => exact (prints_runParsed htrees parsed.program).cons_debug _ _
    | false =>
      rw [if_neg Bool.false_ne_true]
      by_cases hplaced : resolved.faults = []
      · rw [if_neg (not_not.mpr hplaced)]
        exact (admits_runParsed htrees hplaced).cons_debug _ _
      · rw [if_pos hplaced]
        exact (refuses_runParsed htrees hplaced).cons_debug _ _
  · rw [if_pos hformed]
    exact refuses_run_malformed hformed

/-! ### Sources that are to be run -/

theorem refuses_run (htrees : s.printTrees = false) {source : Text} (h : Source.HasFault source) :
    ∃ faults report, s.Refuses faults report (s.run n source) := by
  by_cases hformed : (Scan.ofSource source).faults ++
      (Parsed.ofTokens (Scan.ofSource source).tokens).faults = []
  · obtain ⟨fields, hrun⟩ := run_formed (s := s) (n := n) hformed
    obtain ⟨hscan, hparsed⟩ := List.append_eq_nil_iff.mp hformed
    have hplaced := (h.resolve_left (not_not.mpr hscan)).resolve_left (not_not.mpr hparsed)
    rw [hrun]
    exact ⟨_, _, (refuses_runParsed htrees hplaced).cons_debug _ _⟩
  · exact ⟨_, _, refuses_run_malformed hformed⟩

theorem admits_run (htrees : s.printTrees = false) {source : Text} {program : Program Address}
    (h : Program.ofSource source = .ok program) : s.Admits n program (s.run n source) := by
  unfold Program.ofSource Program.ofSourceWith Program.address at h
  dsimp only at h
  split at h
  · next hformed =>
    split at h
    · next hplaced =>
      obtain ⟨fields, hrun⟩ := run_formed (s := s) (n := n) hformed
      cases h
      rw [hrun]
      exact (admits_runParsed htrees hplaced).cons_debug _ _
    · cases h
  · cases h

end Session

end Lox
