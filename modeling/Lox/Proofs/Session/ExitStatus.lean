import Lox.Proofs.Session.Reports

/-!
# The exit status of a script

A script ends with the status of the first thing that is wrong with it: it cannot be read; it, or a
module that its run loads, has problems; or its run fails. Otherwise nothing is reported at all.
-/

namespace Lox

/-! ### Hidden messages -/

namespace Output

/-- All messages are for those who trace the program's work. -/
def Traces (outputs : List Output) : Prop := ∀ entry, .log entry ∈ outputs → entry.level = .debug

/-- Where such messages are hidden, the error stream has only what is reported. -/
theorem Traces.errTextWithLog {outputs : List Output} (h : Traces outputs) {level : LogLevel}
    (hlevel : LogLevel.debug.shownAt level = false) :
    errTextWithLog level outputs = (errs outputs).flatten := by
  induction outputs with
  | nil => rfl
  | cons output outputs ih =>
    have hrest := ih fun entry hentry => h entry (List.mem_cons_of_mem _ hentry)
    cases output with
    | err t => exact congrArg (t ++ ·) hrest
    | out t => exact hrest
    | log entry =>
      have hentry : entry.level = .debug := h entry List.mem_cons_self
      have hhidden : Output.errTextWithLog level (log entry :: outputs) =
          Output.errTextWithLog level outputs := by
        simp [Output.errTextWithLog, hentry, hlevel]
      exact hhidden.trans hrest

theorem Traces.cons_debug {outputs : List Output} (h : Traces outputs) (message : Text)
    (fields : List (Text × Text)) : Traces (.debug message fields :: outputs) := by
  intro entry hentry
  rcases List.mem_cons.mp hentry with hentry | hentry
  · cases hentry
    rfl
  · exact h entry hentry

/-- The messages of a run are for tracing. -/
theorem traces_execute {i : Interpreter} (hi : i.world.events = []) (n : Nat)
    (program : Program Address) : Traces ((i.execute n program).2.1.flatMap ofEvent) := by
  obtain ⟨new, hnew, -, hdebug⟩ := (State.accounts_run i.host (i.stateAt program 0) n).events
  have hevents : (i.execute n program).2.1 = new.reverse := by
    have hstart : (i.stateAt program 0).world.events = [] := hi
    rw [hstart, List.append_nil] at hnew
    exact congrArg List.reverse hnew
  rw [hevents]
  intro entry hentry
  obtain ⟨event, hevent, hentry⟩ := List.mem_flatMap.mp hentry
  cases event with
  | printed t => cases List.mem_singleton.mp hentry
  | rejected faults =>
    obtain ⟨d, -, hd⟩ := List.mem_map.mp hentry
    cases hd
  | logged other =>
    cases List.mem_singleton.mp hentry
    exact hdebug entry (List.mem_reverse.mp hevent)

end Output

/-! ### Modules on the disk -/

/-- The next step imports a module whose file is found and can be read, within the limit. -/
inductive State.Loads (disk : Disk) (search : ModuleSearch) (host : Host) : State → Text → Prop
  | load {path : Token} {asName : Option Mark} {env : FrameId} {rest : List Resume} {w : World}
      {file source : Text} : search.locate disk (Import.path path) = .ok file →
      disk.read file = .ok source → w.depth + 1 ≤ host.limit →
      Loads disk search host (exec (.importDecl path asName) env rest w) source

theorem State.loads?_eq_some_iff {disk : Disk} {search : ModuleSearch} {host : Host}
    (hhost : host.modules = some (Session.locate disk search)) {s : State} {source : Text} :
    s.loads? host = some source ↔ s.Loads disk search host source := by
  constructor
  · intro h
    unfold loads? at h
    split at h
    · rw [hhost] at h
      dsimp only [Session.locate] at h
      split at h
      · next hfound =>
        split at hfound
        · cases hfound
        · next hfile =>
          split at hfound
          · cases hfound
          · next hsource =>
            cases hfound
            split at h
            · cases h
            · next hfull =>
              cases h
              refine .load hfile hsource ?_
              simpa [World.isFull] using hfull
      · cases h
    · cases h
  · rintro ⟨hfile, hsource, hdepth⟩
    have hfull : World.isFull _ host = false := decide_eq_false (Nat.not_lt.mpr hdepth)
    simp [loads?, hhost, Session.locate, hfile, hsource, hfull]

theorem State.rejects?_eq_some_iff {host : Host} {s : State} {faults : List Diagnostic} :
    s.rejects? host = some faults ↔
      ∃ source, s.loads? host = some source ∧ Source.faults source = faults ∧ faults ≠ [] := by
  unfold rejects?
  rw [Option.filter_eq_some_iff, Option.map_eq_some_iff]
  constructor
  · rintro ⟨⟨source, hloads, rfl⟩, hne⟩
    exact ⟨source, hloads, rfl, of_decide_eq_true hne⟩
  · rintro ⟨source, hloads, rfl, hne⟩
    exact ⟨⟨source, hloads, rfl⟩, decide_eq_true hne⟩

theorem State.loads?_of_isFinal {host : Host} {s : State} (h : s.isFinal = true) :
    s.loads? host = none := by
  cases s with
  | exec s env rest w => cases h
  | _ => rfl

/-! ### Fresh sessions -/

/-- A session that has nothing to report yet, runs programs, and finds modules on a disk. -/
structure Session.Fresh (disk : Disk) (search : ModuleSearch) (s : Session) : Prop where
  printTrees : s.printTrees = false
  hadError : s.hadError = false
  hadFailure : s.hadFailure = false
  events : s.interpreter.world.events = []
  modules : s.interpreter.host.modules = some (locate disk search)

theorem Session.fresh_new (disk : Disk) (config : Config) (clock : Clock) (input : Input)
    (echo : Bool) : (Session.new disk config clock input echo false).2.Fresh disk
      (searchOf disk config) :=
  ⟨rfl, rfl, rfl, rfl, rfl⟩

/-! ### What can be wrong with a script -/

namespace Script

/-- The run of a program loads a module that has a problem. -/
def Misloads (disk : Disk) (search : ModuleSearch) (i : Interpreter) (program : Program Address) :
    Prop :=
  ∃ k source, (i.stateAt program k).Loads disk search i.host source ∧ Source.HasFault source

/-- A script has a problem, or its run loads a module that has one. -/
def Faulty (disk : Disk) (search : ModuleSearch) (i : Interpreter) (path : Text) : Prop :=
  ∃ source, disk.read path = .ok source ∧
    (Source.HasFault source ∨
      ∃ program, Program.ofSource source = .ok program ∧ Misloads disk search i program)

/-- A script runs and fails. -/
def Fails (disk : Disk) (i : Interpreter) (path : Text) : Prop :=
  ∃ source program, disk.read path = .ok source ∧ Program.ofSource source = .ok program ∧
    ∃ k f, (i.stateAt program k).ending = .failed f

variable {disk : Disk} {search : ModuleSearch} {s : Session} {n : Nat} {path source : Text}
  {program : Program Address}

/-- Modules are turned away in a run that ends if it loads one with a problem. -/
theorem isEmpty_rejections_iff (hs : s.Fresh disk search)
    (hend : (s.interpreter.execute n program).1 ≠ .outOfSteps) :
    (s.rejections n program).isEmpty = false ↔ Misloads disk search s.interpreter program := by
  have hfinal := Interpreter.isFinal_of_ending hend
  have hmeets : s.rejections n program = (s.interpreter.stateAt program 0).meets s.interpreter.host
      (State.rejects? s.interpreter.host) n := by
    unfold Session.rejections
    rw [hs.events]
    rfl
  rw [hmeets, List.isEmpty_eq_false_iff_exists_mem]
  simp only [State.mem_meets, State.rejects?_eq_some_iff]
  constructor
  · rintro ⟨faults, k, -, source, hloads, rfl, hne⟩
    exact ⟨k, source, (State.loads?_eq_some_iff hs.modules).mp hloads,
      Source.faults_ne_nil_iff.mp hne⟩
  · rintro ⟨k, source, hloads, hfault⟩
    have hloads := (State.loads?_eq_some_iff hs.modules).mpr hloads
    refine ⟨_, k, ?_, source, hloads, rfl, Source.faults_ne_nil_iff.mpr hfault⟩
    -- Nothing is loaded once the run has ended.
    by_contra hk
    rw [Interpreter.stateAt_of_le hfinal (Nat.le_of_not_lt hk), State.loads?_of_isFinal hfinal] at hloads
    cases hloads

/-- A run that ends fails if it fails at any time. -/
theorem isFailure_iff {i : Interpreter} (hend : (i.execute n program).1 ≠ .outOfSteps) :
    (Verdict.ofEnding (i.execute n program).1).isFailure = true ↔
      ∃ k f, (i.stateAt program k).ending = .failed f := by
  have hexecute : (i.execute n program).1 = (i.stateAt program n).ending := rfl
  constructor
  · intro h
    cases hn : (i.stateAt program n).ending with
    | failed f => exact ⟨n, f, hn⟩
    | _ =>
      rw [hexecute, hn] at h
      cases h
  · rintro ⟨k, f, hf⟩
    have hk : (i.stateAt program k).isFinal = true :=
      Interpreter.isFinal_of_ending (by rintro hk; cases hf.symm.trans hk)
    have hsame : i.stateAt program n = i.stateAt program k := by
      rcases Nat.le_total n k with hle | hle
      · exact (Interpreter.stateAt_of_le (Interpreter.isFinal_of_ending hend) hle).symm
      · exact Interpreter.stateAt_of_le hk hle
    rw [hexecute, hsame, hf]
    rfl

theorem faulty_iff {i : Interpreter} (h : disk.read path = .ok source)
    (hfault : ¬ Source.HasFault source) (hprogram : Program.ofSource source = .ok program) :
    Faulty disk search i path ↔ Misloads disk search i program := by
  constructor
  · rintro ⟨other, hother, hbad⟩
    cases h.symm.trans hother
    obtain ⟨other, hother, hloads⟩ := hbad.resolve_left hfault
    cases hprogram.symm.trans hother
    exact hloads
  · intro hloads
    exact ⟨source, h, .inr ⟨program, hprogram, hloads⟩⟩

theorem fails_iff {i : Interpreter} (h : disk.read path = .ok source)
    (hprogram : Program.ofSource source = .ok program) :
    Fails disk i path ↔ ∃ k f, (i.stateAt program k).ending = .failed f := by
  constructor
  · rintro ⟨other, other', hother, hother', hfails⟩
    cases h.symm.trans hother
    cases hprogram.symm.trans hother'
    exact hfails
  · intro hfails
    exact ⟨source, program, h, hprogram, hfails⟩

end Script

/-! ### The status of a script -/

/-- A source has a problem, or it has a program. -/
theorem Source.ofSource_of_not_hasFault {source : Text} (h : ¬ Source.HasFault source) :
    ∃ program, Program.ofSource source = .ok program := by
  cases hsource : Program.ofSource source with
  | ok program => exact ⟨program, rfl⟩
  | error r =>
    exact absurd (Source.faults_ne_nil_iff.mp (Source.faults_of_ofSource_error hsource).2) h

theorem Session.traces_run {s : Session} (hs : s.interpreter.world.events = []) (n : Nat)
    (source : Text) : Output.Traces (s.run n source).2.1 := by
  have hreject : ∀ r, Output.Traces (s.reject r).2.1 := by
    intro r entry hentry
    obtain ⟨d, -, hd⟩ := List.mem_map.mp hentry
    cases hd
  have hexecute : ∀ program, Output.Traces (s.execute n program).2.1 := by
    intro program entry hentry
    rcases List.mem_append.mp hentry with hentry | hentry
    · exact Output.traces_execute hs n program entry hentry
    · unfold Verdict.report at hentry
      split at hentry
      · cases List.mem_singleton.mp hentry
      · cases hentry
  obtain ⟨fields, hrun⟩ := s.run_eq n source
  rw [hrun]
  refine Output.Traces.cons_debug ?_ _ _
  split
  · unfold runParsed
    split
    · intro entry hentry
      cases List.mem_singleton.mp hentry
    · split
      · exact hreject _
      · exact (hexecute _).cons_debug _ _
  · exact hreject _

namespace CommandLine

variable {disk : Disk} {search : ModuleSearch} {s : Session} {n : Nat} {path source : Text}
  {program : Program Address}

theorem runScript_of_error {reason : Text} (hs : s.Fresh disk search)
    (h : disk.read path = .error reason) : (runScript disk n path s).1 = .noInput := by
  have hcode : s.exitCode = .ok := by simp [Session.exitCode, hs.hadError, hs.hadFailure]
  unfold runScript Session.runFile
  rw [h]
  dsimp only
  rw [if_pos hcode]

/-- A script that can be read fares as its source does. -/
theorem runScript_of_ok (hs : s.Fresh disk search) (h : disk.read path = .ok source) :
    runScript disk n path s = ((s.run n source).2.2.exitCode,
      .debug "running file" [("path", path)] :: (s.run n source).2.1) := by
  have hread : ∀ message, (s.run n source).1 ≠ .unreadable message := by
    intro message hmessage
    by_cases hfault : Source.HasFault source
    · obtain ⟨faults, report, hrefuses⟩ := Session.refuses_run (n := n) hs.printTrees hfault
      obtain ⟨r, hr, -⟩ := hrefuses.verdict
      cases hr.symm.trans hmessage
    · obtain ⟨program, hprogram⟩ := Source.ofSource_of_not_hasFault hfault
      have hadmits := Session.admits_run (n := n) hs.printTrees hprogram
      have hending := hadmits.verdict.symm.trans hmessage
      cases hexecute : (s.interpreter.execute n program).1 <;> rw [hexecute] at hending <;>
        cases hending
  unfold runScript Session.runFile
  rw [h]
  dsimp only
  split
  · next message hmessage => exact absurd hmessage (hread message)
  · rfl

theorem runScript_of_hasFault (hs : s.Fresh disk search) (h : disk.read path = .ok source)
    (hfault : Source.HasFault source) : (runScript disk n path s).1 = .badSource := by
  obtain ⟨faults, report, hrefuses⟩ := Session.refuses_run (n := n) hs.printTrees hfault
  rw [runScript_of_ok hs h, hrefuses.session]
  rfl

/-- The status of a script with a program is that of what its run reports. -/
theorem runScript_of_program (hs : s.Fresh disk search) (h : disk.read path = .ok source)
    (hprogram : Program.ofSource source = .ok program) :
    (runScript disk n path s).1 =
      if (s.rejections n program).isEmpty = false then .badSource
      else if (Verdict.ofEnding (s.interpreter.execute n program).1).isFailure then .failure
      else .ok := by
  have hadmits := Session.admits_run (n := n) hs.printTrees hprogram
  rw [runScript_of_ok hs h]
  unfold Session.exitCode
  rw [hadmits.hadError, hadmits.hadFailure, hs.hadError, hs.hadFailure, hadmits.verdict]
  simp

/-- Nothing is reported about a script that ends well. -/
theorem errs_runScript (hs : s.Fresh disk search) (h : disk.read path = .ok source)
    (hprogram : Program.ofSource source = .ok program)
    (hloads : (s.rejections n program).isEmpty = true)
    (hfailed : (Verdict.ofEnding (s.interpreter.execute n program).1).isFailure = false) :
    Output.errs (runScript disk n path s).2 = [] := by
  have hadmits := Session.admits_run (n := n) hs.printTrees hprogram
  have hreport : (s.run n source).1.report = [] := by
    rw [hadmits.verdict]
    cases hending : (s.interpreter.execute n program).1 with
    | failed f =>
      rw [hending] at hfailed
      cases hfailed
    | _ => rfl
  have herrs := hadmits.errs
  rw [List.isEmpty_iff.mp hloads, hreport] at herrs
  rw [runScript_of_ok hs h]
  exact herrs

/-- The status of a script whose run ends. It tells whether the script can be read, has a problem or
loads a module that has one, or else fails; and if nothing of this is so, nothing is reported. -/
theorem runScript_status (disk : Disk) (config : Config) (clock : Clock) (input : Input)
    (echo : Bool) (n : Nat) (path : Text)
    (hend : ((Session.new disk config clock input echo false).2.runFile disk n path).1 ≠
      .outOfSteps) :
    let search := Session.searchOf disk config
    let s := (Session.new disk config clock input echo false).2
    let result := runScript disk n path s
    (result.1.number = 66 ↔ ¬ ∃ source, disk.read path = .ok source) ∧
    (result.1.number = 65 ↔ Script.Faulty disk search s.interpreter path) ∧
    (result.1.number = 70 ↔ (∃ source, disk.read path = .ok source) ∧
      ¬ Script.Faulty disk search s.interpreter path ∧ Script.Fails disk s.interpreter path) ∧
    (result.1.number = 0 ↔ (∃ source, disk.read path = .ok source) ∧
      ¬ Script.Faulty disk search s.interpreter path ∧ ¬ Script.Fails disk s.interpreter path) ∧
    (result.1.number = 0 → ∀ level, LogLevel.debug.shownAt level = false →
      Output.errTextWithLog level result.2 = []) := by
  intro search s result
  have hs : s.Fresh disk search := Session.fresh_new disk config clock input echo
  cases hread : disk.read path with
  | error reason =>
    have hcode : result.1 = .noInput := runScript_of_error hs hread
    simp [hcode, ExitCode.number, Script.Faulty, hread]
  | ok source =>
    by_cases hfault : Source.HasFault source
    · have hcode : result.1 = .badSource := runScript_of_hasFault hs hread hfault
      have hfaulty : Script.Faulty disk search s.interpreter path := ⟨source, hread, .inl hfault⟩
      simp [hcode, ExitCode.number, hfaulty]
    · obtain ⟨program, hprogram⟩ := Source.ofSource_of_not_hasFault hfault
      have hended : (s.interpreter.execute n program).1 ≠ .outOfSteps := by
        intro hout
        have hverdict := (Session.admits_run (n := n) hs.printTrees hprogram).verdict
        rw [hout] at hverdict
        refine hend ?_
        unfold Session.runFile
        rw [hread]
        exact hverdict
      have hcode : result.1 = _ := runScript_of_program hs hread hprogram
      rw [Script.faulty_iff hread hfault hprogram, Script.fails_iff hread hprogram,
        ← Script.isEmpty_rejections_iff hs hended, ← Script.isFailure_iff hended]
      cases hloads : (s.rejections n program).isEmpty with
      | false =>
        rw [if_pos hloads] at hcode
        simp [hcode, ExitCode.number]
      | true =>
        rw [if_neg (by simp [hloads])] at hcode
        cases hfailed : (Verdict.ofEnding (s.interpreter.execute n program).1).isFailure with
        | true =>
          rw [if_pos hfailed] at hcode
          simp [hcode, ExitCode.number]
        | false =>
          rw [if_neg (by simp [hfailed])] at hcode
          have herrs := errs_runScript hs hread hprogram hloads hfailed
          have htraces : Output.Traces result.2 := by
            have houtputs := congrArg Prod.snd (runScript_of_ok (n := n) hs hread)
            exact houtputs ▸ (Session.traces_run hs.events n source).cons_debug _ _
          simp only [hcode, ExitCode.number]
          refine ⟨by simp, by simp, by simp, by simp, fun _ level hlevel => ?_⟩
          rw [htraces.errTextWithLog hlevel, herrs]
          rfl

/-- A script loads a module, which loads one that returns at top level. -/
theorem runScript_status_nested :
    let files : List (Text × Entry) :=
      [("a", .file "import \"b\";"), ("b", .file "return;"), ("m", .file "import \"a\";")]
    let disk : Disk := ⟨.folder files, "/"⟩
    let config : Config := ⟨[], "/", [], false, 0, [], [], []⟩
    let s := (Session.new disk config 0 ⟨[], none⟩ false false).2
    (s.runFile disk 30 "m").1 ≠ .outOfSteps ∧ (runScript disk 30 "m" s).1.number = 65 ∧
      Script.Faulty disk (Session.searchOf disk config) s.interpreter "m" := by
  intro files disk config s
  have hfails : (s.runFile disk 30 "m").1.isFailure = true := by
    set_option maxRecDepth 4000 in cbv
  have hcode : (runScript disk 30 "m" s).1.number = 65 := by
    set_option maxRecDepth 4000 in cbv
  have hend : (s.runFile disk 30 "m").1 ≠ .outOfSteps := by
    intro hout
    rw [hout] at hfails
    cases hfails
  exact ⟨hend, hcode, (runScript_status disk config 0 ⟨[], none⟩ false 30 "m" hend).2.1.mp hcode⟩

end CommandLine

end Lox
