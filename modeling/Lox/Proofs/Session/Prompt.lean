import Lox.Proofs.Session.Reports

/-!
# Sessions at the prompt

At the prompt and in the programs that are run there, lines come from one input. Every line is taken
once, in order, by the prompt or by a native function; the prompt runs the lines that it takes, unless
they are blank or end the session, and goes on until a run exceeds the limit of nested calls.
-/

namespace Lox

/-! ### Lines -/

theorem Text.length_lines_le (t : Text) : t.lines.length ≤ t.length := by
  fun_induction Text.lines t with
  | case1 => exact Nat.le_refl 0
  | case2 t ih => exact Nat.succ_le_succ ih
  | case3 b t hb hlines ih => exact Nat.succ_le_succ (Nat.zero_le _)
  | case4 b t hb line more hlines ih =>
    rw [hlines] at ih
    exact Nat.le_succ_of_le ih

/-- Whether a run has ended. -/
def Verdict.hasEnded : Verdict → Bool
  | outOfSteps => false
  | _ => true

namespace Session

variable {s t : Session} {n : Nat} {source line : Text}

/-- The lines of the input that are left. -/
def lines (s : Session) : List Text := s.interpreter.world.input.lines

/-- A session with something else left of the input. -/
def withInput (s : Session) (input : Input) : Session :=
  { s with interpreter := { s.interpreter with world := { s.interpreter.world with input } } }

/-- The next line is the first that is left, and taking it changes nothing but the input. -/
theorem nextLine?_cases (s : Session) :
    (s.lines = [] ∧ s.nextLine? = none) ∨
    ∃ raw input, s.lines = raw :: (s.withInput input).lines ∧
      s.nextLine? = some (raw.unterminated, s.withInput input) := by
  obtain ⟨⟨host, ⟨store, input, clock, depth, echo, events⟩, globals⟩, printTrees, hadError,
    hadFailure⟩ := s
  have hcases := input.readLine_cases
  unfold nextLine?
  dsimp only
  generalize input.readLine = read at hcases ⊢
  obtain ⟨line, stop, left⟩ := read
  rcases hcases with ⟨hend, hlines, -⟩ | ⟨hrest, hread, raw, rfl, hlines⟩
  · refine .inl ⟨hlines, ?_⟩
    by_cases hrest : input.rest = []
    · exact if_pos hrest
    · obtain ⟨reason, rfl⟩ := hend.resolve_left hrest
      exact if_neg hrest
  · refine .inr ⟨raw, left, hlines, ?_⟩
    rw [if_neg hrest]
    cases stop with
    | failed reason => exact absurd rfl (hread reason)
    | newline | endOfInput => rfl

/-! ### Lines that a run takes -/

/-- The lines that the run of a source takes from the input, in order. -/
def reads (s : Session) (n : Nat) (source : Text) : List Text :=
  match s.printTrees, Program.ofSource source with
  | false, .ok program =>
    (s.interpreter.stateAt program 0).meets s.interpreter.host State.takes? n
  | _, _ => []

/-- A source that is turned away, or of which only the tree is printed, does nothing. -/
theorem run_unfit (h : ∀ program, s.printTrees = false → Program.ofSource source ≠ .ok program) :
    (s.run n source).2.2.interpreter = s.interpreter ∧ (s.run n source).1.isFatal = false := by
  have hrefused : ∀ {faults report}, s.Refuses faults report (s.run n source) →
      (s.run n source).2.2.interpreter = s.interpreter ∧ (s.run n source).1.isFatal = false := by
    intro faults report hrefuses
    obtain ⟨r, hr, -⟩ := hrefuses.verdict
    rw [hrefuses.session, hr]
    exact ⟨rfl, rfl⟩
  cases htrees : s.printTrees with
  | true =>
    by_cases hformed : (Scan.ofSource source).faults ++
        (Parsed.ofTokens (Scan.ofSource source).tokens).faults = []
    · obtain ⟨fields, hrun⟩ := run_formed (s := s) (n := n) hformed
      have hprints := prints_runParsed (n := n) htrees
        (Parsed.ofTokens (Scan.ofSource source).tokens).program
      rw [hrun]
      exact ⟨congrArg interpreter hprints.session, congrArg Verdict.isFatal hprints.verdict⟩
    · exact hrefused (refuses_run_malformed hformed)
  | false =>
    cases hsource : Program.ofSource source with
    | ok program => exact absurd hsource (h program htrees)
    | error r =>
      have hfault := Source.faults_ne_nil_iff.mp (Source.faults_of_ofSource_error hsource).2
      obtain ⟨faults, report, hrefuses⟩ := refuses_run (n := n) htrees hfault
      exact hrefused hrefuses

/-- The run of a source takes lines in order, and leaves the others. -/
theorem lines_run (s : Session) (n : Nat) (source : Text) :
    s.lines = s.reads n source ++ (s.run n source).2.2.lines := by
  unfold reads
  split
  · next program htrees hprogram =>
    have hsession := (admits_run (n := n) htrees hprogram).interpreter
    have hinput := (State.accounts_run s.interpreter.host (s.interpreter.stateAt program 0) n).input
    unfold lines
    rw [hsession]
    exact hinput
  · next hnot =>
    unfold lines
    rw [(run_unfit fun program htrees hprogram => hnot program htrees hprogram).1]
    rfl

/-! ### Runs that exceed the limit -/

/-- At some time of its run, in whatever call or module, a source exceeds the limit of nested calls
and imports. -/
def Overflows (s : Session) (source : Text) : Prop :=
  s.printTrees = false ∧ ∃ program, Program.ofSource source = .ok program ∧
    ∃ k f, (s.interpreter.stateAt program k).fatal? = some f

theorem fatal?_of_ending {s : State} (h : (Verdict.ofEnding s.ending).isFatal = true) :
    ∃ f, s.fatal? = some f := by
  cases s with
  | fail f rest w =>
    cases rest with
    | nil => exact ⟨f, if_pos h⟩
    | cons r rest => cases h
  | flow f rest w => cases rest <;> cases h
  | _ => cases h

/-- Exceeding the limit is how a run ends, whenever it happens. -/
theorem isFatal_ending_iff {i : Interpreter} {program : Program Address}
    (hend : (i.execute n program).1 ≠ .outOfSteps) :
    (Verdict.ofEnding (i.execute n program).1).isFatal = true ↔
      ∃ k f, (i.stateAt program k).fatal? = some f := by
  have hfinal := Interpreter.isFinal_of_ending hend
  constructor
  · intro hfatal
    exact ⟨n, fatal?_of_ending hfatal⟩
  · rintro ⟨k, f, hf⟩
    have hlast : (i.stateAt program n).fatal? = some f := by
      rcases Nat.le_total n k with hle | hle
      · rwa [Interpreter.stateAt_of_le hfinal hle] at hf
      · obtain ⟨m, rfl⟩ := Nat.exists_eq_add_of_le hle
        exact (congrArg State.fatal? (State.run_add k m)).trans (State.fatal?_run hf)
    obtain ⟨rest, w, hstate, hfatal⟩ := State.fatal?_eq_some.mp hlast
    rw [hstate] at hfinal
    cases rest with
    | cons r rest => cases hfinal
    | nil =>
      rw [Interpreter.execute_eq, hstate]
      exact hfatal

/-- A run that ends is fatal to the session if it exceeds the limit at any time. -/
theorem isFatal_run_iff (hend : (s.run n source).1.hasEnded = true) :
    (s.run n source).1.isFatal = true ↔ s.Overflows source := by
  by_cases hfit : ∃ program, s.printTrees = false ∧ Program.ofSource source = .ok program
  · obtain ⟨program, htrees, hprogram⟩ := hfit
    have hverdict := (admits_run (n := n) htrees hprogram).verdict
    rw [hverdict] at hend ⊢
    have hended : (s.interpreter.execute n program).1 ≠ .outOfSteps := by
      intro hout
      rw [hout] at hend
      cases hend
    rw [isFatal_ending_iff hended]
    constructor
    · intro hfatal
      exact ⟨htrees, program, hprogram, hfatal⟩
    · rintro ⟨-, other, hother, hfatal⟩
      cases hprogram.symm.trans hother
      exact hfatal
  · have hunfit := (run_unfit (n := n) fun program htrees hprogram =>
      hfit ⟨program, htrees, hprogram⟩).2
    rw [hunfit]
    constructor
    · intro hfalse
      cases hfalse
    · rintro ⟨htrees, program, hprogram, -⟩
      exact absurd ⟨program, htrees, hprogram⟩ hfit

end Session

namespace Prompt

variable {s t : Session} {n : Nat} {line : Text}

/-- A line that is neither blank nor ends the session. -/
def Runs (line : Text) : Prop := line.trim ≠ [] ∧ line.trim ≠ exitWord

instance (line : Text) : Decidable (Runs line) := inferInstanceAs (Decidable (_ ∧ _))

/-- What a turn does that runs a line in a session. -/
def running (n : Nat) (s : Session) (line : Text) : List Output × Next :=
  let (outcome, outputs, s) := s.run n line
  (outputs, if outcome.isFatal then .ended .failure else .again s.reset)

theorem running_again (h : (running n s line).2 = .again t) : t = (s.run n line).2.2.reset := by
  unfold running at h
  dsimp only at h
  split at h <;> cases h
  rfl

/-- What a turn can do: at the end of the input nothing; else it takes the first line that is left,
and goes on if it is blank, ends the session, or runs it. -/
theorem turn_cases (n : Nat) (s : Session) :
    (s.lines = [] ∧ s.nextLine? = none ∧ turn n s = ([], .ended .ok)) ∨
    ∃ raw input, s.lines = raw :: (s.withInput input).lines ∧
      s.nextLine? = some (raw.unterminated, s.withInput input) ∧
      (raw.unterminated.trim = [] ∧ turn n s = ([], .again (s.withInput input)) ∨
        raw.unterminated.trim = exitWord ∧ turn n s = ([], .ended .ok) ∨
        Runs raw.unterminated ∧ turn n s = running n (s.withInput input) raw.unterminated) := by
  rcases s.nextLine?_cases with ⟨hlines, hnext⟩ | ⟨raw, input, hlines, hnext⟩
  · refine .inl ⟨hlines, hnext, ?_⟩
    unfold turn
    rw [hnext]
  · refine .inr ⟨raw, input, hlines, hnext, ?_⟩
    unfold turn
    rw [hnext]
    dsimp only
    by_cases hblank : raw.unterminated.trim = []
    · exact .inl ⟨hblank, if_pos hblank⟩
    · rw [if_neg hblank]
      by_cases hexit : raw.unterminated.trim = exitWord
      · exact .inr (.inl ⟨hexit, if_pos hexit⟩)
      · rw [if_neg hexit]
        exact .inr (.inr ⟨⟨hblank, hexit⟩, rfl⟩)

/-! ### The account of a turn -/

/-- Who takes a line. -/
inductive Reader where
  | prompt
  | native
  deriving DecidableEq, Repr

/-- The lines that are taken in a turn, in order, and by whom. -/
def ledger (n : Nat) (s : Session) : List (Reader × Text) :=
  (s.lines.take 1).map (Prod.mk .prompt) ++
    match s.nextLine? with
    | none => []
    | some (line, t) => if Runs line then (t.reads n line).map (Prod.mk .native) else []

/-- A turn takes lines in order and leaves the others. If the prompt is shown again, it has taken at
least one. -/
theorem lines_turn (n : Nat) (s : Session) :
    ∃ unread, s.lines = (ledger n s).map Prod.snd ++ unread ∧
      ∀ t, (turn n s).2 = .again t → t.lines = unread ∧ t.lines.length < s.lines.length := by
  unfold ledger
  rcases turn_cases n s with ⟨hlines, hnext, hturn⟩ | ⟨raw, input, hlines, hnext, hturn⟩
  · rw [hlines, hnext, hturn]
    exact ⟨[], rfl, by rintro t ⟨⟩⟩
  · rw [hlines, hnext]
    have hshorter : (s.withInput input).lines.length < (raw :: (s.withInput input).lines).length :=
      Nat.lt_succ_self _
    rcases hturn with ⟨hblank, hturn⟩ | ⟨hexit, hturn⟩ | ⟨hruns, hturn⟩
    · have hnot : ¬ Runs raw.unterminated := fun hruns => hruns.1 hblank
      rw [hturn]
      dsimp only
      rw [if_neg hnot]
      refine ⟨_, rfl, ?_⟩
      rintro t ⟨⟩
      exact ⟨rfl, hshorter⟩
    · have hnot : ¬ Runs raw.unterminated := fun hruns => hruns.2 hexit
      rw [hturn]
      dsimp only
      rw [if_neg hnot]
      exact ⟨_, rfl, by rintro t ⟨⟩⟩
    · have hrun := (s.withInput input).lines_run n raw.unterminated
      rw [hturn]
      dsimp only
      rw [if_pos hruns]
      refine ⟨((s.withInput input).run n raw.unterminated).2.2.lines, ?_, ?_⟩
      · simp only [List.take_succ_cons, List.take_zero, List.map_cons, List.map_nil, List.map_append,
          List.map_map]
        rw [hrun]
        simp [Function.comp_def]
      · intro t ht
        obtain rfl := running_again ht
        have hle := congrArg List.length hrun
        rw [List.length_append] at hle
        refine ⟨rfl, ?_⟩
        have hreset : ((s.withInput input).run n raw.unterminated).2.2.reset.lines =
            ((s.withInput input).run n raw.unterminated).2.2.lines := rfl
        rw [hreset]
        omega

/-- A session about which nothing has been reported. -/
def Clear (s : Session) : Prop := s.hadError = false ∧ s.hadFailure = false

/-- Before the prompt is shown again, what has been reported is forgotten. -/
theorem clear_turn (hs : Clear s) (h : (turn n s).2 = .again t) : Clear t := by
  rcases turn_cases n s with ⟨-, -, hturn⟩ | ⟨raw, input, -, -, hturn⟩
  · rw [hturn] at h
    cases h
  · rcases hturn with ⟨-, hturn⟩ | ⟨-, hturn⟩ | ⟨-, hturn⟩
    · rw [hturn] at h
      cases h
      exact hs
    · rw [hturn] at h
      cases h
    · rw [hturn] at h
      obtain rfl := running_again h
      exact ⟨rfl, rfl⟩

/-- The turn runs the line that the prompt takes. -/
def Executes (n : Nat) (s : Session) (line : Text) : Prop :=
  ∃ t, s.nextLine? = some (line, t) ∧ turn n s = running n t line

/-- Lines that the prompt takes are run, unless they are blank or end the session. -/
theorem executes_iff :
    Executes n s line ↔ ∃ raw more, s.lines = raw :: more ∧ raw.unterminated = line ∧ Runs line := by
  -- Running a line leaves a message, so a turn that does nothing does not run one.
  have hmessage : ∀ t more, running n t line ≠ ([], more) := by
    intro t more hrunning
    obtain ⟨fields, hrun⟩ := t.run_eq n line
    have houtputs : (t.run n line).2.1 = [] := congrArg Prod.fst hrunning
    rw [hrun] at houtputs
    cases houtputs
  constructor
  · rintro ⟨t, hnext, hrunning⟩
    rcases turn_cases n s with ⟨-, hnone, -⟩ | ⟨raw, input, hlines, hsome, hturn⟩
    · cases hnext.symm.trans hnone
    · cases hnext.symm.trans hsome
      rcases hturn with ⟨-, hturn⟩ | ⟨-, hturn⟩ | ⟨hruns, -⟩
      · exact absurd (hrunning.symm.trans hturn) (hmessage _ _)
      · exact absurd (hrunning.symm.trans hturn) (hmessage _ _)
      · exact ⟨raw, _, hlines, rfl, hruns⟩
  · rintro ⟨raw, more, hlines, rfl, hruns⟩
    rcases turn_cases n s with ⟨hnil, -, -⟩ | ⟨raw', input, hcons, hsome, hturn⟩
    · cases hlines.symm.trans hnil
    · cases hlines.symm.trans hcons
      refine ⟨_, hsome, ?_⟩
      rcases hturn with ⟨hblank, -⟩ | ⟨hexit, -⟩ | ⟨-, hturn⟩
      · exact absurd hblank hruns.1
      · exact absurd hexit hruns.2
      · exact hturn

/-- The turn runs a line that exceeds the limit of nested calls and imports. -/
def Overflows (n : Nat) (s : Session) : Prop :=
  ∃ line t, s.nextLine? = some (line, t) ∧ Executes n s line ∧ t.Overflows line

/-- The prompt takes a line that ends the session. -/
def Exits (s : Session) : Prop :=
  ∃ raw more, s.lines = raw :: more ∧ raw.unterminated.trim = exitWord

/-- Whether the run of a turn ends, if there is one. -/
def ends (n : Nat) (s : Session) : Bool :=
  match s.nextLine? with
  | none => true
  | some (line, t) => !decide (Runs line) || (t.run n line).1.hasEnded

/-- A line that is not to be run exceeds no limit. -/
theorem not_overflows (h : ∀ raw more, s.lines = raw :: more → ¬ Runs raw.unterminated) :
    ¬ Overflows n s := by
  rintro ⟨line, t, -, hexecutes, -⟩
  obtain ⟨raw, more, hlines, rfl, hruns⟩ := executes_iff.mp hexecutes
  exact h raw more hlines hruns

/-- How a turn ends the session, and when it does not. -/
theorem ends_turn (hend : ends n s = true) :
    match (turn n s).2 with
    | .again _ => s.lines ≠ [] ∧ ¬ Exits s ∧ ¬ Overflows n s
    | .ended code =>
      code = .failure ∧ Overflows n s ∨
        code = .ok ∧ ¬ Overflows n s ∧ (s.lines = [] ∨ Exits s) := by
  rcases turn_cases n s with ⟨hlines, -, hturn⟩ | ⟨raw, input, hlines, hnext, hturn⟩
  · rw [hturn]
    refine .inr ⟨rfl, not_overflows ?_, .inl hlines⟩
    intro raw more hcons
    cases hlines.symm.trans hcons
  · have hfirst : ∀ {raw' more}, s.lines = raw' :: more → raw' = raw := fun h =>
      (List.cons.inj (h.symm.trans hlines)).1
    have hne : s.lines ≠ [] := by simp [hlines]
    rcases hturn with ⟨hblank, hturn⟩ | ⟨hexit, hturn⟩ | ⟨hruns, hturn⟩
    · rw [hturn]
      refine ⟨hne, ?_, not_overflows ?_⟩
      · rintro ⟨raw', more, hraw, hexit⟩
        rw [hfirst hraw, hblank] at hexit
        cases hexit
      · intro raw' more hraw hruns
        rw [hfirst hraw] at hruns
        exact hruns.1 hblank
    · rw [hturn]
      refine .inr ⟨rfl, not_overflows ?_, .inr ⟨raw, _, hlines, hexit⟩⟩
      intro raw' more hraw hruns
      rw [hfirst hraw] at hruns
      exact hruns.2 hexit
    · have hexecutes : Executes n s raw.unterminated := ⟨_, hnext, hturn⟩
      have hended : ((s.withInput input).run n raw.unterminated).1.hasEnded = true := by
        unfold ends at hend
        rw [hnext] at hend
        simpa [hruns] using hend
      have hfatal := Session.isFatal_run_iff hended
      have hoverflows : Overflows n s ↔ (s.withInput input).Overflows raw.unterminated := by
        constructor
        · rintro ⟨line, t, hsome, -, hover⟩
          cases hnext.symm.trans hsome
          exact hover
        · intro hover
          exact ⟨_, _, hnext, hexecutes, hover⟩
      rw [hturn, hoverflows, ← hfatal]
      unfold running
      dsimp only
      cases hverdict : ((s.withInput input).run n raw.unterminated).1.isFatal with
      | true => exact .inl ⟨rfl, rfl⟩
      | false =>
        refine ⟨hne, ?_, Bool.false_ne_true⟩
        rintro ⟨raw', more, hraw, hexit⟩
        rw [hfirst hraw] at hexit
        exact hruns.2 hexit

/-! ### The account of a session -/

/-- The session at each prompt, for at most `rounds` turns. -/
def sessions (n : Nat) : (rounds : Nat) → Session → List Session
  | 0, _ => []
  | rounds + 1, s =>
    s :: match (turn n s).2 with
      | .ended _ => []
      | .again t => sessions n rounds t

/-- With more turns than lines the session ends by itself, and what is written is the prompt before
each turn and what the turn writes. -/
theorem loop_eq (prompt : Text) {rounds : Nat} (h : s.lines.length < rounds) :
    ∃ earlier last, sessions n rounds s = earlier ++ [last] ∧
      (∀ t ∈ earlier, ∃ u, (turn n t).2 = .again u) ∧
      (turn n last).2 = .ended (loop prompt n rounds s).1 ∧
      (loop prompt n rounds s).2 =
        (sessions n rounds s).flatMap fun t => .out prompt :: (turn n t).1 := by
  induction rounds generalizing s with
  | zero => cases h
  | succ rounds ih =>
    unfold sessions loop
    obtain ⟨unread, -, hagain⟩ := lines_turn n s
    cases hturn : turn n s with
    | mk outputs next =>
      cases next with
      | ended code =>
        refine ⟨[], s, rfl, List.forall_mem_nil _, ?_, ?_⟩
        · rw [hturn]
        · simp [hturn]
      | again t =>
        have ht := hagain t (by rw [hturn])
        obtain ⟨earlier, last, hsessions, hearlier, hlast, houtputs⟩ := ih (s := t) (by omega)
        refine ⟨s :: earlier, last, by simp [hsessions], ?_, hlast, ?_⟩
        · intro u hu
          rcases List.mem_cons.mp hu with rfl | hu
          · exact ⟨t, by rw [hturn]⟩
          · exact hearlier u hu
        · simp [hturn, houtputs]

/-- At each prompt the lines are left that have not been taken in earlier turns. -/
theorem lines_sessions {rounds : Nat} {earlier later : List Session}
    (h : sessions n rounds s = earlier ++ t :: later) :
    s.lines = (earlier.flatMap (ledger n)).map Prod.snd ++ t.lines := by
  induction rounds generalizing s earlier with
  | zero => simp [sessions] at h
  | succ rounds ih =>
    unfold sessions at h
    cases earlier with
    | nil =>
      cases h
      rfl
    | cons u earlier =>
      obtain ⟨rfl, hrest⟩ := List.cons.inj h
      obtain ⟨unread, hlines, hagain⟩ := lines_turn n s
      split at hrest
      · simp at hrest
      · next v hv =>
        rw [List.flatMap_cons, List.map_append, List.append_assoc, ← ih hrest, (hagain v hv).1]
        exact hlines

theorem clear_sessions {rounds : Nat} (hs : Clear s) (ht : t ∈ sessions n rounds s) : Clear t := by
  induction rounds generalizing s with
  | zero => cases ht
  | succ rounds ih =>
    unfold sessions at ht
    rcases List.mem_cons.mp ht with rfl | ht
    · exact hs
    · split at ht
      · cases ht
      · next u hu => exact ih (clear_turn hs hu) ht

/-- The account of a session at the prompt, by the sessions at each prompt and the exit code. -/
structure Accounts (n : Nat) (text : Text) (history : List Session) (code : ExitCode) : Prop where
  /-- At each prompt the lines are left that nobody has taken. -/
  left : ∀ earlier s later, history = earlier ++ s :: later →
    text.lines = (earlier.flatMap (ledger n)).map Prod.snd ++ s.lines
  /-- Lines are taken in order, and none is skipped. -/
  taken : ∃ unread, text.lines = (history.flatMap (ledger n)).map Prod.snd ++ unread
  /-- The prompt runs what it takes, unless it is blank or ends the session. -/
  executes : ∀ s ∈ history, ∀ line, Executes n s line ↔
    ∃ raw more, s.lines = raw :: more ∧ raw.unterminated = line ∧ line.trim ≠ [] ∧
      line.trim ≠ exitWord
  /-- The session ends at the first run that exceeds the limit, or else at the word for it or at the
  end of the input. -/
  ends : ∃ earlier last, history = earlier ++ [last] ∧
    (∀ s ∈ earlier, s.lines ≠ [] ∧ ¬ Exits s ∧ ¬ Overflows n s) ∧
    (code.number = 70 ∧ Overflows n last ∨
      code.number = 0 ∧ ¬ Overflows n last ∧ (last.lines = [] ∨ Exits last))
  /-- Nothing that was reported is remembered at a prompt. -/
  clear : ∀ s ∈ history, s.hadError = false ∧ s.hadFailure = false

/-- The account of a fresh session at the prompt whose runs end. -/
theorem loop_account (disk : Disk) (config : Config) (clock : Clock) (text prompt : Text)
    (echo printTrees : Bool) (n : Nat) :
    let s := (Session.new disk config clock ⟨text, none⟩ echo printTrees).2
    let history := sessions n (text.length + 1) s
    let result := loop prompt n (text.length + 1) s
    (∀ t ∈ history, ends n t = true) →
      Accounts n text history result.1 ∧
        result.2 = history.flatMap fun t => .out prompt :: (turn n t).1 := by
  intro s history result hends
  have hrounds : s.lines.length < text.length + 1 := Nat.lt_succ_of_le (Text.length_lines_le text)
  obtain ⟨earlier, last, hsessions, hearlier, hlast, houtputs⟩ := loop_eq (n := n) prompt hrounds
  have hhistory : history = earlier ++ [last] := hsessions
  refine ⟨⟨?_, ?_, ?_, ?_, ?_⟩, houtputs⟩
  · intro earlier t later hsplit
    exact lines_sessions hsplit
  · obtain ⟨unread, hunread, -⟩ := lines_turn n last
    have hleft : text.lines = (earlier.flatMap (ledger n)).map Prod.snd ++ last.lines :=
      lines_sessions hsessions
    refine ⟨unread, ?_⟩
    rw [hleft, hunread, hhistory]
    simp
  · intro t _ line
    exact executes_iff
  · refine ⟨earlier, last, hhistory, ?_, ?_⟩
    · intro t ht
      obtain ⟨u, hu⟩ := hearlier t ht
      have hmem : t ∈ history := hhistory ▸ List.mem_append_left [last] ht
      have hturn := ends_turn (hends t hmem)
      rw [hu] at hturn
      exact hturn
    · have hmem : last ∈ history := hhistory ▸ List.mem_append_right earlier List.mem_cons_self
      have hturn := ends_turn (hends last hmem)
      rw [hlast] at hturn
      rcases hturn with ⟨hcode, hover⟩ | ⟨hcode, hover, hend⟩
      · exact .inl ⟨congrArg ExitCode.number hcode, hover⟩
      · exact .inr ⟨congrArg ExitCode.number hcode, hover, hend⟩
  · intro t ht
    exact clear_sessions ⟨rfl, rfl⟩ ht

/-- The second line is read by the run of the first, the third exceeds the limit, and the last one is
left. -/
theorem loop_account_overflow :
    let disk : Disk := ⟨.emptyFolder, "/"⟩
    let config : Config := ⟨[], "/", [], false, 1, [], [], []⟩
    let text : Text := "read();\nhi\nfun f()\x7bf();\x7df();\nexit"
    let s := (Session.new disk config 0 ⟨text, none⟩ true false).2
    let taken : List (Reader × Text) :=
      [(.prompt, "read();\n"), (.native, "hi\n"), (.prompt, "fun f()\x7bf();\x7df();\n")]
    (∀ t ∈ sessions 20 (text.length + 1) s, ends 20 t = true) ∧
      (sessions 20 (text.length + 1) s).flatMap (ledger 20) = taken ∧
      (loop ">" 20 (text.length + 1) s).1.number = 70 ∧
      Accounts 20 text (sessions 20 (text.length + 1) s) (loop ">" 20 (text.length + 1) s).1 := by
  intro disk config text s taken
  have hends : (sessions 20 (text.length + 1) s).all (ends 20) = true := by
    subst s text config disk
    set_option maxRecDepth 4000 in cbv
  have htaken : (sessions 20 (text.length + 1) s).flatMap (ledger 20) = taken := by
    subst taken s text config disk
    set_option maxRecDepth 4000 in cbv
  have hcode : (loop ">" 20 (text.length + 1) s).1.number = 70 := by
    subst taken s text config disk
    set_option maxRecDepth 4000 in cbv
  have hends := List.all_eq_true.mp hends
  exact ⟨hends, htaken, hcode, (loop_account disk config 0 text ">" true false 20 hends).1⟩

end Prompt

end Lox
