import Lox.Proofs.Machine.Depth

/-!
# Input and events of a run

What passes between a run and its surroundings. A step takes a line from the input exactly if it
calls a native function that reads, and turns a module away exactly if it reads the file of one,
within the limit, whose source has problems. Everything else that it does leaves the input alone and
adds events of other kinds.
-/

namespace Lox

/-! ### Lines -/

/-- The lines of a text, each with its newline; only the last may have none. -/
def Text.lines : Text → List Text
  | [] => []
  | b :: t =>
    if b = Input.newline then [b] :: Text.lines t
    else
      match Text.lines t with
      | [] => [[b]]
      | line :: more => (b :: line) :: more

theorem Text.flatten_lines (t : Text) : t.lines.flatten = t := by
  fun_induction Text.lines t with
  | case1 => rfl
  | case2 t ih => simp [ih]
  | case3 b t hb hlines ih => simp [hlines] at ih; simp [← ih]
  | case4 b t hb line more hlines ih => simp [hlines] at ih; simp [ih]

/-- Up to its first newline a text is one line. -/
theorem Text.lines_of_newline {t rest : Text} {b : UInt8}
    (h : t.dropWhile (· ≠ Input.newline) = b :: rest) :
    b = Input.newline ∧ t.lines = (t.takeWhile (· ≠ Input.newline) ++ [b]) :: rest.lines := by
  induction t with
  | nil => cases h
  | cons a t ih =>
    by_cases ha : a = Input.newline
    · simp_all [Text.lines]
    · simp_all [Text.lines]

/-- A text without a newline is one line, unless it is empty. -/
theorem Text.lines_of_no_newline {t : Text} (h : t.dropWhile (· ≠ Input.newline) = [])
    (hne : t ≠ []) : t.lines = [t] := by
  induction t with
  | nil => exact absurd rfl hne
  | cons a t ih =>
    by_cases ha : a = Input.newline
    · simp_all
    · cases t with
      | nil => simp [Text.lines, ha]
      | cons c t =>
        have ht := ih (by simpa [ha] using h) (List.cons_ne_nil c t)
        unfold Text.lines
        rw [if_neg ha, ht]

/-- A line without the bytes of its terminator. -/
def Text.unterminated (line : Text) : Text := Text.dropRightWhile Input.isTerminator line

theorem Text.unterminated_concat_newline (t : Text) :
    Text.unterminated (t ++ [Input.newline]) = t.unterminated := by
  unfold Text.unterminated Text.dropRightWhile
  rw [List.reverse_append]
  rfl

namespace Input

/-- The lines that are left to read. If reading fails in the end, what stands behind the last
newline is none. -/
def lines (i : Input) : List Text :=
  match i.failure with
  | none => i.rest.lines
  | some _ => i.rest.lines.filter (newline ∈ ·)

/-- Reading takes the first line that is left without its terminator. If none is left, the input is
at its end or fails. -/
theorem readLine_cases (i : Input) :
    ((i.rest = [] ∨ ∃ reason, i.readLine.2.1 = .failed reason) ∧ i.lines = [] ∧
      i.readLine.2.2.lines = []) ∨
    i.rest ≠ [] ∧ (∀ reason, i.readLine.2.1 ≠ .failed reason) ∧
      ∃ raw, i.readLine.1 = raw.unterminated ∧ i.lines = raw :: i.readLine.2.2.lines := by
  unfold readLine Text.cut
  dsimp only
  cases hrest : i.rest.dropWhile (· ≠ newline) with
  | cons b rest =>
    obtain ⟨rfl, hlines⟩ := Text.lines_of_newline hrest
    refine .inr ⟨?_, by simp, _, (Text.unterminated_concat_newline _).symm, ?_⟩
    · intro hnil
      simp [hnil] at hrest
    · unfold lines
      cases i.failure <;> simp [hlines]
  | nil =>
    have hnone : ∀ b ∈ i.rest, b ≠ newline := by simpa using hrest
    have htake : i.rest.takeWhile (· ≠ newline) = i.rest := by simpa using hnone
    rw [htake]
    cases hf : i.failure with
    | none =>
      by_cases hnil : i.rest = []
      · exact .inl ⟨.inl hnil, by simp [lines, hf, hnil, Text.lines], rfl⟩
      · have hlines := Text.lines_of_no_newline hrest hnil
        exact .inr ⟨hnil, by simp, i.rest, rfl, by simp [lines, hf, hlines, Text.lines]⟩
    | some reason =>
      refine .inl ⟨.inr ⟨reason, rfl⟩, ?_, rfl⟩
      have hlines : ∀ line ∈ i.rest.lines, newline ∉ line := by
        intro line hline hmem
        refine hnone newline ?_ rfl
        rw [← Text.flatten_lines i.rest]
        exact List.mem_flatten.mpr ⟨line, hline, hmem⟩
      simpa [lines, hf] using hlines

theorem readText_input (i : Input) : i.readText.2 = i.readLine.2.2 := by
  unfold readText
  split <;> simp [*]

theorem readNumber_input (i : Input) : i.readNumber.2 = i.readLine.2.2 := by
  unfold readNumber
  split
  · simp [*]
  · next h =>
    dsimp only
    split <;> simp [h]

end Input

/-! ### The problems of a source -/

/-- The problems of a source: lexical and grammatical ones, or if there are none of these, misplaced
names and jumps. -/
def Source.faults (source : Text) : List Diagnostic :=
  let scan := Scan.ofSource source
  let parsed := Parsed.ofTokens scan.tokens
  match scan.faults ++ parsed.faults with
  | [] => (Resolved.ofProgram parsed.program).faults
  | faults => faults

/-- A source has a lexical or grammatical problem, or a misplaced name or jump. -/
def Source.HasFault (source : Text) : Prop :=
  let scan := Scan.ofSource source
  let parsed := Parsed.ofTokens scan.tokens
  scan.faults ≠ [] ∨ parsed.faults ≠ [] ∨ (Resolved.ofProgram parsed.program).faults ≠ []

theorem Source.faults_ne_nil_iff {source : Text} :
    Source.faults source ≠ [] ↔ Source.HasFault source := by
  unfold Source.faults Source.HasFault
  dsimp only
  split
  · next hformed =>
    obtain ⟨hscan, hparsed⟩ := List.append_eq_nil_iff.mp hformed
    simp [hscan, hparsed]
  · next hformed =>
    have hsome : (Scan.ofSource source).faults ≠ [] ∨
        (Parsed.ofTokens (Scan.ofSource source).tokens).faults ≠ [] := by
      rw [← not_and_or, ← List.append_eq_nil_iff]
      exact hformed
    exact ⟨fun _ => hsome.elim .inl fun h => .inr (.inl h), fun _ => hformed⟩

theorem Source.faults_of_ofSource_error {source : Text} {r : Rejection}
    (h : Program.ofSource source = .error r) :
    r.faults = Source.faults source ∧ Source.faults source ≠ [] := by
  revert h
  unfold Program.ofSource Program.ofSourceWith Program.address Source.faults
  dsimp only
  cases (Scan.ofSource source).faults ++ (Parsed.ofTokens (Scan.ofSource source).tokens).faults with
  | nil =>
    dsimp only
    cases (Resolved.ofProgram (Parsed.ofTokens (Scan.ofSource source).tokens).program).faults with
    | nil => rintro ⟨⟩
    | cons d faults =>
      rintro ⟨⟩
      exact ⟨rfl, List.cons_ne_nil d faults⟩
  | cons d faults =>
    rintro ⟨⟩
    exact ⟨rfl, List.cons_ne_nil d faults⟩

theorem Source.faults_of_ofSource_ok {source : Text} {program : Program Address}
    (h : Program.ofSource source = .ok program) : Source.faults source = [] := by
  revert h
  unfold Program.ofSource Program.ofSourceWith Program.address Source.faults
  dsimp only
  cases (Scan.ofSource source).faults ++ (Parsed.ofTokens (Scan.ofSource source).tokens).faults with
  | nil =>
    dsimp only
    cases (Resolved.ofProgram (Parsed.ofTokens (Scan.ofSource source).tokens).program).faults with
    | nil => exact fun _ => rfl
    | cons d faults => rintro ⟨⟩
  | cons d faults => rintro ⟨⟩

/-! ### What passes between two worlds -/

/-- The problems of a module that an event turns away. -/
def Event.rejected? : Event → Option (List Diagnostic)
  | rejected faults => some faults
  | _ => none

/-- Between two worlds lines are taken from the input and modules are turned away for their
problems, both in order. Messages are only for those who trace the program's work. -/
structure World.Accounts (w w' : World) (taken : List Text) (rejected : List (List Diagnostic)) :
    Prop where
  input : w.input.lines = taken ++ w'.input.lines
  events : ∃ new, w'.events = new ++ w.events ∧ new.reverse.filterMap Event.rejected? = rejected ∧
    ∀ entry, .logged entry ∈ new → entry.level = .debug

/-- Nothing is read and no module is turned away. -/
def World.Quiet (w w' : World) : Prop := w.Accounts w' [] []

namespace World

variable {w w' w'' : World}

theorem Accounts.trans {taken taken' : List Text} {rejected rejected' : List (List Diagnostic)}
    (h : w.Accounts w' taken rejected) (h' : w'.Accounts w'' taken' rejected') :
    w.Accounts w'' (taken ++ taken') (rejected ++ rejected') where
  input := by rw [h.input, h'.input, List.append_assoc]
  events := by
    obtain ⟨new, he, hr, hl⟩ := h.events
    obtain ⟨new', he', hr', hl'⟩ := h'.events
    refine ⟨new' ++ new, by rw [he', he, List.append_assoc], ?_, ?_⟩
    · rw [List.reverse_append, List.filterMap_append, hr, hr']
    · intro entry hentry
      exact (List.mem_append.mp hentry).elim (hl' entry) (hl entry)

theorem Quiet.of_eq (hi : w'.input = w.input) (he : w'.events = w.events) : w.Quiet w' where
  input := by rw [hi]; rfl
  events := ⟨[], he, rfl, fun _ h => absurd h List.not_mem_nil⟩

theorem Quiet.refl (w : World) : w.Quiet w := .of_eq rfl rfl

/-- What is printed turns nothing away. -/
theorem Quiet.print (v : Value) : w.Quiet (w.print v) where
  input := rfl
  events := ⟨[_], rfl, rfl, by rintro entry (_ | ⟨_, ⟨⟩⟩)⟩

/-- Messages are for tracing. -/
theorem Quiet.log (message : Text) (fields : List (Text × Text)) : w.Quiet (w.log message fields) where
  input := rfl
  events := ⟨[_], rfl, rfl, by
    intro entry h
    cases List.mem_singleton.mp h
    rfl⟩

theorem Quiet.trans (h : w.Quiet w') (h' : w'.Quiet w'') : w.Quiet w'' := Accounts.trans h h'

end World

namespace State

/-! ### What the next step passes -/

/-- The line that a call reads from the input: none, if nothing is left of it. -/
def callTakes? (callee : Value) (arguments : List Value) (i : Input) : Option Text :=
  match callee, arguments with
  | .native .read, [] => i.lines.head?
  | .native .readNumber, [] => i.lines.head?
  | _, _ => none

/-- The line of the input that the next step reads. -/
def takes? (s : State) : Option Text :=
  s.call?.bind fun (_, callee, arguments) => callTakes? callee arguments s.world.input

/-- The source of the module that the next step loads: its file has been found and read, and one
more import is within the limit. -/
def loads? (host : Host) : State → Option Text
  | exec (.importDecl path _) _ _ w =>
    match host.modules with
    | none => none
    | some locate =>
      match locate (Import.path path) with
      | .found _ source => if w.isFull host then none else some source
      | _ => none
  | _ => none

/-- The problems for which the next step turns a module away. -/
def rejects? (host : Host) (s : State) : Option (List Diagnostic) :=
  ((s.loads? host).map Source.faults).filter (· ≠ [])

variable {host : Host} {w : World} {env : FrameId} {demand : Demand} {rest : List Resume}

/-! ### Calls and imports -/

theorem world_outcome (mark : Mark) (result : Except Fault Value) :
    (outcome mark result demand rest w).world = w := by
  cases result <;> rfl

/-- A native function that reads takes a line if there is one. -/
theorem accounts_callNative (fn : NativeFunction) (paren : Mark) :
    w.Accounts (callNative fn paren demand rest w).world
      (callTakes? (.native fn) [] w.input).toList [] := by
  have hlines : ∀ input : Input, input = w.input.readLine.2.2 →
      w.input.lines = w.input.lines.head?.toList ++ input.lines := by
    rintro input rfl
    rcases w.input.readLine_cases with ⟨-, hlines, hleft⟩ | ⟨-, -, raw, -, hlines⟩
    · rw [hlines, hleft]
      rfl
    · rw [hlines]
      rfl
  cases fn with
  | clock => exact ⟨rfl, (World.Quiet.refl w).events⟩
  | read =>
    unfold callNative
    dsimp only
    rw [world_outcome]
    exact ⟨hlines _ (Input.readText_input _), (World.Quiet.refl w).events⟩
  | readNumber =>
    unfold callNative
    dsimp only
    rw [world_outcome]
    exact ⟨hlines _ (Input.readNumber_input _), (World.Quiet.refl w).events⟩

/-- A module that is loaded is turned away if its source has problems. -/
theorem accounts_enterModule (path : Token) (name file source : Text) :
    w.Accounts (enterModule host path name file source env rest w).world []
      (((if w.isFull host then none else some source).map Source.faults).filter (· ≠ [])).toList := by
  let fields : List (Text × Text) := [("module", Import.path path), ("alias", name), ("path", file)]
  have hlog : w.Quiet (w.log "loading module" fields) := .log _ _
  have hfull : (w.log "loading module" fields).isFull host = w.isFull host := rfl
  unfold enterModule
  dsimp only
  rw [hfull]
  split
  · exact hlog
  · split
    · next r hr =>
      obtain ⟨hfaults, hne⟩ := Source.faults_of_ofSource_error hr
      have hrejected : ((some source).map Source.faults).filter (· ≠ []) = some r.faults := by
        simp [hfaults, hne]
      rw [hrejected]
      refine World.Accounts.trans hlog ⟨rfl, [.rejected r.faults], rfl, rfl, ?_⟩
      intro entry h
      cases List.mem_singleton.mp h
    · next program hp =>
      have hrejected : ((some source).map Source.faults).filter (· ≠ []) = none := by
        simp [Source.faults_of_ofSource_ok hp]
      rw [hrejected]
      refine World.Quiet.trans hlog ?_
      exact .of_eq rfl rfl

theorem accounts_importModule (path : Token) (asName : Option Mark) :
    w.Accounts (importModule host path asName env rest w).world []
      ((exec (.importDecl path asName) env rest w).rejects? host).toList := by
  unfold importModule rejects? loads?
  cases host.modules with
  | none => exact World.Quiet.refl w
  | some locate =>
    dsimp only
    cases locate (Import.path path) with
    | missing reason => exact World.Quiet.log _ _
    | unreadable reason => exact World.Quiet.refl w
    | found file source => exact accounts_enterModule _ _ _ _

/-! ### Steps -/

/-- All that is quiet: whatever neither calls a native function nor imports a module. -/
theorem quiet_step (host : Host) {s : State}
    (hcall : ∀ paren fn, s.call? ≠ some (paren, .native fn, []))
    (himport : ∀ path asName env rest w, s ≠ exec (.importDecl path asName) env rest w) :
    s.world.Quiet (s.step host).world := by
  have hmove := moves_step host s
  generalize s.opens host = opened, s.step host = s' at hmove
  cases hmove with
  | readInput hp | noInput hp => exact absurd (call?_of_call hp) (hcall _ _)
  | load | noLoad => exact absurd rfl (himport _ _ _ _ _)
  | shown _ hw =>
    rcases hw with rfl | rfl
    · exact .refl _
    · exact .print _
  | @declareClass _ _ _ _ _ _ c? => cases c? <;> exact .of_eq rfl rfl
  | @repeatMethod _ _ _ _ _ _ c? => cases c? <;> exact .of_eq rfl rfl
  | imported =>
    exact World.Quiet.trans (.of_eq rfl rfl) (World.Quiet.trans (.log _ _) (.of_eq rfl rfl))
  | @unwind f r => cases r <;> exact .of_eq rfl rfl
  | _ => exact .of_eq rfl rfl

theorem takes?_eq_none {s : State} (h : ∀ paren fn, s.call? ≠ some (paren, .native fn, [])) :
    s.takes? = none := by
  unfold takes?
  cases hc : s.call? with
  | none => rfl
  | some made =>
    obtain ⟨paren, callee, arguments⟩ := made
    unfold callTakes?
    dsimp only [Option.bind_some]
    split
    · exact absurd hc (h _ _)
    · exact absurd hc (h _ _)
    · rfl

/-- What passes between a run and its surroundings in a step. -/
theorem accounts_step (host : Host) (s : State) :
    s.world.Accounts (s.step host).world s.takes?.toList (s.rejects? host).toList := by
  by_cases hcall : ∀ paren fn, s.call? ≠ some (paren, .native fn, [])
  · by_cases himport : ∀ path asName env rest w, s ≠ exec (.importDecl path asName) env rest w
    · have hloads : s.loads? host = none := by
        unfold loads?
        split
        · exact absurd rfl (himport _ _ _ _ _)
        · rfl
      rw [takes?_eq_none hcall, rejects?, hloads]
      exact quiet_step host hcall himport
    · push Not at himport
      obtain ⟨path, asName, env, rest, w, rfl⟩ := himport
      exact accounts_importModule path asName
  · push Not at hcall
    obtain ⟨paren, fn, hc⟩ := hcall
    -- a native function takes no arguments, so it is called as soon as it is known
    unfold call? at hc
    split at hc
    · cases hc
      exact accounts_callNative fn paren
    · simp at hc
    · cases hc

/-! ### Runs -/

/-- What the first `n` states of a run show, in order. -/
def meets {α : Type} (host : Host) (f : State → Option α) : (n : Nat) → State → List α
  | 0, _ => []
  | n + 1, s => (f s).toList ++ meets host f n (s.step host)

theorem mem_meets {α : Type} {f : State → Option α} {n : Nat} {s : State} {a : α} :
    a ∈ s.meets host f n ↔ ∃ k < n, f (s.run host k) = some a := by
  induction n generalizing s with
  | zero => simp [meets]
  | succ n ih =>
    unfold meets
    rw [List.mem_append, ih, Option.mem_toList]
    constructor
    · rintro (h | ⟨k, hk, h⟩)
      · exact ⟨0, Nat.succ_pos n, h⟩
      · exact ⟨k + 1, Nat.succ_lt_succ hk, by rwa [run_succ]⟩
    · rintro ⟨k, hk, h⟩
      cases k with
      | zero => exact .inl h
      | succ k => exact .inr ⟨k, Nat.lt_of_succ_lt_succ hk, by rwa [run_succ] at h⟩

/-- What passes between a run and its surroundings. -/
theorem accounts_run (host : Host) (s : State) (n : Nat) :
    s.world.Accounts (s.run host n).world (s.meets host takes? n) (s.meets host (rejects? host) n) := by
  induction n generalizing s with
  | zero => exact World.Quiet.refl s.world
  | succ n ih =>
    rw [run_succ]
    exact (accounts_step host s).trans (ih (s.step host))

end State

/-! ### Runs that end -/

namespace Interpreter

variable {i : Interpreter} {n : Nat} {program : Program Address}

/-- A run that has ended stays as it is. -/
theorem stateAt_of_le {k : Nat} (hend : (i.stateAt program n).isFinal = true) (hle : n ≤ k) :
    i.stateAt program k = i.stateAt program n := by
  obtain ⟨m, rfl⟩ := Nat.exists_eq_add_of_le hle
  exact (State.run_add n m).trans (State.run_of_isFinal hend)

theorem isFinal_of_ending (hend : (i.execute n program).1 ≠ .outOfSteps) :
    (i.stateAt program n).isFinal = true := by
  cases h : (i.stateAt program n).isFinal with
  | true => rfl
  | false => exact absurd (State.ending_of_not_final h) hend

end Interpreter

end Lox
