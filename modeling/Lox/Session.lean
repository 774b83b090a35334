import Lox.Config
import Lox.Files.Search
import Lox.Tree.Printer
import Lox.Tree.Reference

/-!
# Sessions

A session runs sources and script files in one interpreter, reports what is wrong with them, and
remembers whether it had to.
-/

namespace Lox

/-- What a session writes. -/
inductive Output where
  | out (t : Text)
  | err (t : Text)
  | log (entry : LogEntry)
  deriving DecidableEq, Repr

namespace Output

/-- A line on the error stream. -/
def errLine (t : Text) : Output := err (t ++ "\n")

/-- A message for those who trace the program's work. -/
def debug (message : Text) (fields : List (Text × Text)) : Output := log (.debug message fields)

/-- One line for each problem. -/
def reports (faults : List Diagnostic) : List Output := faults.map fun d => errLine d.text

/-- What an event of a run makes a session write. -/
def ofEvent : Event → List Output
  | .printed t => [out t]
  | .rejected faults => reports faults
  | .logged entry => [log entry]

/-- Everything written to the output. -/
def outText (outputs : List Output) : Text :=
  outputs.flatMap fun
    | out t => t
    | _ => []

/-- Everything reported on the error stream. -/
def errText (outputs : List Output) : Text :=
  outputs.flatMap fun
    | err t => t
    | _ => []

/-- The messages for the log. -/
def logs (outputs : List Output) : List LogEntry :=
  outputs.filterMap fun
    | log entry => some entry
    | _ => none

/-- The error stream together with the log, whose messages are shown up to a level. -/
def errTextWithLog (level : LogLevel) (outputs : List Output) : Text :=
  outputs.flatMap fun
    | err t => t
    | log entry => if entry.level.shownAt level then entry.line ++ "\n" else []
    | out _ => []

end Output

/-- How a source or file fares. -/
inductive Verdict where
  | finished
  | rejected (r : Rejection)
  | failed (f : Failure)
  | unreadable (message : Text)
  | outOfSteps

namespace Verdict

/-- How a run that ended fares. -/
def ofEnding : Ending → Verdict
  | .finished => finished
  | .failed f => failed f
  | .outOfSteps => outOfSteps

/-- Whether a session cannot go on. -/
def isFatal : Verdict → Bool
  | failed f => f.isFatal
  | _ => false

/-- What is reported about a run. -/
def report : Verdict → List Output
  | failed f => [.errLine f.text]
  | _ => []

/-- Whether a run failed. -/
def isFailure : Verdict → Bool
  | failed _ => true
  | _ => false

end Verdict

/-- The exit codes. -/
inductive ExitCode where
  | ok
  | usage
  | badSource
  | noInput
  | failure
  | badConfig
  deriving DecidableEq, Repr

/-- The number of an exit code. -/
def ExitCode.number : ExitCode → Nat
  | ok => 0
  | usage => 64
  | badSource => 65
  | noInput => 66
  | failure => 70
  | badConfig => 78

/-- An interpreter, whether it only prints the trees of programs, and whether problems in sources
and failures of runs have been reported. -/
structure Session where
  interpreter : Interpreter
  printTrees : Bool := false
  hadError : Bool := false
  hadFailure : Bool := false

namespace Session

/-- Where the modules of a configuration are found on a disk. -/
def locate (disk : Disk) (search : ModuleSearch) (path : Text) : Located :=
  match search.locate disk path with
  | .error failure => .missing failure.message
  | .ok file =>
    match disk.read file with
    | .error reason => .unreadable reason
    | .ok source => .found file source

/-- The module search of a configuration. -/
def searchOf (disk : Disk) (config : Config) : ModuleSearch :=
  ⟨disk.absolute config.moduleRoot, config.exclude, config.respectIgnores⟩

/-- A fresh session for a configuration. -/
def new (disk : Disk) (config : Config) (clock : Clock) (input : Input) (echo printTrees : Bool) :
    List Output × Session :=
  let search := searchOf disk config
  let host : Host :=
    { limit := Interpreter.limitOf config.maxCallDepth, clock, modules := some (locate disk search) }
  ([.debug "runner ready" [("module_root", search.root), ("config", config.path)]],
    { interpreter := Interpreter.new host input echo, printTrees })

/-- Runs a program that is fit to run. -/
def execute (s : Session) (n : Nat) (program : Program Address) :
    Verdict × List Output × Session :=
  match s with
  | ⟨interpreter, printTrees, hadError, hadFailure⟩ =>
    let (ending, events, interpreter) := interpreter.execute n program
    let outcome := Verdict.ofEnding ending
    (outcome, events.flatMap Output.ofEvent ++ outcome.report,
      { interpreter, printTrees
        hadError := hadError || events.any Event.isRejection
        hadFailure := hadFailure || outcome.isFailure })

/-- Turns a source away and reports why. -/
def reject (s : Session) (r : Rejection) : Verdict × List Output × Session :=
  (.rejected r, Output.reports r.faults, { s with hadError := true })

/-- Runs a well-formed program, or prints its tree. -/
def runParsed (s : Session) (n : Nat) (program : Program Unit) : Verdict × List Output × Session :=
  if s.printTrees then (.finished, [.out program.printed], s)
  else
    match Program.address .full program with
    | .error r => s.reject r
    | .ok program =>
      let (outcome, outputs, s) := s.execute n program
      let note := Output.debug "resolved program" [("resolved", Text.ofNat program.addressed)]
      (outcome, note :: outputs, s)

/-- Runs a source for at most `n` steps. -/
def run (s : Session) (n : Nat) (source : Text) : Verdict × List Output × Session :=
  let scan := Scan.ofSource source
  let parsed := Parsed.ofTokens scan.tokens
  let note := Output.debug "parsed program"
    [("tokens", Text.ofNat scan.tokens.length), ("statements", Text.ofNat parsed.program.length)]
  let (outcome, outputs, s) := match scan.faults ++ parsed.faults with
    | [] => s.runParsed n parsed.program
    | faults => s.reject (.malformed faults)
  (outcome, note :: outputs, s)

/-- Runs a script file for at most `n` steps. A file that cannot be read is not reported. -/
def runFile (s : Session) (disk : Disk) (n : Nat) (path : Text) :
    Verdict × List Output × Session :=
  match disk.read path with
  | .error reason => (.unreadable ("driver: read " ++ path ++ ": " ++ reason), [], s)
  | .ok source =>
    let (outcome, outputs, s) := s.run n source
    (outcome, .debug "running file" [("path", path)] :: outputs, s)

/-- Forgets what has been reported. -/
def reset (s : Session) : Session := { s with hadError := false, hadFailure := false }

/-- The exit code for what has been reported: problems in sources come before failures of runs. -/
def exitCode (s : Session) : ExitCode :=
  if s.hadError then .badSource else if s.hadFailure then .failure else .ok

/-- The next line of the input, if there is one. -/
def nextLine? (s : Session) : Option (Text × Session) :=
  match s with
  | ⟨⟨host, ⟨store, input, clock, depth, echo, events⟩, globals⟩, printTrees, hadError,
      hadFailure⟩ =>
    if input.rest = [] then none
    else
      match input.readLine with
      | (_, .failed _, _) => none
      | (line, _, input) =>
        some (line, ⟨⟨host, ⟨store, input, clock, depth, echo, events⟩, globals⟩, printTrees,
          hadError, hadFailure⟩)

end Session

end Lox
