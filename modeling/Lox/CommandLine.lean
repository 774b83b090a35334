import Lox.Session

/-!
# The command line

`lox [options] [script]` runs a script, or without one reads lines at a prompt and runs each.
-/

namespace Lox

/-- The options of the command line. -/
structure Options where
  logLevel : Text := []
  printTrees : Bool := false
  version : Bool := false
  deriving DecidableEq, Repr

/-- Why the options cannot be used. -/
inductive OptionFault where
  /-- The usage was asked for. -/
  | help
  | badSyntax (argument : Text)
  | unknown (name : Text)
  | badBool (name value : Text)
  | noValue (name : Text)
  deriving DecidableEq, Repr

/-- The fault in words; asking for the usage is none. -/
def OptionFault.message : OptionFault → Option Text
  | help => none
  | badSyntax argument => some ("bad flag syntax: " ++ argument)
  | unknown name => some ("flag provided but not defined: -" ++ name)
  | badBool name value =>
    some ("invalid boolean value " ++ value.quoted ++ " for -" ++ name ++ ": parse error")
  | noValue name => some ("flag needs an argument: -" ++ name)

namespace Options

/-- The truth value that a text stands for. -/
def bool? (t : Text) : Option Bool :=
  if t ∈ (["1", "t", "T", "TRUE", "true", "True"] : List Text) then some true
  else if t ∈ (["0", "f", "F", "FALSE", "false", "False"] : List Text) then some false
  else none

/-- What an argument is. -/
inductive Argument where
  | operand
  /-- Two hyphens, which end the options. -/
  | terminator
  | option (name : Text) (value : Option Text)
  | malformed
  deriving DecidableEq, Repr

/-- The hyphen. -/
def hyphen : UInt8 := Text.byte '-'

/-- The name and the value of an option without its hyphens. -/
def nameAndValue (body : Text) : Argument :=
  match body with
  | [] => .malformed
  | first :: rest =>
    if first = hyphen || first = Text.byte '=' then .malformed
    else
      let (name, tail) := Text.cut (· ≠ Text.byte '=') rest
      .option (first :: name) (match tail with
        | [] => none
        | _ :: value => some value)

/-- What an argument is. -/
def classify (argument : Text) : Argument :=
  match argument with
  | [] => .operand
  | [_] => .operand
  | a :: b :: rest =>
    if a ≠ hyphen then .operand
    else if b ≠ hyphen then nameAndValue (b :: rest)
    else if rest = [] then .terminator
    else nameAndValue rest

/-- Sets an option that is true or false. -/
def setBool (name : Text) (value : Option Text) (set : Bool → Options) : Except OptionFault Options :=
  match value with
  | none => .ok (set true)
  | some t =>
    match bool? t with
    | some b => .ok (set b)
    | none => .error (.badBool name t)

/-- Takes the options from the arguments, and leaves the operands. The value of an option may be
the next argument. -/
def parse (options : Options) : (arguments : List Text) → Except OptionFault (Options × List Text)
  | [] => .ok (options, [])
  | argument :: rest =>
    match classify argument with
    | .operand => .ok (options, argument :: rest)
    | .terminator => .ok (options, rest)
    | .malformed => .error (.badSyntax argument)
    | .option name value =>
      if name = "log-level" then
        match value, rest with
        | some t, rest => parse { options with logLevel := t } rest
        | none, t :: rest => parse { options with logLevel := t } rest
        | none, [] => .error (.noValue name)
      else if name = "print-ast" then
        match setBool name value fun b => { options with printTrees := b } with
        | .ok options => parse options rest
        | .error fault => .error fault
      else if name = "version" then
        match setBool name value fun b => { options with version := b } with
        | .ok options => parse options rest
        | .error fault => .error fault
      else if name = "help" ∨ name = "h" then .error .help
      else .error (.unknown name)

end Options

namespace Prompt

/-- The word that ends a session at the prompt. -/
def exitWord : Text := "exit"

/-- What follows a turn at the prompt. -/
inductive Next where
  /-- The session ends. -/
  | ended (code : ExitCode)
  /-- The prompt is shown again. -/
  | again (s : Session)

/-- One turn at the prompt: takes a line, and runs it unless it is blank or ends the session. -/
def turn (n : Nat) (s : Session) : List Output × Next :=
  match s.nextLine? with
  | none => ([], .ended .ok)
  | some (line, s) =>
    if line.trim = [] then ([], .again s)
    else if line.trim = exitWord then ([], .ended .ok)
    else
      let (outcome, outputs, s) := s.run n line
      (outputs, if outcome.isFatal then .ended .failure else .again s.reset)

/-- Takes turns, at most `rounds` of them, until the input or the session ends. -/
def loop (prompt : Text) (n : Nat) : (rounds : Nat) → Session → ExitCode × List Output
  | 0, _ => (.ok, [])
  | rounds + 1, s =>
    match turn n s with
    | (outputs, .ended code) => (code, .out prompt :: outputs)
    | (outputs, .again s) =>
      let (code, more) := loop prompt n rounds s
      (code, .out prompt :: outputs ++ more)

end Prompt

/-- What a command does: its exit code, what it writes, and up to which level log messages are
shown. -/
structure CommandResult where
  code : ExitCode
  outputs : List Output
  level : LogLevel := .warning

/-- What a command finds around it: the disk, the home folder, the time and the input. -/
structure Surrounding where
  disk : Disk
  home : Option Text
  clock : Clock
  input : Text

namespace CommandLine

/-- The version of the program. -/
def version : Text := "lox 0.1.0\n"

/-- How the command is used. -/
def usage : Text :=
  Text.concat
    ["Usage: lox [options] [script]\n",
      "  -log-level string\n",
      "    \tlog level: panic, fatal, error, warn, info, debug or trace\n",
      "  -print-ast\n",
      "    \tprint the parsed program instead of running it\n",
      "  -version\n",
      "    \tprint the version and exit\n"]

/-- The configuration of the working folder: that of the nearest settings file, or the default. -/
def config (around : Surrounding) : Except Text Config :=
  match Config.find around.disk around.disk.cwd with
  | .error failure => .error failure.message
  | .ok none => .ok (Config.default around.home around.disk.cwd)
  | .ok (some path) =>
    match Config.load around.disk around.home path with
    | .ok config => .ok config
    | .error failure => .error failure.message

/-- Runs a script. -/
def runScript (disk : Disk) (n : Nat) (path : Text) (s : Session) : ExitCode × List Output :=
  let (outcome, outputs, s) := s.runFile disk n path
  match outcome with
  | .unreadable message =>
    if s.exitCode = .ok then (.noInput, outputs ++ [.errLine ("lox: " ++ message)])
    else (s.exitCode, outputs)
  | _ => (s.exitCode, outputs)

/-- Runs a script or the prompt in a session of its own. -/
def runSession (around : Surrounding) (n : Nat) (config : Config) (level : LogLevel)
    (printTrees : Bool) (script : Option Text) : CommandResult :=
  let (opening, session) :=
    Session.new around.disk config around.clock ⟨around.input, none⟩ script.isNone printTrees
  let (code, outputs) := match script with
    | some path => runScript around.disk n path session
    | none => Prompt.loop config.prompt n (around.input.length + 1) session
  ⟨code, opening ++ outputs, level⟩

/-- Runs the command with options that can be used and its operands. -/
def runWith (around : Surrounding) (n : Nat) (options : Options) (operands : List Text) :
    CommandResult :=
  if options.version then ⟨.ok, [.out version], .warning⟩
  else if 1 < operands.length then ⟨.usage, [.err usage], .warning⟩
  else
    match config around with
    | .error message => ⟨.badConfig, [.errLine ("failed to load config: " ++ message)], .warning⟩
    | .ok config =>
      let asked := if options.logLevel = [] then some config.level
        else LogLevel.ofText? options.logLevel
      match asked with
      | none =>
        let message : Text := "invalid --log-level: not a valid logrus Level: "
        ⟨.usage, [.errLine (message ++ options.logLevel.quoted)], .warning⟩
      | some level => runSession around n config level options.printTrees operands.head?

/-- Runs the command with its arguments; each run of a program takes at most `n` steps. -/
def run (around : Surrounding) (n : Nat) (arguments : List Text) : CommandResult :=
  match Options.parse {} arguments with
  | .ok (options, operands) => runWith around n options operands
  | .error fault =>
    match fault.message with
    | none => ⟨.ok, [.err usage], .warning⟩
    | some message => ⟨.usage, [.errLine message, .err usage], .warning⟩

end CommandLine

end Lox
