import Lox.Files.Entry
import Lox.Interpreter
import Lox.Settings

/-!
# Configuration

Settings come from a file named `lox.yml` in the working folder or the nearest folder above it.
What the file leaves out has a default; what it says must make sense.
-/

namespace Lox

/-- The settings in force. The path is that of the settings file, or empty without one. -/
structure Config where
  path : Text := []
  moduleRoot : Text
  exclude : List Text
  respectIgnores : Bool
  maxCallDepth : Int
  logLevel : Text
  historyFile : Text
  prompt : Text
  deriving DecidableEq, Repr

namespace Config

/-- The folders that are not searched for modules by default. -/
def defaultExclude : List Text := ["target", "build", "bin", "dist", "node_modules", ".git"]

/-- The name of the file in which the lines given at the prompt are kept. -/
def historyName : Text := ".lox_history"

/-- The configuration without a settings file, for a working folder and a home folder. -/
def default (home : Option Text) (dir : Text) : Config :=
  { moduleRoot := dir
    exclude := defaultExclude
    respectIgnores := true
    maxCallDepth := Interpreter.defaultLimit
    logLevel := LogLevel.warning.name
    historyFile := match home with
      | some home => Path.join [home, historyName]
      | none => historyName
    prompt := ">> " }

/-- A path in a settings file: a leading `~` is the home folder, if there is one, and relative paths
are seen from the folder of the file. -/
def resolvePath (home : Option Text) (dir p : Text) : Text :=
  match home, Text.afterPrefix? "~" p with
  | some home, some rest =>
    if rest = [] ∨ rest.head? = some Path.slash then Path.join [home, rest] else Path.resolve dir p
  | _, _ => Path.resolve dir p

/-- A setting that counts only if it is not empty. -/
def nonEmpty (t : Option Text) : Option Text := t.filter (· ≠ [])

/-- Settings over the defaults of the folder of their file. -/
def ofSettings (home : Option Text) (dir : Text) (s : Settings) : Config :=
  let base := default home dir
  { moduleRoot := ((nonEmpty s.moduleRoot).map (resolvePath home dir)).getD base.moduleRoot
    exclude := s.exclude.getD base.exclude
    respectIgnores := s.respectIgnores.getD base.respectIgnores
    maxCallDepth := s.maxCallDepth.getD base.maxCallDepth
    logLevel := (nonEmpty s.logLevel).getD base.logLevel
    historyFile := ((nonEmpty s.historyFile).map (resolvePath home dir)).getD base.historyFile
    prompt := s.prompt.getD base.prompt }

/-- The level of the messages shown; a level that makes no sense counts as `warning`. -/
def level (c : Config) : LogLevel := (LogLevel.ofText? c.logLevel).getD .warning

/-- What can be wrong with a configuration. -/
inductive Issue where
  | depthNotPositive (depth : Int)
  | unknownLevel (level : Text)
  | notPlainName (index : Nat)
  deriving DecidableEq, Repr

/-- The issue in words. -/
def Issue.text : Issue → Text
  | depthNotPositive depth => "max_call_depth must be positive, got " ++ Text.ofInt depth
  | unknownLevel level => "log_level " ++ level.quoted ++ " is not a valid level"
  | notPlainName index => "exclude[" ++ Text.ofNat index ++ "] must be a plain directory name"

/-- Whether a text is the name of a folder and no path. -/
def isPlainName (t : Text) : Bool := t ≠ [] && !t.contains Path.slash

/-- The issues of excluded names, counted from `index`. -/
def excludeIssues (index : Nat) : List Text → List Issue
  | [] => []
  | name :: rest =>
    (if isPlainName name then [] else [.notPlainName index]) ++ excludeIssues (index + 1) rest

/-- Everything that is wrong with a configuration, in order. -/
def issues (c : Config) : List Issue :=
  (if c.maxCallDepth ≤ 0 then [.depthNotPositive c.maxCallDepth] else [])
    ++ (if (LogLevel.ofText? c.logLevel).isNone then [.unknownLevel c.logLevel] else [])
    ++ excludeIssues 0 c.exclude

/-- Why there is no configuration. -/
inductive LoadFailure where
  | emptyPath
  | unreadable (path : Text) (why : Entry.Absence)
  | malformed (path : Text) (why : Settings.Refusal)
  | invalid (issues : List Issue)
  deriving DecidableEq, Repr

/-- The failure in words. -/
def LoadFailure.message : LoadFailure → Text
  | emptyPath => "config: empty path"
  | unreadable path why => "config: open " ++ path ++ ": open " ++ path ++ ": " ++ why.text
  | malformed path why => "config: parse " ++ path ++ ": " ++ why.message
  | invalid issues =>
    "config validation failed:" ++ issues.flatMap fun i => ("\n- " : Text) ++ i.text

/-- The configuration of the settings in a file, if nothing is wrong with it. -/
def check (home : Option Text) (path : Text) (settings : Settings) : Except LoadFailure Config :=
  let config := { ofSettings home (Path.parent path) settings with path }
  match config.issues with
  | [] => .ok config
  | issues => .error (.invalid issues)

/-- Reads the settings file at a path. -/
def load (disk : Disk) (home : Option Text) (path : Text) : Except LoadFailure Config :=
  if path = [] then .error .emptyPath
  else
    let path := disk.absolute path
    match disk.lookup path with
    | .error why => .error (.unreadable path why)
    | .ok (.folder _) => .error (.malformed path (.faulty ⟨0, .unreadable (.folder path)⟩))
    | .ok (.file content) =>
      match Settings.ofBytes content with
      | .error why => .error (.malformed path why)
      | .ok settings => check home path settings

/-- The name of the settings file. -/
def fileName : Text := "lox.yml"

/-- The folders from the one with the given names upward, nearest first. The names come in reverse
order. -/
def upward : List Text → List Text
  | [] => [Path.ofParts true []]
  | name :: above => Path.ofParts true (name :: above).reverse :: upward above

/-- Why looking for the settings file had to stop. -/
structure FindFailure where
  candidate : Text
  why : Entry.Absence
  deriving DecidableEq, Repr

/-- The failure in words. -/
def FindFailure.message (f : FindFailure) : Text :=
  "config: stat " ++ f.candidate ++ ": stat " ++ f.candidate ++ ": " ++ f.why.text

/-- The first settings file in a list of folders. Folders that happen to have its name do not
count. -/
def findIn (disk : Disk) : (dirs : List Text) → Except FindFailure (Option Text)
  | [] => .ok none
  | dir :: rest =>
    let candidate := Path.join [dir, fileName]
    match disk.lookup candidate with
    | .ok (.file _) => .ok (some candidate)
    | .ok (.folder _) | .error .missing => findIn disk rest
    | .error why => .error ⟨candidate, why⟩

/-- The settings file of the nearest folder upward. -/
def find (disk : Disk) (start : Text) : Except FindFailure (Option Text) :=
  findIn disk (upward (Path.cleanParts (disk.absolute start)).reverse)

end Config

end Lox
