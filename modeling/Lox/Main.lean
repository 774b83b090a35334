import Mathlib.Tactic.DeprecateTo
import Lox.CommandLine
import Lox.Mention

/-!
# The program

Fetches what a command may need from the machine, runs the command, and writes what it says.

The files fetched are the settings files in the working folder and above it, the script, and, if
anything is imported, the tree of the module folder. Of that tree only the files that some import
can name and the lists of ignored files are read. The input is read as a whole, and only if there
is no script or something names a function that reads it. The time is read once: the clock that a
command finds stands still.
-/

namespace Lox.Main

/-- More steps than any run takes. -/
def maxSteps : Nat := Nat.pow 2 62

/-- A path for the machine. -/
def path (t : Text) : String := (String.fromUTF8? ⟨t.toArray⟩).getD ""

/-- A path from the machine. -/
def text (s : String) : Text := s

/-- Whether a folder is at a path. -/
def isFolder (p : Text) : IO Bool := do
  let here ← IO.currentDir
  (here / path p).isDir

/-- The content of the file at a path, if it can be read. -/
def content? (p : Text) : IO (Option Text) := do
  try return some (← IO.FS.readBinFile (path p)).data.toList
  catch _ => return none

/-- Adds what is at a path to a tree: a file with its content, or an empty folder. -/
def fetch (root : Entry) (p : Text) : IO Entry := do
  if ← isFolder p then return root.makeFolder (Path.cleanParts p)
  match ← content? p with
  | some content => return root.insert (Path.cleanParts p) (.file content)
  | none => return root

/-- Adds the folders on the way to a path, and what is there. -/
def fetchAll (root : Entry) (names : List Text) : IO Entry := do
  let mut root := root
  let mut p : Text := []
  for name in names do
    p := p ++ [Path.slash] ++ name
    root ← fetch root p
  return root

/-- The names of the files that hold lists of ignored files. -/
def listNames : List Text := [".gitignore", "exclude"]

/-- The tree at a path. Files are empty unless their names are wanted. -/
partial def tree (wanted : List Text) (p : Text) : IO Entry := do
  let here ← IO.currentDir
  let mut folder := Entry.emptyFolder
  for e in ← (here / path p).readDir do
    let name := text e.fileName
    let inner := p ++ [Path.slash] ++ name
    let entry ← if ← e.path.isDir then tree wanted inner
      else if name ∈ wanted ∨ name ∈ listNames then
        pure (Entry.file ((← content? inner).getD []))
      else pure (Entry.file [])
    folder := folder.insert [name] entry
  return folder

/-- The tree at a path, with all files that given sources and their imports can name: the tree and
all sources. -/
partial def modules (p : Text) (known : List Text) (wanted : List Text) : IO (Entry × List Text) := do
  let t ← tree wanted p
  let found := known ++ Entry.contentsIn wanted t.entries
  let names := found.flatMap Text.importedNames
  if names.all (· ∈ wanted) then return (t, found) else modules p known (wanted ++ names)

/-- The whole input. -/
def readInput : IO Text := do
  return (← (← IO.getStdin).readBinToEnd).data.toList

/-- Adds the modules that sources can import to a tree: the tree and all sources. -/
def fetchModules (disk : Disk) (home : Option Text) (known : List Text) : IO (Disk × List Text) := do
  if (known.flatMap Text.importedNames).isEmpty then return (disk, known)
  match CommandLine.config ⟨disk, home, 0, []⟩ with
  | .error _ => return (disk, known)
  | .ok config =>
    unless ← isFolder config.moduleRoot do return (disk, known)
    let (t, found) ← modules config.moduleRoot known []
    let names := Path.cleanParts config.moduleRoot
    let kept := match disk.root.content? names with
      | some _ => disk.root
      | none => disk.root.insert names t
    return (⟨kept, disk.cwd⟩, found)

/-- The time in seconds of the Unix epoch. -/
def now : IO Float := do
  -- the times of the standard library come with the tool that dates deprecations
  let time ← Std.Time.Timestamp.now
  return Float.ofInt time.toNanosecondsSinceUnixEpoch.val / 1000000000.0

/-- Everything that a command with the given operands may need. -/
def surrounding (operands : List Text) : IO Surrounding := do
  let here ← IO.currentDir
  let cwd := text here.toString
  let home := ((← IO.getEnv "HOME").map text).filter (· ≠ [])
  let clock : Clock := ← now
  let mut root ← fetchAll .emptyFolder (Path.cleanParts cwd)
  for dir in Config.upward (Path.cleanParts cwd).reverse do
    root ← fetch root (Path.join [dir, Config.fileName])
  match operands with
  | [] =>
    let input ← readInput
    let lines := input.splitOn (Text.byte '\n')
    let (disk, _) ← fetchModules ⟨root, cwd⟩ home lines
    return ⟨disk, home, clock, input⟩
  | script :: _ =>
    let disk : Disk := ⟨root, cwd⟩
    let full := disk.fromRoot script
    let source := (← content? full).getD []
    let (disk, known) ← fetchModules disk home [source]
    let whole ← fetchAll disk.root ((full.splitOn Path.slash).filter (· ≠ []))
    let input ← if known.any Text.mentionsInput then readInput else pure []
    return ⟨⟨whole, cwd⟩, home, clock, input⟩

/-- Writes what a command says. -/
def write (result : CommandResult) : IO Unit := do
  let stdout ← IO.getStdout
  let stderr ← IO.getStderr
  for o in result.outputs do
    match o with
    | .out t => stdout.write ⟨t.toArray⟩
    | o => stderr.write ⟨(Output.errTextWithLog result.level [o]).toArray⟩
  stdout.flush
  stderr.flush

end Lox.Main

/-- Runs the command line. -/
def main (arguments : List String) : IO UInt32 := do
  let arguments := arguments.map Lox.Main.text
  let operands := match Lox.Options.parse {} arguments with
    | .ok (options, operands) => if options.version then none else some operands
    | .error _ => none
  let around ← match operands with
    | some operands => Lox.Main.surrounding operands
    | none => pure ⟨⟨.emptyFolder, []⟩, none, 0, []⟩
  let result := Lox.CommandLine.run around Lox.Main.maxSteps arguments
  Lox.Main.write result
  return result.code.number.toUInt32
