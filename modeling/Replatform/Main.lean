import Replatform.CommandLine.Analyze
/-!
# The program

The command line on a machine. An analysis is a function of the files and of the lines that the
user types, so the program takes in the files that can matter, runs the analysis, and runs it
again with one line more for as long as it asks for one. Then it writes out what has changed.
-/

namespace Replatform.CommandLine

/-- How to call the program. -/
def usage : String :=
  "usage: replatform [-h] analyze [-h] [-r] [-o OUTPUT] [--generate-dbt DIR] [--macro-dir DIR]\n"
    ++ "                  [--non-interactive] [-v] [--validate] path\n"

def help : String :=
  usage ++ "\nAlteryx to DBT Documentation Generator\n\n"
    ++ "  path                  a workflow, or a directory with workflows\n"
    ++ "  -r, --recursive       also look below the directory\n"
    ++ "  -o, --output          the directory for the pages (default: <path>/alteryx_docs)\n"
    ++ "  --generate-dbt DIR    also write a project into a directory\n"
    ++ "  --macro-dir DIR       look for macros in a directory (may be given several times)\n"
    ++ "  --non-interactive     ask no questions\n"
    ++ "  -v, --verbose         say more\n"
    ++ "  --validate            compile the project\n"

/-- Whether the contents of a file can matter. -/
def matters (p : Path) : Bool :=
  [".yxmd", ".yxmc", ".yxwz", ".sql", ".csv", ".tsv", ".txt", ".json"].contains
    (String.ofList (Text.lower p.suffix.toList))

/-- Adds an entry to the files, with the directories that lead to it. -/
def addEntry (fs : Files) (p : Path) (entry : Entry) : Files :=
  match entry with
  | .directory => (fs.makeDirectory p).toOption.getD fs
  | .file content =>
    ((fs.makeDirectory p.parent).bind (·.write p content)).toOption.getD fs

/-- Takes in what is at a path of the machine, and so many levels below it. -/
def takeIn (p : Path) : Nat → Files → IO Files
  | 0, fs => return fs
  | levels + 1, fs => do
    let place := fs.cwd.resolve p
    let here := (← IO.currentDir) / place.toString
    if ← here.isDir then
      (← here.readDir).foldlM (fun fs e => takeIn (place / e.fileName) levels fs)
        (addEntry fs place .directory)
    else if ← here.pathExists then
      let bytes ← if matters place then IO.FS.readBinFile here else pure ByteArray.empty
      return addEntry fs place (.file (.bytes bytes.toList))
    else return fs

/-- More levels than directories have. -/
def allLevels : Nat := 100

/-- The files that an analysis may read. -/
def takeInFor (o : Options) (home : Path) (fs : Files) : IO Files := do
  let target := fs.cwd.resolve (Path.ofString o.path)
  let fs ← takeIn (home / "dbt_macros") 2 (addEntry fs fs.cwd .directory)
  let fs ← o.macroDirs.foldlM (fun fs d => takeIn (Path.ofString d) allLevels fs) fs
  let fs ← takeIn target.parent.parent 3 fs
  takeIn target allLevels fs

/-- The data files of the workflows. -/
def dataFiles (o : Options) (fs : Files) : List Path :=
  let files := (Workflow.findAt fs (fs.cwd.resolve (Path.ofString o.path)) o.recursive).toOption
  (files.getD []).flatMap fun file =>
    match Workflow.load fs file.toString with
    | .ok w => w.tools.filterMap fun t => t.sourcePath.map Path.ofString
    | .error _ => []

/-- The time on the machine, taken from a file that is made for this. -/
def clock : IO Moment := do
  let (_, path) ← IO.FS.createTempFile
  let time := (← path.metadata).modified
  IO.FS.removeFile path
  return Moment.ofSeconds time.sec.toNat

/-- Writes an entry to the disk. -/
def writeOut (place : List String) (entry : Entry) : IO Unit := do
  let here := (← IO.currentDir) / (Path.mk "/" place).toString
  match entry with
  | .directory => IO.FS.createDirAll here
  | .file content => IO.FS.writeBinFile here ⟨content.toBytes.toArray⟩

/-- Writes out what is new or different. -/
def writeChanges (before after : Files) : IO Unit :=
  after.entries.forM fun (place, entry) => do
    if before.entries.lookup place != some entry then writeOut place entry

/-- Runs an analysis, and asks for lines as long as it needs them. What was `shown` already is not
printed again. -/
partial def converse (home : Path) (o : Options) (start : Session) (shown : Nat) : IO UInt32 := do
  let (result, s) := (analyze home .absent o).run start |>.run
  let stdout ← IO.getStdout
  let line ← match s.untilDry? with
    | some text =>
      stdout.putStr (text.drop shown).toString
      stdout.flush
      (← IO.getStdin).getLine
    | none => pure ""
  if line.isEmpty then
    let shown := (s.untilDry?.map String.length).getD shown
    stdout.putStr (s.output.drop shown).toString
    writeChanges start.files s.files
    match result with
    | .ok code => return code.toUInt32
    | .error e =>
      (← IO.getStderr).putStrLn e.wording
      return 1
  else
    let typed := if line.endsWith "\n" then (line.dropEnd 1).toString else line
    let files ← takeIn (Path.ofString typed) 3 start.files
    converse home o { start with files, input := start.input ++ [some typed] }
      ((s.untilDry?.map String.length).getD shown)

end Replatform.CommandLine

open Replatform CommandLine in
/-- Does what the command line asks for. -/
def main (arguments : List String) : IO UInt32 := do
  match CommandLine.read arguments with
  | .help => IO.print help; return 0
  | .nothing => IO.print help; return 1
  | .wrong => (← IO.getStderr).putStr usage; return 2
  | .analyze o =>
    let home := (Path.ofString (← IO.appPath).toString).parent
    let cwd := Path.ofString (← IO.currentDir).toString
    let fs ← takeInFor o home { cwd, entries := [] }
    let files ← (dataFiles o fs).foldlM (fun fs p => takeIn p 1 fs) fs
    converse home o { files, now := ← clock } 0
