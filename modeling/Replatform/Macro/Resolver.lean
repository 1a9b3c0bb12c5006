import Replatform.Macro.Inventory
import Replatform.Session
import Replatform.Workflow.Document
/-!
# Finding macros

A workflow refers to macros by paths that need not exist where it is analysed. A macro is sought
near the workflow and in the search directories; if it is not there, the user is asked where it is,
unless questions are switched off.

What the user answered is kept for the rest of the session: places that were found, references
to pass over, and whether to ask no more. It is kept also if the search fails later on.
-/

namespace Replatform

/-- Where macros are sought, and what is known from before. -/
structure Resolver where
  searchDirs : List Path := []
  /-- References with the place that was found for them. -/
  resolved : List (String × String) := []
  /-- References to pass over. -/
  skipped : List String := []
  skipAll : Bool := false
  interactive : Bool := true
deriving Repr

/-- A question to the user: the reference that it is put for, and what was known then. -/
structure Question where
  reference : String
  known : Resolver
deriving Repr

/-- A search for macros: what is known, the references of the workflow at hand that are missing, and
the questions that were put. -/
structure Quest where
  session : Session
  resolver : Resolver
  missing : List String := []
  asked : List Question := []
deriving Repr

/-- Macros by their references. -/
abbrev MacroInfos := List (String × MacroInfo)

namespace Resolver

/-- The places near a workflow where a macro may be. -/
def nearby (reference : String) (w : Workflow) : List Path :=
  let name := (Path.ofString reference).name
  let home := (Path.ofString w.metadata.path).parent
  [Path.ofString reference, home / reference, home / name, home / "macros" / name,
   home / "Macros" / name, home.parent / name, home.parent / "macros" / name]

/-- The places in the search directories and below them where a macro may be. -/
def searchPlaces (r : Resolver) (fs : Files) (name : String) : Except Failure (List Path) := do
  let places ← r.searchDirs.mapM fun dir => do
    return dir / name :: (← fs.directories dir).map (· / name)
  return places.flatten

def firstFile (fs : Files) : List Path → Except Failure (Option Path)
  | [] => .ok none
  | p :: ps => do if ← fs.isFile p then return some p else firstFile fs ps

/-- The place of a macro, as an absolute path. -/
def search (r : Resolver) (reference : String) (w : Workflow) (fs : Files) :
    Except Failure (Option String) := do
  let places ← r.searchPlaces fs (Path.ofString reference).name
  let found ← firstFile fs (nearby reference w ++ places)
  return found.map fun p => (Path.resolve fs.cwd p).toString

/-- What is known from before about a reference, if its file is still there. -/
def remembered (r : Resolver) (reference : String) (fs : Files) : Except Failure (Option String) :=
  match r.resolved.lookup reference with
  | none => .ok none
  | some place => do
    if ← fs.exists? (Path.ofString place) then return some place else return none

/-- Adds a search directory. -/
def addDir (r : Resolver) (path : Path) : Resolver :=
  { r with searchDirs := r.searchDirs ++ [path] }

/-- Remembers the place of a macro. -/
def keep (r : Resolver) (reference place : String) : Resolver :=
  { r with resolved := setField r.resolved reference place }

/-- Passes a macro over from now on. -/
def skip (r : Resolver) (reference : String) : Resolver :=
  if r.skipped.contains reference then r else { r with skipped := r.skipped ++ [reference] }

def mayAsk (r : Resolver) : Bool := !r.skipAll && r.interactive

end Resolver

/-- The name of an end of a macro: its annotation, or else a name with its number. -/
def endName (kind : String) (t : Tool) : String :=
  (filled t.annotation).getD (kind ++ "_" ++ toString t.id)

/-- A macro that was found, with what it takes and gives. -/
def MacroInfo.withEnds (info : MacroInfo) : MacroInfo :=
  match info.workflow with
  | none => info
  | some w =>
    { info with
      inputs := (w.tools.filter (·.name == "Macro Input")).map (endName "Input")
      outputs := (w.tools.filter (·.name == "Macro Output")).map (endName "Output") }

/-- What comes of an answer to the question for a macro: the question is settled, or asked again. -/
inductive Turn
  | settled (info : MacroInfo)
  | again

/-- A step of a search. -/
abbrev Seek (α : Type) := ExceptT Failure (StateM Quest) α

namespace Seek

/-- A step of the session as one of a search. -/
def ofRun {α : Type} (r : Run α) : Seek α := do
  let q ← get
  let (result, session) := (r.run q.session).run
  set { q with session }
  match result with
  | .ok a => return a
  | .error e => throw e

def say (line : String) : Seek Unit := ofRun (Run.say line)

/-- A question on the files, for one who knows what is known. -/
def look {α : Type} (f : Resolver → Files → Except Failure α) : Seek α := do
  let q ← get
  ofRun (Run.look (f q.resolver))

/-- Changes what is known. -/
def learn (f : Resolver → Resolver) : Seek Unit :=
  modify fun q => { q with resolver := f q.resolver }

/-- Asks the user something about a reference. -/
def ask (reference question : String) : Seek Reply := do
  modify fun q => { q with asked := q.asked ++ [⟨reference, q.resolver⟩] }
  ofRun (Run.ask question)

/-- Notes that a macro is missing. -/
def noteMissing (reference : String) : Seek Unit :=
  modify fun q => { q with missing := q.missing ++ [reference] }

/-- Adds a search directory if it is there. -/
def addDirectory (directory : String) : Seek Unit := do
  let path := Path.ofString directory
  if ← look fun _ fs => fs.isDirectory path then
    if (← get).resolver.searchDirs.contains path then pure ()
    else
      learn (·.addDir path)
      say ("Added macro search directory: " ++ path.toString)
  else say ("Warning: Directory does not exist: " ++ directory)

/-- Reads the workflow of a macro. A fault in it is reported, and there is no workflow then. -/
def readMacro (file : String) : Seek (Option Workflow) := do
  match Workflow.load (← get).session.files file with
  | .ok w => return some w
  | .error e =>
    ofRun (Run.sayFailure ("Warning: Could not parse macro " ++ file ++ ": ") e)
    return none

/-- Remembers and reads a macro that was found. -/
def accept (info : MacroInfo) (place : String) : Seek MacroInfo := do
  learn (·.keep info.path place)
  let workflow ← readMacro place
  return { info with found := true, place := some place, workflow }

/-- The user gives up or goes away. -/
def stop (info : MacroInfo) : Reply → Seek Turn
  | .interrupted => do
    say "\nSkipping macro resolution"
    return .settled info
  | _ => do
    learn (·.skip info.path)
    return .settled info

def askFile (info : MacroInfo) : Seek Turn := do
  match ← ask info.path "Enter full path to macro file: " with
  | .line answer =>
    let path := typedPath answer
    if ← look fun _ fs => fs.exists? (Path.ofString path) then
      let info ← accept info path
      say ("Macro resolved: " ++ path)
      return .settled info
    else
      say ("File not found: " ++ path)
      return .again
  | reply => stop info reply

/-- Asks for a directory to search. -/
def askDirectory (info : MacroInfo) (w : Workflow) : Seek Turn := do
  match ← ask info.path "Enter directory path: " with
  | .line answer =>
    let directory := typedPath answer
    if ← look fun _ fs => fs.isDirectory (Path.ofString directory) then
      addDirectory directory
      match ← look (·.search info.path w) with
      | some place =>
        let info ← accept info place
        say ("Macro found: " ++ place)
        return .settled info
      | none =>
        say ("Macro not found in " ++ directory)
        say "Directory added to search paths for future lookups."
        return .again
    else
      say ("Invalid directory: " ++ directory)
      return .again
  | reply => stop info reply

/-- Asks what to do about a macro. -/
def askChoice (info : MacroInfo) (w : Workflow) : Seek Turn := do
  match ← ask info.path "Your choice (1-4): " with
  | .line answer =>
    match String.ofList (Text.strip answer.toList) with
    | "1" => askFile info
    | "2" => askDirectory info w
    | "3" =>
      learn (·.skip info.path)
      say ("Skipping macro: " ++ info.name)
      return .settled info
    | "4" =>
      learn fun r => { r.skip info.path with skipAll := true }
      say "Skipping all missing macros"
      return .settled info
    | _ =>
      say "Invalid choice. Please enter 1, 2, 3, or 4."
      return .again
  | reply => stop info reply

/-- Asks until the question is settled. Every turn but the last takes a line of input, so one more
turn than there are lines suffices. -/
def askUntilSettled (info : MacroInfo) (w : Workflow) : Nat → Seek MacroInfo
  | 0 => return info
  | fuel + 1 => do
    match ← askChoice info w with
    | .settled info => return info
    | .again => askUntilSettled info w fuel

/-- What the user is told: that a macro is missing, and what can be done about it. -/
def introduction (info : MacroInfo) (w : Workflow) : List String :=
  ["\n" ++ Run.rule, "Macro not found: \"" ++ info.name ++ "\"",
   "Referenced in: " ++ w.metadata.name]
  ++ (if info.path ≠ info.name then ["Original path: " ++ info.path] else [])
  ++ [Run.rule, "\nOptions:", "[1] Enter path to macro file",
   "[2] Enter directory containing macros", "[3] Skip this macro (document as missing)",
   "[4] Skip all missing macros", ""]

/-- Asks for a macro until there is an answer. -/
def prompt (info : MacroInfo) (w : Workflow) : Seek MacroInfo := do
  (introduction info w).forM say
  askUntilSettled info w ((← get).session.input.length + 1)

/-- Finds a macro: remembered, by a search, or by asking. -/
def resolve (reference : String) (w : Workflow) : Seek MacroInfo := do
  let info : MacroInfo := { name := (Path.ofString reference).name, path := reference }
  match ← look (·.remembered reference) with
  | some place =>
    let workflow ← readMacro place
    return { info with found := true, place := some place, workflow }
  | none =>
    match ← look (·.search reference w) with
    | some place =>
      let info ← accept info place
      return info.withEnds
    | none => if (← get).resolver.mayAsk then prompt info w else return info

/-- Finds macros one after the other. -/
def resolveAll (w : Workflow) : List String → MacroInfos → Seek MacroInfos
  | [], infos => return infos
  | reference :: rest, infos => do
    if (← get).resolver.skipped.contains reference then
      noteMissing reference
      resolveAll w rest infos
    else
      let info ← resolve reference w
      if !info.found then noteMissing reference
      resolveAll w rest (setField infos reference info)

/-- Finds the macros of a workflow. What is missing is noted behind what was missing before. -/
def resolveWorkflow (w : Workflow) : Seek MacroInfos := do
  modify fun q => { q with missing := w.missing }
  resolveAll w w.macros []

end Seek

/-- What comes of a search for the macros of a workflow: the macros, or why there are none, the
workflow with what is missing, and what is known then. -/
structure Sought where
  infos : Except Failure MacroInfos
  workflow : Workflow
  resolver : Resolver

namespace Resolver

/-- Adds a search directory if it is there. -/
def addDirectory (r : Resolver) (directory : String) : Run Resolver := do
  let (result, q) := ((Seek.addDirectory directory).run { session := ← get, resolver := r }).run
  set q.session
  match result with
  | .ok _ => return q.resolver
  | .error e => throw e

/-- Finds the macros of a workflow. -/
def resolveWorkflow (r : Resolver) (w : Workflow) : Run Sought := do
  let (infos, q) := ((Seek.resolveWorkflow w).run { session := ← get, resolver := r }).run
  set q.session
  return { infos, workflow := { w with missing := q.missing }, resolver := q.resolver }

end Resolver

end Replatform
