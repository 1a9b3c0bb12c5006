import Replatform.CommandLine.Arguments
import Replatform.Macro.Resolver
import Replatform.Pages.Write
import Replatform.Project.Compile
import Replatform.Project.Generate
import Replatform.Workflow.Search
/-!
# Analysing workflows

The command that reads all workflows at a path, looks for their macros, writes a project if one is
asked for, and writes the pages. It answers with the code that the program ends with.
-/

namespace Replatform.CommandLine

open Project

/-- What is known about the workflows that were read so far. -/
structure Collected where
  workflows : List Workflow := []
  inventory : MacroInventory := {}
  resolver : Resolver

/-- Does work on a project in a session. -/
def workIn {α : Type} (b : Build) (work : Work α) : Run (α × Build) := do
  let (result, after) := (work.run { b with session := ← get }).run
  set after.session
  match result with
  | .ok a => return (a, after)
  | .error e => throw e

/-- Says how many parts a workflow has. -/
def sayParts (w : Workflow) : Run Unit := do
  Run.say ("  - " ++ toString w.tools.length ++ " tools")
  Run.say ("  - " ++ toString w.sources.length ++ " sources")
  Run.say ("  - " ++ toString w.targets.length ++ " targets")
  Run.say ("  - " ++ toString w.macros.length ++ " macros referenced")

/-- Adds a workflow and looks for its macros. A failure is answered, with what was learned
before. -/
def addWorkflow (c : Collected) (w : Workflow) : Run (Collected × Option Failure) := do
  if w.macros.isEmpty then return ({ c with workflows := c.workflows ++ [w] }, none)
  else
    let sought ← c.resolver.resolveWorkflow w
    let c := { c with workflows := c.workflows ++ [sought.workflow], resolver := sought.resolver }
    match sought.infos with
    | .error e => return (c, some e)
    | .ok infos =>
      let missing := sought.workflow.missing
      if !missing.isEmpty then
        Run.say ("  - " ++ toString missing.length ++ " macros not found")
      return ({ c with inventory := c.inventory.addAll infos w.metadata.name }, none)

/-- Prints that a file could not be read, or not all of its macros. -/
def warn (file : Path) (e : Failure) : Run Unit :=
  Run.sayFailure ("  Error parsing " ++ file.toString ++ ": ") e

/-- Adds the workflow that was read from a file. What goes wrong is printed. -/
def collectWorkflow (c : Collected) (file : Path) (w : Workflow) : Run Collected := do
  sayParts w
  let (c, failure) ← addWorkflow c w
  failure.forM (warn file)
  return c

/-- Reads the workflow in a file. What goes wrong is printed. -/
def collect (c : Collected) (file : Path) : Run Collected := do
  Run.say ("\nParsing: " ++ file.name)
  match Workflow.load (← get).files file.toString with
  | .error e => warn file e; return c
  | .ok w => collectWorkflow c file w

/-- Says what came of a validation. -/
def sayVerdict (verbose : Bool) : Verdict → Run Unit
  | .passed models _ =>
    Run.say ("  Validation passed: " ++ toString models ++ " models validated")
  | .failed error details => do
    Run.say ("  Validation failed: " ++ error)
    if verbose && !details.isEmpty then Run.say ("  Details: " ++ details)

/-- Writes the project into a directory, and answers with what is left to be done. -/
def writeProject (home : Path) (compiler : Compiler) (o : Options) (c : Collected) (dir : Path) :
    Run (List Todo) := do
  Run.say ("\nGenerating DBT project to: " ++ dir.toString)
  let b : Build := { session := ← get, dir, interactive := !o.silent }
  let (_, b) ← workIn b (Work.generate home c.workflows c.inventory)
  if o.validate then
    Run.say "\nValidating generated SQL..."
    let (verdict, _) ← workIn b (Work.compile compiler)
    sayVerdict o.verbose verdict
  return b.todos

/-- Says what was analysed and where the results are. -/
def saySummary (c : Collected) (pages : Path) (project : Option Path) : Run Unit := do
  let macros := c.inventory.summary
  Run.say ("\n" ++ Run.rule)
  Run.say "SUMMARY"
  Run.say Run.rule
  Run.say ("Workflows analyzed: " ++ toString c.workflows.length)
  Run.say ("Total tools: " ++ toString (Pages.total (·.tools.length) c.workflows))
  Run.say ("Total sources: " ++ toString (Pages.total (·.sources.length) c.workflows))
  Run.say ("Total outputs: " ++ toString (Pages.total (·.targets.length) c.workflows))
  Run.say ("Macros found: " ++ toString macros.found)
  Run.say ("Macros missing: " ++ toString macros.missing)
  Run.say ("\nDocumentation: " ++ (pages / "index.md").toString)
  match project with
  | some dir => Run.say ("DBT Project: " ++ (dir / "dbt_project.yml").toString)
  | none => pure ()

/-- Writes the project, if it was asked for, and the pages. -/
def writeResults (home : Path) (compiler : Compiler) (o : Options) (target : Path)
    (c : Collected) : Run Unit := do
  let pages := ((filled o.output).map Path.ofString).getD (target / "alteryx_docs")
  let project := (filled o.project).map Path.ofString
  let todos ← match project with
    | some dir => writeProject home compiler o c dir
    | none => pure []
  Run.say ("\nGenerating documentation to: " ++ pages.toString)
  Pages.writeAll pages c.workflows c.inventory todos
  saySummary c pages project

/-- The command; `home` is the directory of the program, and `compiler` what comes of compiling. -/
def analyze (home : Path) (compiler : Compiler) (o : Options) : Run Nat := do
  let target := (← get).files.cwd.resolve (Path.ofString o.path)
  if !(← Run.look (·.exists? target)) then
    Run.say ("Error: Path does not exist: " ++ target.toString)
    return 1
  else
    Run.say ("Scanning for Alteryx workflows in: " ++ target.toString)
    let files ← Run.look (Workflow.findAt · target o.recursive)
    if files.isEmpty then
      Run.say "No Alteryx workflow files (.yxmd) found."
      return 1
    else
      Run.say ("Found " ++ toString files.length ++ " workflow file(s)")
      let resolver : Resolver := { interactive := !o.silent, skipAll := o.silent }
      let resolver ← o.macroDirs.foldlM Resolver.addDirectory resolver
      let c ← files.foldlM collect { resolver }
      if c.workflows.isEmpty then
        Run.say "\nNo workflows were successfully parsed."
        return 1
      else
        writeResults home compiler o target c
        return 0

end Replatform.CommandLine
