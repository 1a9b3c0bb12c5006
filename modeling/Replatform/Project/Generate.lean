import Replatform.Project.Library
import Replatform.Project.MacroFile
import Replatform.Project.Models
import Replatform.Project.Settings
import Replatform.Project.Tests
import Replatform.Validation.Comparison
import Replatform.Validation.Report
/-!
# Writing a whole project

All parts of a project in the order in which they are written: directories and ready-made macros,
macros of the workflows, sources, models, tests, and what is needed to compare the project with the
old platform.
-/

namespace Replatform.Project

/-- The directories of a project, the outer ones first. -/
def directories (dir : Path) : List Path :=
  [dir, dir / "models", dir / "models" / "bronze", dir / "models" / "silver",
   dir / "models" / "gold", dir / "macros", dir / "macros" / "migration", dir / "tests",
   dir / "tests" / "generic", dir / "tests" / "singular", dir / "docs"]

/-- The model as a subject of tests. -/
def Model.subject (m : Model) : Validation.Subject :=
  { name := m.name, layer := m.layer.name, columns := m.columns }

namespace Work

/-- Makes the directories and copies the library. -/
def makeDirectories (home : Path) : Work Unit := do
  (directories (← get).dir).forM fun d => ofRun (Run.change (·.makeDirectory d))
  copyLibrary home

/-- What a validation has besides the tests of the models. -/
def writeReport (b : Build) (files : List String) : Work Unit := do
  modify fun b => { b with tests := b.tests ++ files }
  let seed ← ofRun (Validation.writeSeed b.dir)
  modify fun b => { b with tests := b.tests ++ [seed] }
  let report : Validation.Report :=
    { name := b.name ++ "_validation", total := b.models.length }
  let text ← check (report.document b.session.now)
  let file := b.dir / "docs" / "VALIDATION.md"
  writeText file text
  modify fun b => { b with tests := b.tests ++ [file.toString] }
  enter "validation" "tests"
  addTodo "validation_setup" "Configure Alteryx output sources for parallel validation"
    "Update seeds/alteryx_expected_counts.csv with actual Alteryx output counts" "high"

/-- Writes what is needed to compare the project with the old platform. -/
def writeValidation : Work Unit := do
  let b ← get
  writeReport b (← ofRun (Validation.writeAll b.dir (b.models.map fun (_, m) => m.subject)))

/-- Says how much was written. -/
def sayCounts : Work Unit := do
  let b ← get
  say ("DBT project generated at: " ++ b.dir.toString)
  say ("Models generated: " ++ toString b.written.length)
  if !b.macros.isEmpty then say ("Macros generated: " ++ toString b.macros.length)
  if !b.tests.isEmpty then say ("Validation tests generated: " ++ toString b.tests.length)
  if !b.todos.isEmpty then say ("TODOs requiring attention: " ++ toString b.todos.length)

/-- Writes what follows from all models, and prints what was written. -/
def finish : Work Unit := do
  writeModelLists
  writeTests
  if (← get).validation then writeValidation
  writeProject
  sayCounts

/-- Writes a project for workflows; `home` is the directory of the program. -/
def generate (home : Path) (workflows : List Workflow) (inv : Option MacroInventory) :
    Work Unit := do
  makeDirectories home
  match inv with
  | some inv => writeMacros inv
  | none => pure ()
  collectSources workflows
  writeSourceList
  workflows.forM writeWorkflow
  finish

end Work

end Replatform.Project
