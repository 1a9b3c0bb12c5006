import Replatform.CommandLine.Analyze
import Replatform.Trial.Macros
/-!
# Trials of all that is written

Pages, projects, and the command that makes both, on sample workflows. The answers count what is
written; the files themselves stay in the session.
-/

namespace Replatform.Trial

open Project (Todo Build Work)

/-- The workflows of a setting with their macros, each use of a macro counted `uses` times. -/
def collectMacros (uses : Nat) (files : List Path) : Run (List Workflow × MacroInventory) := do
  files.foldlM (fun (ws, inv) file => do
    let sought ← silent.resolveWorkflow (← load file)
    return (ws ++ [sought.workflow], (← orStop sought.infos).foldl (fun inv (_, m) =>
      (List.range uses).foldl (fun inv _ => inv.add m sought.workflow.metadata.name) inv) inv))
    ([], {})

/-- Things to do for the pages, of every layer, kind and priority. -/
def sampleTodos (n : Nat) : List Todo :=
  (List.range n).map fun i =>
    let layer := Sample.byNumber ["bronze", "silver", "gold", "macro"] i
    let model := "m" ++ toString i
    { file := "models/" ++ layer ++ "/" ++ model ++ ".sql", model, layer
      kind := Sample.byNumber
        ["specify_columns", "implement_transformation", "review_expression", "other"] i
      description := "Fix " ++ toString i
      context := "ctx " ++ toString i
      priority := Sample.byNumber ["high", "medium", "low"] i }

/-- The files below a directory, by the names on the way to each. -/
def filesBelow (dir : Path) : Run (List (List String)) := do
  let fs := (← get).files
  return (fs.below (fs.cwd.append dir).parts).filterMap fun (names, e) =>
    match e with
    | .file _ => some names
    | .directory => none

def countFiles (dir : Path) (suffix : String) : Run Value := do
  return count ((← filesBelow dir).filter fun names =>
    (names.getLast?.getD "").endsWith suffix).length

def pageTrial : Plan := fun dir size => do
  let (ws, inv) ← collectMacros 2 (← setUp dir { size } 3)
  Pages.writeAll (dir / "docs") ws (some inv) (sampleTodos 5)
  let files ← filesBelow (dir / "docs")
  return textItems ((files.filterMap List.getLast?).mergeSort (· ≤ ·))

def projectTrial : Plan := fun dir size => do
  let shape : Sample.Shape := { size, fields := 20, kinds := chainedKinds }
  let (ws, inv) ← collectMacros 1 (← setUp dir shape 2)
  let b : Build := { session := ← get, dir := dir / "dbt_out", interactive := false }
  let (_, b) ← CommandLine.workIn b (Work.generate dir ws (some inv))
  let (verdict, _) ← CommandLine.workIn b (Work.compile .absent)
  return .list [count b.written.length, count b.macros.length, count b.tests.length,
    count b.todos.length, .bool (verdict matches .passed _ _)]

def commandTrial : Plan := fun dir size => do
  let _ ← setUp dir { size, kinds := chainedKinds } 2
  writeText (dir / "broken.yxmd") "<AlteryxDocument><Nodes>"
  let whole : CommandLine.Options :=
    { path := dir.toString, recursive := true, silent := true, validate := true
      output := some (dir / "docs_out").toString, project := some (dir / "dbt_out").toString }
  let codes ← [whole, { whole with path := (dir / "broken.yxmd").toString },
      { whole with path := (dir / "absent").toString }].mapM (CommandLine.analyze dir .absent)
  return .list [.list (codes.map count), ← countFiles (dir / "docs_out") ".md",
    ← countFiles (dir / "dbt_out") ".sql"]

end Replatform.Trial
