import Replatform.Pages.Inventory
import Replatform.Pages.TodoGuide
import Replatform.Pages.WorkflowPage
/-!
# Writing the pages

An index with links to all pages, the page of each workflow, the inventories, the layers, and the
guide to what is to be done, if anything is.
-/

namespace Replatform.Pages

open Project Text

/-- How many macros there are in all. -/
def macroCount (ws : List Workflow) : Nat := (ws.flatMap (·.macros)).eraseDups.length

/-- The sum over all workflows. -/
def total (f : Workflow → Nat) (ws : List Workflow) : Nat := ws.foldl (fun n w => n + f w) 0

/-- A row of the table of workflows. -/
def indexLine (w : Workflow) : String :=
  "| [" ++ w.metadata.name ++ "](workflows/" ++ w.metadata.name ++ ".md) | "
    ++ clip 50 (w.metadata.description.getD "") ++ " | " ++ toString w.sources.length ++ " | "
    ++ toString w.targets.length ++ " | " ++ toString w.tools.length ++ " | "
    ++ toString w.macros.length ++ " |"

/-- The link to the guide, if anything is to be done. -/
def guideLink (todos : List Todo) : List String :=
  if todos.isEmpty then []
  else ["- [**Developer TODO Guide**](todo_guide.md) - " ++ toString todos.length ++ " items ("
    ++ toString (countOf "high" todos) ++ " high priority)"]

/-- The page that leads to the others. -/
def indexPage (ws : List Workflow) (todos : List Todo) (now : Moment) : String :=
  lines <|
    ["# Alteryx to Starburst Migration Documentation", "",
     "*Generated: " ++ now.write ++ "*", "",
     "**Target Platform**: Starburst (Trino-based) with dbt", "",
     "## Overview", "",
     "- **Total Workflows**: " ++ toString ws.length,
     "- **Total Data Sources**: " ++ toString (total (·.sources.length) ws),
     "- **Total Outputs**: " ++ toString (total (·.targets.length) ws),
     "- **Total Tools/Nodes**: " ++ toString (total (·.tools.length) ws),
     "- **Unique Macros**: " ++ toString (macroCount ws), "",
     "## Workflows", "",
     "| Workflow | Description | Sources | Outputs | Tools | Macros |",
     "|----------|-------------|---------|---------|-------|--------|"]
    ++ ws.map indexLine
    ++ ["",
     "## Quick Links", "",
     "- [All Data Sources](sources.md)",
     "- [All Output Targets](targets.md)",
     "- [Macro Inventory](macros.md)",
     "- [Medallion Architecture Mapping](medallion_mapping.md)"]
    ++ guideLink todos
    ++ ["",
     "---", "",
     "*This documentation was generated to assist with migrating Alteryx ETL workflows to "
       ++ "Starburst (Trino) / dbt ELT architecture with medallion pattern.*"]

/-- Writes a page into a directory, which has to be there. -/
def writePage (dir : Path) (name text : String) : Run Unit :=
  Run.change (·.write (dir / name) (.text text))

/-- Makes the directories of the pages. -/
def makeDirectories (dir : Path) : Run Unit := do
  Run.change (·.makeDirectory dir)
  Run.change (·.makeDirectory (dir / "workflows"))

/-- Writes the page of a workflow. -/
def writeWorkflow (dir : Path) (w : Workflow) : Run Unit := do
  match workflowPage w with
  | .ok text => writePage (dir / "workflows") (w.metadata.name ++ ".md") text
  | .error e => throw e

/-- Writes all pages. -/
def writeAll (dir : Path) (ws : List Workflow) (inv : Option MacroInventory) (todos : List Todo) :
    Run Unit := do
  makeDirectories dir
  writePage dir "index.md" (indexPage ws todos (← get).now)
  ws.forM (writeWorkflow dir)
  writePage dir "sources.md" (sourcesPage ws)
  writePage dir "targets.md" (targetsPage ws)
  match inv with
  | some inv => writePage dir "macros.md" (macrosPage inv)
  | none => pure ()
  writePage dir "medallion_mapping.md" (layersPage ws)
  if !todos.isEmpty then writePage dir "todo_guide.md" (todoGuide todos)
  Run.say ("Documentation generated at: " ++ dir.toString)

end Replatform.Pages
