import Replatform.Lineage.Inventory
import Replatform.Lineage.Step
import Replatform.Pages.Diagram
import Replatform.Path
import Replatform.Project.Name
/-!
# The page of a workflow

What a workflow is, what it reads and writes, what it does step by step, the models that it
suggests, and hints for writing them.
-/

namespace Replatform.Pages

open Lineage Project Text

/-- A name for the model of a tool. -/
def suggestedName (t : Tool) (layer : Layer) : String :=
  let base := match filled t.sourcePath, filled t.targetPath with
    | some path, _ | none, some path => (Path.ofString path).stem
    | none, none => ((filled t.table).or (filled t.annotation)).getD t.name
  let front := match layer with
    | .bronze => "stg_"
    | .silver => "int_"
    | .gold => if t.name = "Summarize" then "fct_" else "dim_"
  front ++ proposedName base

/-- A line on a detail that is known. -/
def overviewLine (title : String) (text : Option String) : List String :=
  ((filled text).map fun s => "- **" ++ title ++ "**: " ++ s).toList

def overview (w : Workflow) : List String :=
  ["# " ++ w.metadata.name, "", "## Overview", "", "- **File**: `" ++ w.metadata.path ++ "`"]
  ++ overviewLine "Alteryx Version" w.metadata.version
  ++ overviewLine "Description" w.metadata.description
  ++ overviewLine "Author" w.metadata.author
  ++ ["- **Total Tools**: " ++ toString w.tools.length,
      "- **Data Sources**: " ++ toString w.sources.length,
      "- **Outputs**: " ++ toString w.targets.length,
      "- **Macros Used**: " ++ toString w.macros.length, ""]

/-- A row of the table of sources or targets. -/
def placeLine (e : Endpoint) : String :=
  let path := match filled e.connection with
    | some connection => connection ++ " / " ++ e.place
    | none => e.place
  "| " ++ e.name ++ " | " ++ e.kind ++ " | `" ++ path ++ "` |"

/-- A table of sources or targets, or a line that there are none. -/
def placeTable (title : String) (rows : List String) (empty : String) : List String :=
  if rows.isEmpty then [empty]
  else
    ["| " ++ title ++ " | Type | Path/Connection |", "|--------|------|-----------------|"] ++ rows

/-- The sources and targets. -/
def places (w : Workflow) : List String :=
  ["## Data Sources", ""]
  ++ placeTable "Source" (w.sourceInventory.map fun e => placeLine e.toEndpoint)
    "*No data sources found*"
  ++ ["", "## Output Targets", ""]
  ++ placeTable "Target" (w.targetInventory.map placeLine)
    "*No output targets found*"
  ++ [""]

def stepLines (s : Step) : List String :=
  [toString s.number ++ ". **" ++ s.tool.displayName ++ "** (Tool #" ++ toString s.tool.id ++ ")",
   "   - " ++ s.description]
  ++ ((filled s.tool.expression).map fun e => "   - Expression: `" ++ clip 100 e ++ "`").toList
  ++ [""]

/-- The macros, and which of them are missing. -/
def macroSection (w : Workflow) : List String :=
  if w.macros.isEmpty then []
  else
    ["## Macros Used", ""]
    ++ w.macros.map (fun m =>
        "- `" ++ m ++ "` - " ++ if w.missing.contains m then "**MISSING**" else "Found")
    ++ [""]

/-- The models that a workflow suggests in a layer, at most `limit` of them if there is a limit. -/
def layerSection (w : Workflow) (layer : Layer) (title : String) (limit : Option Nat) :
    List String :=
  let tools := w.inLayer layer
  let shown := match limit with
    | some n => tools.take n
    | none => tools
  let more := tools.length - shown.length
  if tools.isEmpty then []
  else
    ["### " ++ title, ""]
    ++ shown.map (fun t => "- `" ++ suggestedName t layer ++ "` - " ++ t.displayName)
    ++ (if more = 0 then [] else ["- *...and " ++ toString more ++ " more transformations*"])
    ++ [""]

/-- The hint that says nothing. -/
def emptyHint : String := "-- Custom logic required"

/-- The hint of a step, if it says something. -/
def hintLines (s : Step) : List String :=
  if s.hint.isEmpty || s.hint = emptyHint then []
  else
    ["### Tool #" ++ toString s.tool.id ++ ": " ++ s.tool.displayName, "", "```sql", s.hint, "```",
     ""]

def workflowPage (w : Workflow) : Except Failure String := do
  let steps ← w.steps true
  return lines <|
    overview w
    ++ ["## Data Flow Diagram", "", "```mermaid", diagram w, "```", ""]
    ++ places w
    ++ ["## Transformation Steps", ""]
    ++ steps.flatMap stepLines
    ++ macroSection w
    ++ ["## Suggested DBT Structure", ""]
    ++ layerSection w .bronze "Bronze Layer (Staging)" none
    ++ layerSection w .silver "Silver Layer (Intermediate)" (some 10)
    ++ layerSection w .gold "Gold Layer (Marts)" none
    ++ ["## Trino SQL Translation Hints", "",
        "Key transformations with Trino SQL equivalents (for Starburst):", ""]
    ++ steps.flatMap hintLines
    ++ ["---", "", "[Back to Index](../index.md)"]

end Replatform.Pages
