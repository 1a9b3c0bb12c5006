import Replatform.Pages.Layers
import Replatform.Project.Settings
/-!
# The guide to what is to be done

The items that a project leaves to a developer: how many there are of each kind, those of high
priority in full, and all items of the layers by model, with advice.
-/

namespace Replatform.Pages

open Project Text

/-- What items of a kind ask for. -/
def kindDescription (kind : String) : String :=
  match kind with
  | "specify_columns" => "Replace SELECT * with explicit column lists"
  | "implement_transformation" => "Implement custom transformation logic"
  | "review_expression" => "Review and validate converted expression"
  | _ => String.ofList (title (kind.toList.map fun c => if c = '_' then ' ' else c))

/-- How many items have a priority. -/
def countOf (priority : String) (todos : List Todo) : Nat :=
  (todos.filter (·.priority == priority)).length

/-- An item of high priority. -/
def urgentLines (number : Nat) (t : Todo) : List String :=
  ["### " ++ toString number ++ ". " ++ t.description, "",
   "- **File**: `" ++ t.file ++ "`",
   "- **Model**: `" ++ t.model ++ "`",
   "- **Layer**: " ++ t.layer,
   "- **Type**: " ++ t.kind]
  ++ (if t.context.isEmpty then [] else ["- **Context**: " ++ t.context])
  ++ [""]

/-- The items of high priority. -/
def urgentSection (todos : List Todo) : List String :=
  let urgent := todos.filter (·.priority == "high")
  if urgent.isEmpty then []
  else
    ["## High Priority Items", "",
     "These items should be addressed first as they may cause errors or incorrect results.", ""]
    ++ urgent.zipIdx.flatMap fun (t, i) => urgentLines (i + 1) t

/-- The layers of the guide, with their titles. -/
def guideLayers : List (String × String) :=
  [("bronze", "Bronze Layer (Staging)"), ("silver", "Silver Layer (Intermediate)"),
   ("gold", "Gold Layer (Marts)"), ("macro", "Macros")]

/-- An item in the list of its model. -/
def itemLines (t : Todo) : List String :=
  ("- " ++ (if t.priority = "high" then "[!]" else "[ ]") ++ " " ++ t.description)
    :: if t.context.isEmpty then [] else ["  - Context: " ++ t.context]

def modelLines (model : String) (todos : List Todo) : List String :=
  ["#### `" ++ model ++ "`", "File: `" ++ ((todos.head?.map (·.file)).getD "") ++ "`", ""]
  ++ todos.flatMap itemLines ++ [""]

/-- The items of a layer by model, if there are any. -/
def guideSection (todos : List Todo) (layer title : String) : List String :=
  let items := todos.filter (·.layer == layer)
  if items.isEmpty then []
  else
    ["### " ++ title, "", "**" ++ toString items.length ++ " items to complete:**", ""]
    ++ (byName (groupBy (·.model) items)).flatMap fun (model, ts) => modelLines model ts

/-- How to do what the items ask for. -/
def advice : List String :=
  ["## How to Complete TODOs", "",
   "### Specify Columns", "",
   "When you see `SELECT *` with a TODO comment, replace it with explicit columns:", "",
   "```sql",
   "-- Before:",
   "select *",
   "/* TODO: specify columns */",
   "from \x7b\x7b ref('stg_source') \x7d\x7d", "",
   "-- After:",
   "select",
   "    \"column_1\",",
   "    \"column_2\",",
   "    \"column_3\"",
   "from \x7b\x7b ref('stg_source') \x7d\x7d",
   "```", "",
   "### Implement Transformation", "",
   "When you see a TODO to implement transformation logic, review the original Alteryx workflow",
   "and translate the logic to Trino SQL:", "",
   "```sql",
   "-- Before:",
   "-- TODO: Implement CustomTool transformation",
   "select * from source", "",
   "-- After:",
   "select",
   "    \"id\",",
   "    upper(\"name\") as \"name_upper\",",
   "    case when \"status\" = 1 then 'Active' else 'Inactive' end as \"status_text\"",
   "from source",
   "```", "",
   "---", "",
   "[Back to Index](index.md)"]

/-- The lines before the first chapter. -/
def openingLines : List String :=
  ["# Developer TODO Guide", "",
   "This guide lists all TODO items that need to be addressed in the generated DBT scaffold.",
   "Complete these items to finalize the migration from Alteryx to DBT/Starburst.", ""]

/-- The lines behind the count of all items. -/
def trackerLines (todos : List Todo) : List String :=
  ["- **High Priority**: " ++ toString (countOf "high" todos),
   "- **Medium Priority**: " ++ toString (countOf "medium" todos),
   "- **Low Priority**: " ++ toString (countOf "low" todos), "",
   "## Progress Tracker", "",
   "Use this checklist to track your progress:", "",
   "| Type | Count | Description |",
   "|------|-------|-------------|"]
  ++ ((byName (countKinds todos)).map (fun x =>
      "| " ++ x.1 ++ " | " ++ toString x.2 ++ " | " ++ kindDescription x.1 ++ " |")
    ++ [""])

/-- How many items there are, and of which kinds. -/
def guideSummary (todos : List Todo) : List String :=
  openingLines ++ "## Summary" :: "" :: ("- **Total TODOs**: " ++ toString todos.length)
    :: trackerLines todos

def layerLines : List String :=
  ["",
   "Work through the TODO items layer by layer, starting with Bronze (closest to source data).", ""]

def guideLines (todos : List Todo) : List String :=
  guideSummary todos
  ++ urgentSection todos
  ++ "## Layer-by-Layer Guide" :: layerLines
  ++ guideLayers.flatMap (fun (layer, title) => guideSection todos layer title)
  ++ advice

def todoGuide (todos : List Todo) : String := lines (guideLines todos)

end Replatform.Pages
