import Replatform.Path
import Replatform.Project.Name
import Replatform.Workflow.Basic
/-!
# The page of the layers

The models that all workflows suggest, layer by layer: sources in alphabetical order, the tools of
the middle layer by their kinds, and the results.
-/

namespace Replatform.Pages

open Project Text

/-- A source as it is listed: name, name for readers, workflow. -/
abbrev SourceRow := String × String × String

def SourceRow.le (a b : SourceRow) : Bool := Text.leRow [a.1, a.2.1, a.2.2] [b.1, b.2.1, b.2.2]

/-- The row of a tool of the first layer, if it names its source. -/
def sourceRow? (workflow : String) (t : Tool) : Option SourceRow :=
  let name := (filled t.table).or ((filled t.sourcePath).map fun p => (Path.ofString p).stem)
  name.map fun n => (n, t.displayName, workflow)

/-- The sources of all workflows, each once, in order. -/
def sourceRows (ws : List Workflow) : List SourceRow :=
  let rows := ws.flatMap fun w => (w.inLayer .bronze).filterMap (sourceRow? w.metadata.name)
  rows.eraseDups.mergeSort SourceRow.le

/-- The tools of a layer of all workflows, with the names of their workflows. -/
def toolsIn (layer : Layer) (ws : List Workflow) : List (Tool × String) :=
  ws.flatMap fun w => (w.inLayer layer).map fun t => (t, w.metadata.name)

/-- Items by a key, in the order in which the keys came. -/
def groupBy {α : Type} (key : α → String) (items : List α) : List (String × List α) :=
  items.foldl (fun groups x =>
    setField groups (key x) ((groups.lookup (key x)).getD [] ++ [x])) []

/-- The tools of a kind, the first five by name. -/
def kindSection (kind : String) (tools : List (Tool × String)) : List String :=
  ["### " ++ kind ++ " Operations", ""]
  ++ (tools.take 5).map (fun (t, w) => "- `int_" ++ proposedName t.displayName ++ "` (" ++ w ++ ")")
  ++ (if 5 < tools.length then ["- *...and " ++ toString (tools.length - 5) ++ " more*"] else [])
  ++ [""]

/-- A row of the table of results. -/
def resultLine (t : Tool) (workflow : String) : String :=
  "| `" ++ (if t.name = "Summarize" then "fct_" else "dim_") ++ proposedName t.displayName ++ "` | "
    ++ t.displayName ++ " | " ++ workflow ++ " |"

def layersPage (ws : List Workflow) : String :=
  lines <|
    ["# Medallion Architecture Mapping", "",
     "Suggested DBT model organization following the medallion pattern.", "",
     "## Architecture Overview", "",
     "```",
     "Bronze (Staging)     Silver (Intermediate)     Gold (Marts)",
     "----------------     --------------------     ------------",
     "stg_*                int_*                    fct_* / dim_*",
     "                                              ",
     "Raw data from        Cleaned, joined,         Business-ready",
     "sources              transformed data         aggregations",
     "```", "",
     "## Bronze Layer (Staging Models)", "",
     "Create staging models for each data source:", "",
     "| Suggested Model | Source | Workflow |",
     "|-----------------|--------|----------|"]
    ++ (sourceRows ws).map (fun (name, shown, w) =>
        "| `stg_" ++ proposedName name ++ "` | " ++ shown ++ " | " ++ w ++ " |")
    ++ ["",
     "## Silver Layer (Intermediate Models)", "",
     "Key transformations to implement as intermediate models:", ""]
    ++ (groupBy (fun p => p.1.name) (toolsIn .silver ws)).flatMap (fun (kind, ts) =>
        kindSection kind ts)
    ++ ["## Gold Layer (Marts)", "",
     "Final output models:", "",
     "| Suggested Model | Output | Workflow |",
     "|-----------------|--------|----------|"]
    ++ (toolsIn .gold ws).map (fun (t, w) => resultLine t w)
    ++ ["",
     "## Recommended DBT Project Structure", "",
     "```",
     "models/",
     "├── staging/           # Bronze layer",
     "│   ├── _staging.yml   # Source definitions",
     "│   └── stg_*.sql",
     "├── intermediate/      # Silver layer",
     "│   └── int_*.sql",
     "└── marts/             # Gold layer",
     "    ├── core/",
     "    │   └── fct_*.sql",
     "    └── dimensions/",
     "        └── dim_*.sql",
     "```", "",
     "---", "",
     "[Back to Index](index.md)"]

end Replatform.Pages
