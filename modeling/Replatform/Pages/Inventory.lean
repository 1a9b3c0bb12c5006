import Replatform.Lineage.Inventory
import Replatform.Macro.Inventory
/-!
# Inventories over all workflows

The sources, the targets and the macros of all workflows, each with the workflows that use it.
Sources and targets are the same if their kinds and places are.
-/

namespace Replatform.Pages

open Lineage Text

/-- A source or target, and the workflows that have it. -/
structure Use where
  name : String
  kind : String
  place : String
  workflows : List String
deriving DecidableEq, Repr

/-- Adds a use by a workflow. The name is the one that came first. -/
def addUse (uses : List (String × Use)) (u : Use) : List (String × Use) :=
  let key := u.kind ++ "|" ++ u.place
  match uses.lookup key with
  | some old => setField uses key { old with workflows := old.workflows ++ u.workflows }
  | none => uses ++ [(key, u)]

/-- The uses in all workflows, each place once. -/
def usesOf (entries : Workflow → List Endpoint) (ws : List Workflow) : List Use :=
  ((ws.flatMap fun w => (entries w).map fun e =>
    (⟨e.name, e.kind, e.place, [w.metadata.name]⟩ : Use)).foldl addUse []).map (·.2)

/-- The first three of some workflows, and how many more there are. -/
def someOf (workflows : List String) : String :=
  String.intercalate ", " (workflows.take 3)
    ++ if 3 < workflows.length then " (+" ++ toString (workflows.length - 3) ++ ")" else ""

/-- A row of the table. -/
def Use.line (u : Use) : String :=
  "| " ++ u.name ++ " | " ++ u.kind ++ " | `" ++ u.place ++ "` | " ++ someOf u.workflows ++ " |"

def usePage (title subject column total : String) (uses : List Use) : String :=
  lines <|
    ["# " ++ title ++ " Inventory", "",
     "Complete inventory of all " ++ subject ++ " across workflows.", "",
     "| " ++ column ++ " | Type | Path/Connection | Used In |",
     "|--------|------|-----------------|---------|"]
    ++ uses.map Use.line
    ++ ["",
     "**Total Unique " ++ total ++ "**: " ++ toString uses.length, "",
     "---", "",
     "[Back to Index](index.md)"]

def sourcesPage (ws : List Workflow) : String :=
  usePage "Data Sources" "data sources" "Source" "Sources"
    (usesOf (fun w => w.sourceInventory.map (·.toEndpoint)) ws)

def targetsPage (ws : List Workflow) : String :=
  usePage "Output Targets" "output targets" "Target" "Targets"
    (usesOf Workflow.targetInventory ws)

/-- The macros that were not found. -/
def missingSection (inv : MacroInventory) : List String :=
  if inv.missing.isEmpty then []
  else
    ["## Missing Macros", "", "These macros could not be found and need to be located:", ""]
    ++ inv.missing.flatMap fun m =>
      ["- **" ++ m.name ++ "**",
       "  - Original path: `" ++ m.path ++ "`",
       "  - Used in: " ++ String.intercalate ", " (inv.usersOf m.name), ""]

/-- A row of the table of macros. -/
def foundLine (inv : MacroInventory) (m : MacroInfo) : String :=
  "| " ++ m.name ++ " | `" ++ m.place.getD "None" ++ "` | " ++ toString m.inputs.length ++ " | "
    ++ toString m.outputs.length ++ " | " ++ someOf (inv.usersOf m.name) ++ " |"

def foundSection (inv : MacroInventory) : List String :=
  let found := inv.infos.filter (·.found)
  if found.isEmpty then []
  else
    ["## Found Macros", "",
     "| Macro | Path | Inputs | Outputs | Used In |",
     "|-------|------|--------|---------|---------|"]
    ++ found.map (foundLine inv) ++ [""]

/-- A macro with those that use it. -/
def sharedLines (inv : MacroInventory) (m : MacroInfo) : List String :=
  let users := inv.usersOf m.name
  ("- **" ++ m.name ++ "** - used by " ++ toString users.length ++ " workflows")
    :: (users.take 5).map ("  - " ++ ·)
    ++ (if 5 < users.length then ["  - *...and " ++ toString (users.length - 5) ++ " more*"]
        else [])
    ++ [""]

/-- The macros with several uses. -/
def sharedSection (inv : MacroInventory) : List String :=
  if inv.shared.isEmpty then []
  else
    ["## Shared Macros", "",
     "Macros used by multiple workflows (candidates for DBT macros):", ""]
    ++ inv.shared.flatMap (sharedLines inv)

def macrosPage (inv : MacroInventory) : String :=
  let s := inv.summary
  lines <|
    ["# Macro Inventory", "",
     "## Summary", "",
     "- **Total Macros**: " ++ toString s.total,
     "- **Found**: " ++ toString s.found,
     "- **Missing**: " ++ toString s.missing,
     "- **Shared (used by multiple workflows)**: " ++ toString s.shared, ""]
    ++ missingSection inv ++ foundSection inv ++ sharedSection inv
    ++ ["---", "", "[Back to Index](index.md)"]

end Replatform.Pages
