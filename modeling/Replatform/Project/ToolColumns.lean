import Replatform.Project.Build
import Replatform.Project.Query
import Replatform.Workflow.Basic
/-!
# Columns

The columns that a tool mentions in its details, and the columns that leave a tool, which follow
from those that enter it.

Tools that read each other in a circle have no columns to begin with. A tool that is asked for while
its own columns are sought gives none, and a warning is printed.
-/

namespace Replatform.Project

/-- Whether a field is renamed: it has the word `AS` between spaces, in capitals or not. -/
def isRenamed (field : String) : Bool := Text.has " AS ".toList (Text.upper field.toList)

/-- The pieces of a field between the word `AS` in capitals, without blanks around them. -/
def renamePieces (field : String) : List String :=
  (Text.splitOn " AS ".toList field.toList).map fun p => String.ofList (Text.strip p)

/-- The text without quotes at its ends. -/
def withoutQuotes (s : List Char) : List Char := Text.trimWhile (· == '\x22') s

def keptColumn (field : String) : String :=
  let front := if isRenamed field then (renamePieces field).headD "" else field
  String.ofList (withoutQuotes (Text.strip front.toList))

/-- Adds a text that is not empty and not there yet. -/
def addNew (known : List String) (s : String) : List String :=
  if s.isEmpty || known.contains s then known else known ++ [s]

/-- Adds the field that is added up and the name of the sum. -/
def addSummary (known : List String) (s : Summary) : List String :=
  let field := s.field.getD ""
  let known := if field = "*" then known else addNew known field
  addNew known (s.output.getD field)

/-- The fields that formulas compute. -/
def formulaFields (t : Tool) : List String :=
  (t.settingRecords "formulas").map fun f => (fieldText? f "field").getD ""

def mentionedColumns (t : Tool) : List String :=
  let kept := (t.selected.map keptColumn).filter fun c => !c.isEmpty && c != "*"
  let grouped := kept ++ t.groupBy.filter (!kept.contains ·)
  let summed := t.summaries.foldl addSummary grouped
  let keys := t.joinKeys.flatMap fun k =>
    (Text.splitOn ['='] k.toList).map fun p => String.ofList (Text.strip p)
  let joined := keys.foldl addNew summed
  let computed := (formulaFields t).foldl addNew joined
  match filled t.query with
  | some query => computed ++ (queryColumns query).filter (!computed.contains ·)
  | none => computed

/-- What follows the first occurrence of the word `AS` between spaces, in capitals or not. The place
is counted in the text in capitals. -/
def aliasOf (field : String) : String :=
  let place := (Text.find? " AS ".toList (Text.upper field.toList)).getD 0
  String.ofList (Text.strip (field.toList.drop (place + 4)))

/-- The columns that leave a tool, by its kind and the columns that enter it. -/
def leavingColumns (t : Tool) (entering : List String) : List String :=
  match t.category, t.name with
  | .input, _ => mentionedColumns t
  | _, "Select" =>
    if t.selected.isEmpty then entering
    else t.selected.map fun f => if isRenamed f then aliasOf f else f
  | _, "Formula" | _, "Multi-Field Formula" => (formulaFields t).foldl addNew entering
  | _, "Summarize" =>
    t.summaries.foldl (fun known s => addNew known (s.output.getD (s.field.getD ""))) t.groupBy
  | _, "Filter" | _, "Sort" | _, "Join" | _, "Union" => entering
  | _, _ => if entering.isEmpty then mentionedColumns t else entering

/-- The warning for a tool that depends on itself. -/
def circleWarning (t : Tool) : String :=
  "Warning: Circular dependency detected at tool #" ++ toString t.id ++ " (" ++ t.name ++ ")"

/-- The columns of tools that are known, and the tools whose columns are being sought. -/
structure Search where
  known : List (Int × List String)
  visiting : List Int
  warnings : List String
deriving Repr

/-- The columns that leave a tool. Each step upstream begins with another tool, so as many steps as
there are tools suffice. -/
def searchColumns (w : Workflow) : Nat → Search → Tool → List String × Search
  | 0, s, _ => ([], s)
  | fuel + 1, s, t =>
    match s.known.lookup t.id with
    | some columns => (columns, s)
    | none =>
      if s.visiting.contains t.id then ([], { s with warnings := s.warnings ++ [circleWarning t] })
      else
        let (entering, s) := (w.upstream t.id).foldl
          (fun (columns, s) u =>
            let (more, s) := searchColumns w fuel s u
            (columns ++ more, s))
          (([] : List String), { s with visiting := t.id :: s.visiting })
        let columns := leavingColumns t (distinct entering)
        (columns, { s with known := setField s.known t.id columns })

namespace Work

/-- The columns that leave a tool. They are kept for the next time. -/
def toolColumns (w : Workflow) (t : Tool) : Work (List String) := do
  let b ← get
  let (columns, s) := searchColumns w (w.tools.length + 1) ⟨b.columns, [], []⟩ t
  s.warnings.forM say
  modify fun b => { b with columns := s.known }
  return columns

/-- Adds the columns that leave a tool to those that are there and do not have them. -/
def addColumns (w : Workflow) (all : List String) (u : Tool) : Work (List String) := do
  return all ++ (← toolColumns w u).filter (!all.contains ·)

/-- The columns that enter a tool, each once. -/
def enteringColumns (w : Workflow) (t : Tool) : Work (List String) :=
  (w.upstream t.id).foldlM (addColumns w) []

end Work

end Replatform.Project
