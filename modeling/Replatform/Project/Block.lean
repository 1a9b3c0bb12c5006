import Replatform.Catalog.SumFunction
import Replatform.Project.ToolColumns
/-!
# Blocks of a query

A block gives a name to one step of a query: it selects from the block before it. In a converted
macro a block passes on all columns; in a model it lists the columns that are known to enter its
tool.
-/

namespace Replatform.Project

open Text (lines)

/-- A named block around lines, with what closes it. -/
def block (name : String) (body : List String) (closing : String) : String :=
  lines ((name ++ " as (") :: body ++ [closing])

def toolComment (t : Tool) : String := "    -- " ++ t.name ++ ": " ++ t.annotation.getD ""

/-- The comment on a tool whose work is still to be written. -/
def openComment (t : Tool) : String := toolComment t ++ " (TODO: implement)"

/-- All columns, with a note. -/
def allColumns : String := "* /* TODO: specify columns */"

/-- The columns, or all if none are known. -/
def columnsOrAll (columns : List String) : String :=
  if columns.isEmpty then allColumns else formatColumns columns

/-- How blocks are written: the lines that select what enters them, the columns that stand before
those of formulas, and what closes a block. -/
structure BlockStyle where
  selection : List String
  columns : List String
  closing : String

/-- A kept field as a column, with its new name if it has one. The word that separates the names is
in capitals. -/
def keptField (field : String) : Except Failure String :=
  let column := quoteColumn ((renamePieces field).headD "")
  if isRenamed field then
    match (renamePieces field)[1]? with
    | some new => .ok (column ++ " as " ++ quoteColumn new)
    | none => .error .noItem
  else .ok column

/-- The fields that a tool keeps. -/
def keptFields (t : Tool) : Except Failure String :=
  (t.selected.mapM keptField).map (String.intercalate ",\n        ")

/-- A field to sort by, with the direction. -/
def sortField (fields : List (String × Value)) : Except Failure (String × String) :=
  let direction :=
    if (fieldText? fields "order").getD "Ascending" = "Ascending" then "asc" else "desc"
  match fieldText? fields "field" with
  | some field => .ok (field, direction)
  | none => .error (.noEntry "field")

/-- The order that a tool asks for. -/
def sortClause (t : Tool) : Except Failure String := do
  let fields ← (t.settingRecords "sort_fields").mapM sortField
  return String.intercalate ", " (fields.map fun (f, d) => quoteColumn f ++ " " ++ d)

def sumColumn (s : Summary) : String :=
  let field := s.field.getD "*"
  Catalog.sumCall (s.action.getD "COUNT") (if field = "*" then field else quoteColumn field)
    ++ " as " ++ quoteColumn (s.output.getD field)

/-- The groups of a summary, or the word for a single one. -/
def groupClause (t : Tool) : String :=
  if t.groupBy.isEmpty then "1" else String.intercalate ", " (t.groupBy.map quoteColumn)

/-- Columns one on a line, the first on a line of its own. -/
def spreadColumns (columns : List String) : String :=
  "        " ++ String.intercalate "," (columns.map ("\n        " ++ ·))

/-- A fact that turns into an error of the work. -/
def Work.check {α : Type} : Except Failure α → Work α
  | .ok a => return a
  | .error e => throw e

namespace Work

/-- The columns that formulas compute. -/
def formulaColumns (t : Tool) : Work (List String) :=
  (t.settingRecords "formulas").mapM fun f => do
    let sql ← convertExpression ((fieldText? f "expression").getD "NULL")
    return sql ++ " as " ++ quoteColumn ((fieldText? f "field").getD "new_field")

def condition (t : Tool) : Work String := convertExpression ((filled t.expression).getD "1=1")

/-- Notes that an order has to be repeated at the end of a query. -/
def noteOrder (order : String) : Work Unit :=
  addTodo "add_order_by" "Add ORDER BY to final SELECT to guarantee sort order"
    ("ORDER BY " ++ order) "medium"

/-- The comments on an order that a block cannot keep. -/
def orderComments (t : Tool) (order : String) : List String :=
  [toolComment t,
   "    -- IMPORTANT: SQL does not guarantee ordering from CTEs!",
   "    -- Add this ORDER BY clause to your final SELECT statement:",
   "    -- ORDER BY " ++ order]

/-- The block of a tool, which reads from `source`. -/
def stepBlock (style : BlockStyle) (t : Tool) (source name : String) : Work String := do
  let fromSource := "    from " ++ source
  let standard := block name (openComment t :: style.selection ++ [fromSource]) style.closing
  match t.name with
  | "Filter" =>
    let sql ← condition t
    return block name (toolComment t :: style.selection ++ [fromSource, "    where " ++ sql])
      style.closing
  | "Formula" | "Multi-Field Formula" =>
    if (t.settingRecords "formulas").isEmpty then return standard
    else
      let columns := style.columns ++ (← formulaColumns t)
      return block name [toolComment t, "    select", spreadColumns columns, fromSource]
        style.closing
  | "Select" =>
    if t.selected.isEmpty then return standard
    else
      let fields ← check (keptFields t)
      return block name [toolComment t, "    select", "        " ++ fields, fromSource]
        style.closing
  | "Sort" =>
    if (t.settingRecords "sort_fields").isEmpty then return standard
    else
      let order ← check (sortClause t)
      noteOrder order
      return block name (orderComments t order ++ style.selection ++ [fromSource]) style.closing
  | _ => return standard

/-- The block of a step of a macro. -/
def macroBlock (t : Tool) (source name : String) : Work String :=
  match t.name with
  | "Summarize" =>
    let columns := t.groupBy.map quoteColumn ++ t.summaries.map sumColumn
    let clause := if columns.isEmpty then "count(*) as record_count"
      else String.intercalate ",\n        " columns
    return block name [toolComment t, "    select", "        " ++ clause, "    from " ++ source,
      "    group by " ++ groupClause t] ")"
  | _ => stepBlock ⟨["    select *"], ["*"], ")"⟩ t source name

/-- The block of a tool in a chain. -/
def toolBlock (w : Workflow) (t : Tool) (source name : String) : Work String := do
  let entering ← enteringColumns w t
  let columns := if entering.isEmpty then [allColumns] else entering.map quoteColumn
  stepBlock ⟨["    select", "        " ++ columnsOrAll entering], columns, "),"⟩ t source name

/-- The name of the block at a place in a chain of `count`. -/
def blockName (count i : Nat) : String :=
  if i + 1 < count then "step_" ++ toString (i + 1) else "final"

/-- The name of the block that the first tool behind `count` models reads from. -/
def sourceBlock (count : Nat) : String := if count ≤ 1 then "source" else "source_1"

/-- The blocks of tools, each of which reads from the one before. -/
def stepBlocks (write : Tool → String → String → Work String) (count : Nat) :
    Nat → String → List Tool → Work (List String)
  | _, _, [] => return []
  | i, previous, t :: ts => do
    let name := blockName count i
    let first ← write t previous name
    return first :: (← stepBlocks write count (i + 1) name ts)

/-- The selection from the last block: the columns that are known, or all with a note. -/
def finalSelect (columns : List String) : String :=
  if columns.isEmpty then "select *\n/* TODO: specify columns */\nfrom final"
  else "select\n    " ++ formatColumns columns ++ "\nfrom final"

/-- The query of a chain of tools, the first of which has `sources` models before it. -/
def chainQuery (w : Workflow) (chain : List Tool) (sources : Nat) : Work String := do
  let blocks ← stepBlocks (toolBlock w) chain.length 0 (sourceBlock sources) chain
  match chain.getLast? with
  | none => throw .noItem
  | some last =>
    let columns ← toolColumns w last
    return String.intercalate "\n\n" (blocks ++ [finalSelect columns])

end Work

end Replatform.Project
