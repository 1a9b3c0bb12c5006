import Replatform.Catalog.Sketch
import Replatform.Catalog.SumFunction
import Replatform.Formula.Convert
import Replatform.Workflow.Tool
/-!
# Hints

How the work of a tool could be written on the new platform. Where a project macro stands for the
tool, the hint is its call; otherwise it is SQL from the details of the tool, as far as they are
known, and the sketch of the kind of tool where they are not.
-/

namespace Replatform.Lineage

open Catalog

/-- The SQL for a sum. -/
def hintSummary (s : Summary) : String :=
  let field := s.field.getD "*"
  sumCall (s.action.getD "COUNT") field ++ " AS " ++ s.output.getD field

/-- A pair of fields that a join compares, if the key names two. -/
def hintKey (key : String) : Option String :=
  match Text.splitOn ['='] key.toList with
  | [left, right] =>
    some ("left_table." ++ String.ofList (Text.strip left) ++ " = right_table."
      ++ String.ofList (Text.strip right))
  | _ => none

/-- An expression in SQL; no expression stays none. -/
def hintExpression (e : String) : String := if e.isEmpty then e else (Formula.convert e).sql

def hintFormula (fields : List (String × Value)) : String :=
  "  " ++ hintExpression ((fieldText? fields "expression").getD "") ++ " AS "
    ++ (fieldText? fields "field").getD "new_field"

/-- The SQL for a summary. -/
def hintSummaries (t : Tool) : String :=
  String.intercalate "\n"
    ((if t.summaries.isEmpty then [] else
        ["SELECT " ++ String.intercalate ", " (t.summaries.map hintSummary)])
      ++ if t.groupBy.isEmpty then [] else ["GROUP BY " ++ String.intercalate ", " t.groupBy])

/-- SQL from the details of a tool, if they are known. -/
def hintDetails (t : Tool) : Option String :=
  match t.category, t.name with
  | .input, _ =>
    match filled t.table, filled t.sourcePath with
    | some table, _ => some (jinja ("source('schema', '" ++ table ++ "')"))
    | none, some path =>
      some ("-- External file: " ++ path ++ "\n-- Consider loading to staging table")
    | none, none => none
  | _, "Filter" => (filled t.expression).map fun e => "WHERE " ++ hintExpression e
  | _, "Formula" | _, "Multi-Field Formula" =>
    match t.settingRecords "formulas" with
    | [] => none
    | formulas => some ("SELECT\n" ++ String.intercalate ",\n" (formulas.map hintFormula))
  | _, "Join" =>
    if t.joinKeys.isEmpty then none
    else some ((filled t.joinKind).getD "LEFT" ++ " JOIN right_table ON "
      ++ String.intercalate " AND " (t.joinKeys.filterMap hintKey))
  | _, "Summarize" => some (hintSummaries t)
  | _, "Union" => some "UNION ALL\n-- Stack multiple inputs"
  | _, "Select" =>
    if t.selected.isEmpty then none
    else some ("SELECT " ++ String.intercalate ", " (t.selected.take 10))
  | _, _ => none

/-- The hint for a tool; `macros` is whether project macros are at hand. -/
def hint (macros : Bool) (t : Tool) : String :=
  let sketch := sketchOf t.name
  match if macros then sketch.macroOf else none with
  | some (name, file) =>
    "-- Using macro: " ++ name ++ " (from " ++ file ++ ".sql)\n" ++ sketch.expression
  | none => (hintDetails t).getD sketch.sql

end Replatform.Lineage
