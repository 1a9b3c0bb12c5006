import Replatform.Catalog.ProjectMacro
import Replatform.Project.Block
import Replatform.Project.Literal
import Replatform.Project.ModelName
/-!
# The work of one tool

The query of a model of one tool, behind the blocks that read its sources. A tool that stands for a
macro calls the converted macro; a tool with a project macro calls that, with arguments from its
details; for any other tool the query is written out.
-/

namespace Replatform.Project

open Text (lines)

open Catalog

/-- The names of several sources. -/
def sourceNames (count : Nat) : List String :=
  (List.range count).map fun i => "source_" ++ toString (i + 1)

def macroNameOf (names : List (String × String)) (t : Tool) : String :=
  let path := t.macroPath.getD ""
  (names.lookup path).getD
    (if path.isEmpty then "unknown_macro" else sanitize (Path.ofString path).stem)

/-- The call of a converted macro for a tool with `count` sources. -/
def macroReference (names : List (String × String)) (t : Tool) (count : Nat) (source : String) :
    String :=
  let name := macroNameOf names t
  let arguments :=
    if 1 < count then
      String.intercalate ", " ((List.range count).map fun i => source ++ "_" ++ toString (i + 1))
    else source
  lines ["-- Macro: " ++ t.displayName,
    "-- Original Alteryx macro: " ++ t.macroPath.getD "",
    "-- Using reusable DBT macro: " ++ name, "",
    jinja (name ++ "(" ++ arguments ++ ")")]

/-- The settings that choose a variant. -/
def variantSettings (t : Tool) : List (String × String) :=
  match t.name with
  | "Join" => [("join_type", (filled t.joinKind).getD "LEFT")]
  | "Sample" =>
    match t.setting? "sample_type" with
    | none => [("sample_type", "first")]
    | some v => (v.text?.map fun s => ("sample_type", s)).toList
  | "RegEx" =>
    match t.setting? "mode" with
    | none => [("operation", "extract")]
    | some v => (v.text?.map fun s => ("operation", s)).toList
  | _ => []

/-- The relations that a macro is called with for `count` sources; none if it needs one and there
is no source. -/
def relationArguments? (m : ProjectMacro) (count : Nat) : Option (List (String × Value)) :=
  if !m.relation then some []
  else match count with
    | 0 => none
    | 1 => some [("relation", .text "source")]
    | n + 2 =>
      if m.rightRelation then
        some [("left_relation", .text "source_1"), ("right_relation", .text "source_2")]
      else if m.manyRelations then
        some [("relations", .list ((sourceNames (n + 2)).map .text))]
      else some [("relation", .text "source_1")]

/-- A pair of fields that a join compares, as an argument. A key without an equals sign names the
field of both sides. -/
def keyArgument (key : String) : Value :=
  let side := fun s => Value.text (String.ofList (Text.strip s))
  match Text.splitOn ['='] key.toList with
  | left :: right :: _ => .record [("left", side left), ("right", side right)]
  | _ => .record [("left", .text key), ("right", .text key)]

def sumArgument (s : Summary) : Value :=
  .record [("column", .text (s.field.getD "*")),
    ("function", .text ((sumFunctions.lookup (s.action.getD "COUNT")).getD "COUNT")),
    ("alias", .text (s.output.getD (s.field.getD "result")))]

/-- A list as an argument, unless it is empty. -/
def listArgument? (xs : List Value) : Option Value := if xs.isEmpty then none else some (.list xs)

namespace Work

def formulaArgument? (t : Tool) : Work (Option Value) := do
  let items ← (t.settingRecords "formulas").mapM fun f => do
    let sql ← convertExpression ((fieldText? f "expression").getD "NULL")
    return Value.record [("name", .text ((fieldText? f "field").getD "new_field")),
      ("expression", .text sql)]
  return listArgument? items

def argument? (w : Workflow) (t : Tool) (detail : String) : Work (Option Value) := do
  match detail with
  | "expression" => return some (.text (← condition t))
  | "formulas" => formulaArgument? t
  | "selected_fields" =>
    let fields ← if t.selected.isEmpty then toolColumns w t else pure t.selected
    return some (.list (fields.map .text))
  | "sort_fields" =>
    let fields ← check ((t.settingRecords "sort_fields").mapM sortField)
    return listArgument? (fields.map fun (f, d) => .text (f ++ " " ++ d))
  | "join_keys" => return listArgument? (t.joinKeys.map keyArgument)
  | "join_type" =>
    return some (.text (String.ofList (Text.upper ((filled t.joinKind).getD "LEFT").toList)))
  | "group_by_fields" => return some (.list (t.groupBy.map .text))
  | "aggregations" => return listArgument? (t.summaries.map sumArgument)
  | other => return t.setting? other

/-- The arguments that the details of a tool give to a macro, behind those of its relations. -/
def detailArguments (w : Workflow) (t : Tool) (relations : List (String × Value))
    (parameters : List (String × String)) : Work (List (String × Value)) :=
  parameters.foldlM (fun arguments (detail, parameter) => do
    match ← argument? w t detail with
    | none | some .null => return arguments
    | some v => return setField arguments parameter v) relations

/-- The call of the project macro of a tool. -/
def macroQuery? (w : Workflow) (t : Tool) (count : Nat) : Work (Option String) := do
  match macroFor? t.name (variantSettings t) with
  | none => return none
  | some m =>
    match relationArguments? m count with
    | none => return none
    | some relations =>
      let arguments ← detailArguments w t relations m.parameters
      return some (macroCall m.name arguments t.displayName)

def finalQuery (body : List String) (selection : String) : String :=
  lines (["final as (", ""] ++ body ++ ["", ")", "", selection])

/-- All that is read from a block: the columns that are known, or all with a note. -/
def readAll (columns : List String) (source : String) : String :=
  if columns.isEmpty then "select *\n/* TODO: specify columns */\nfrom " ++ source
  else "select\n    " ++ formatColumns columns ++ "\nfrom " ++ source

/-- The comparison of a join in SQL; without keys it always holds. -/
def joinCondition (keys : List String) : String :=
  let conditions := keys.filterMap fun key =>
    match Text.splitOn ['='] key.toList with
    | [left, right] =>
      some ("left_source." ++ quoteColumn (String.ofList (Text.strip left)) ++ " = right_source."
        ++ quoteColumn (String.ofList (Text.strip right)))
    | _ => none
  if conditions.isEmpty then "1=1" else String.intercalate " and " conditions

def joinQuery (t : Tool) (entering : List String) : String :=
  let columns :=
    if entering.isEmpty then "left_source.* /* TODO: specify columns from both sources */"
    else String.intercalate ",\n        " (entering.map fun c => "left_source." ++ quoteColumn c)
  let kind := String.ofList (Text.lower ((filled t.joinKind).getD "LEFT").toList)
  finalQuery
    ["    select", "        " ++ columns, "    from left_source",
     "    " ++ kind ++ " join right_source",
     "        on " ++ joinCondition t.joinKeys]
    ("select\n    " ++ columnsOrAll entering ++ "\nfrom final")

def summaryQuery (t : Tool) (leaving : List String) (source : String) : String :=
  let groups := String.intercalate ", " (t.groupBy.map quoteColumn)
  let sums :=
    if t.summaries.isEmpty then "count(*) as \"record_count\""
    else String.intercalate ",\n        " (t.summaries.map sumColumn)
  let comma := if groups.isEmpty || t.summaries.isEmpty then "" else ",\n        "
  let selection := if leaving.isEmpty then "*" else formatColumns leaving
  finalQuery
    ["    select", "        " ++ groups ++ comma ++ sums, "    from " ++ source,
     "    group by " ++ groupClause t]
    ("select\n    " ++ selection ++ "\nfrom final")

def unionQuery (w : Workflow) (upstream : List Tool) : Work String := do
  let parts ← upstream.zipIdx.mapM fun (u, i) => do
    return readAll (← toolColumns w u) ("source_" ++ toString (i + 1))
  return String.intercalate "\n\nunion all\n\n" parts

/-- A query that is to be written. -/
def openQuery (t : Tool) (entering : List String) (source : String) : String :=
  finalQuery
    ["    select",
     "        -- TODO: Implement " ++ t.name ++ " transformation",
     "        " ++ columnsOrAll entering,
     "    from " ++ source]
    (finalSelect entering)

/-- The query of a tool, written out, reading from `source`. -/
def plainQuery (w : Workflow) (t : Tool) (upstream : List Tool) (source : String) :
    Work String := do
  let entering ← enteringColumns w t
  let leaving ← toolColumns w t
  let fromSource := "    from " ++ source
  match t.name with
  | "Filter" =>
    let sql ← condition t
    return finalQuery ["    select", "        " ++ columnsOrAll entering, fromSource,
      "    where " ++ sql] (finalSelect entering)
  | "Formula" | "Multi-Field Formula" =>
    if (t.settingRecords "formulas").isEmpty then return readAll entering source
    else
      let front := if entering.isEmpty then ["    " ++ allColumns]
        else entering.map fun c => "    " ++ quoteColumn c
      let added := (← formulaColumns t).map ("    , " ++ ·)
      return finalQuery (["    select"] ++ front ++ added ++ [fromSource]) (finalSelect leaving)
  | "Join" => return joinQuery t entering
  | "Summarize" => return summaryQuery t leaving source
  | "Union" => if 1 < upstream.length then unionQuery w upstream else return readAll entering source
  | "Select" =>
    if t.selected.isEmpty then return openQuery t entering source
    else
      let fields ← check (keptFields t)
      let selection := if leaving.isEmpty then fields else formatColumns leaving
      return finalQuery ["    select", "        " ++ fields, fromSource]
        ("select\n    " ++ selection ++ "\nfrom final")
  | "Sort" =>
    if (t.settingRecords "sort_fields").isEmpty then return openQuery t entering source
    else
      let order ← check (sortClause t)
      return finalQuery ["    select", "        " ++ columnsOrAll entering, fromSource]
        (finalSelect entering ++ "\norder by " ++ order)
  | _ => return openQuery t entering source

def toolQuery (w : Workflow) (t : Tool) (upstream : List Tool) : Work String := do
  let source := sourceBlock upstream.length
  if t.isMacro && (filled t.macroPath).isSome then
    return macroReference (← get).macroNames t upstream.length source
  else
    match ← macroQuery? w t upstream.length with
    | some sql => return sql
    | none => plainQuery w t upstream source

end Work

end Replatform.Project
