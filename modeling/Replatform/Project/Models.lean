import Replatform.Project.Chain
import Replatform.Project.Transformation
/-!
# Models

A model is a file with a query. Each source of a workflow gets a model of the first layer, each
chain of tools one of the middle layer, and each result one of the last. A model reads the models
before it in blocks of its own, and then does its work.
-/

namespace Replatform.Project

open Text (lines)

open Catalog

/-- The settings of a model. -/
def configuration (kind : String) : List String :=
  ["\x7b\x7b", "    config(", "        materialized='" ++ kind ++ "'", "    )", "\x7d\x7d", ""]

/-- The lines that select from a model: the columns that are known, or all with a note. -/
def Reading.selection (r : Reading) : List String :=
  [r.opening ++ " as (", ""]
    ++ (if r.columns.isEmpty then ["    select *", "    /* TODO: specify columns */"]
        else ["    select", "        " ++ formatColumns r.columns])

/-- The line that refers to a model. -/
def referenceLine (model : String) : String := "    from " ++ jinja ("ref('" ++ model ++ "')")

def Reading.block (r : Reading) : List String :=
  r.selection ++ [referenceLine r.model, "", "),", ""]

def ModelFile.text (f : ModelFile) : String :=
  lines (f.head ++ f.reads.flatMap Reading.block ++ f.body)

def ModelFile.path (f : ModelFile) (project : Path) : Path :=
  project / "models" / f.model.layer.name / (f.model.name ++ ".sql")

/-- The name of the block that reads the source at a place among `count`. -/
def readName (count i : Nat) : String :=
  if 1 < count then "source_" ++ toString (i + 1) else "source"

def columnLines (columns : List String) : String :=
  String.intercalate ",\n        " (columns.map quoteColumn)

/-- Where a tool reads from. -/
def originOf (t : Tool) (other : String) : String :=
  ((filled t.sourcePath).or (filled t.table)).getD other

/-- Where a tool writes to. -/
def destinationOf (t : Tool) (other : String) : String :=
  ((filled t.targetPath).or (filled t.table)).getD other

def sourceSelect (columns : List String) (schema table : String) : String :=
  let source := jinja ("source('" ++ schema ++ "', '" ++ table ++ "')")
  if columns.isEmpty then "    select *\n    /* TODO: specify columns */\n    from " ++ source
  else "    select\n        " ++ columnLines columns ++ "\n    from " ++ source

/-- The selection at the end. -/
def renamedSelect (columns : List String) : String :=
  if columns.isEmpty then "select *\n/* TODO: specify columns */\nfrom renamed"
  else "select\n    " ++ String.intercalate "," (columns.map fun c => "\n    " ++ quoteColumn c)
    ++ "\nfrom renamed"

/-- The comments on the model of a source. -/
def bronzeHead (t : Tool) : List String :=
  ["-- Bronze model for " ++ t.displayName,
   "-- Source: " ++ originOf t "Unknown",
   "-- Generated from Alteryx workflow tool #" ++ toString t.id, ""]
  ++ configuration "table"

/-- The query of the model of a source. -/
def bronzeBody (columns : List String) (schema table : String) : List String :=
  ["with source as (", "", sourceSelect columns schema table, "", "),", "",
   "renamed as (", "", "    select",
   if columns.isEmpty then "        * -- TODO: Replace with explicit column list"
     else "        " ++ columnLines columns,
   "    from source", "", ")", "", renamedSelect columns]

/-- The name of the model of a chain: of the kinds of its tools, or of the first and the last if
there are many. -/
def chainName (workflow : String) (chain : List Tool) : String :=
  let kinds := chain.map (·.name)
  let whole := if 3 < kinds.length then kinds.headD "" ++ "_" ++ kinds.getLast?.getD ""
    else String.intercalate "_" kinds
  "int_" ++ workflow ++ "_" ++ sanitize whole

def arrows (chain : List Tool) : String := String.intercalate " -> " (chain.map (·.name))

def resultModelName (t : Tool) (workflow : String) (w : Workflow) : String :=
  let kind := if t.name = "Summarize" || !t.summaries.isEmpty then "fct" else "dim"
  kind ++ "_" ++ workflow ++ "_" ++ resultName t w

namespace Work

/-- Writes the file of a model and sets its entry. -/
def writeModel (f : ModelFile) : Work Unit := do
  writeText (f.path (← get).dir) f.text
  modify fun b =>
    { b with files := b.files ++ [f], models := setField b.models f.model.name f.model }

/-- The blocks that read the sources of a tool; columns that are not known are noted if `noted`. -/
def readSources (w : Workflow) (workflow : String) (noted : Bool) (upstream : List Tool) :
    Work (List Reading) :=
  upstream.zipIdx.mapM fun (u, i) => do
    let name := readName upstream.length i
    let model := modelReference u workflow
    let columns ← toolColumns w u
    if noted && columns.isEmpty then
      addTodo "specify_columns" ("Specify columns from upstream model '" ++ model ++ "'")
        ("CTE: " ++ name) "medium"
    return { opening := "with " ++ name, columns, model }

def readSide (w : Workflow) (workflow : String) (first : Bool) (side : String) (u : Tool) :
    Work Reading := do
  let name := side ++ "_source"
  let model := modelReference u workflow
  let columns ← toolColumns w u
  if columns.isEmpty then
    addTodo "specify_columns" ("Specify columns from upstream model '" ++ model ++ "'")
      ("CTE: " ++ name ++ " (" ++ (if side = "left" then "Left" else "Right") ++ " input)") "medium"
  return { opening := if first then "with " ++ name else name, columns, model }

/-- Reads both sides of a join. -/
def readSides (w : Workflow) (workflow : String) (t : Tool) : Work (List Reading) := do
  let (left, right) := joinSides t w
  let leftBlocks ← left.toList.mapM (readSide w workflow true "left")
  let rightBlocks ← right.toList.mapM (readSide w workflow left.isNone "right")
  return leftBlocks ++ rightBlocks

/-- Notes what a query leaves open. -/
def noteOpenEnds (t : Tool) (query columnTask columnContext : String) : Work Unit := do
  if Text.has "-- TODO:".toList query.toList then
    let small := Text.lower query.toList
    if Text.has "specify columns".toList small then
      addTodo "specify_columns" columnTask columnContext "medium"
    if Text.has "implement".toList small then
      addTodo "implement_transformation" ("Implement " ++ t.name ++ " transformation logic")
        ("Tool #" ++ toString t.id ++ ": " ++ (filled t.annotation).getD t.name) "high"

def bronzeFile (workflow : String) (t : Tool) (columns : List String) : ModelFile where
  model :=
    { name := "stg_" ++ workflow ++ "_" ++ tableName t, layer := .bronze, columns
      description := "Staging model for " ++ t.displayName
      tool := t.id }
  head := bronzeHead t
  reads := []
  body := bronzeBody columns (schemaName t) (tableName t)

def sourceColumns (b : Build) (t : Tool) : List String :=
  ((source? b (schemaName t) (tableName t)).map (·.columns)).getD []

/-- Writes the model of a source. -/
def writeBronze (workflow : String) (t : Tool) : Work Unit := do
  enter ("stg_" ++ workflow ++ "_" ++ tableName t) "bronze"
  let columns := sourceColumns (← get) t
  if columns.isEmpty then
    addTodo "specify_columns" "Replace SELECT * with explicit column list"
      ("Source: " ++ originOf t (schemaName t ++ "." ++ tableName t)) "high"
  writeModel (bronzeFile workflow t columns)

/-- Writes the model of tools: finds what it reads and then its query, and notes what the query
leaves open. -/
def writeMart (model : Model) (head : List String) (reads : Work (List Reading))
    (query : Work String) (note : String → Work Unit) : Work Unit := do
  let reads ← reads
  let query ← query
  note query
  writeModel { model, head, reads, body := [query] }

/-- Reads what a tool of the middle layer reads. -/
def readInputs (w : Workflow) (workflow : String) (t : Tool) : Work (List Reading) :=
  if t.name = "Join" && 2 ≤ (w.upstream t.id).length then readSides w workflow t
  else readSources w workflow true (w.upstream t.id)

/-- Writes the model of a tool of the middle layer. -/
def writeSilver (w : Workflow) (workflow : String) (t : Tool) : Work Unit := do
  let name := "int_" ++ workflow ++ "_" ++ sanitize t.displayName
  enter name "silver"
  writeMart
    { name, layer := .silver, columns := mentionedColumns t
      description := "Intermediate model: " ++ t.name ++ " - " ++ t.displayName
      tool := t.id }
    (["-- Silver model: " ++ t.displayName,
      "-- Tool type: " ++ t.name,
      "-- Generated from Alteryx workflow tool #" ++ toString t.id, ""] ++ configuration "table")
    (readInputs w workflow t)
    (toolQuery w t (w.upstream t.id))
    (noteOpenEnds t · "Specify explicit columns in transformation" ("Tool: " ++ t.name))

/-- Writes the model of a chain. -/
def writeChain (w : Workflow) (workflow : String) (chain : List Tool) : Work Unit :=
  match chain with
  | [] => pure ()
  | first :: _ =>
    let numbers := String.intercalate ", #" (chain.map fun t => toString t.id)
    writeMart
      { name := chainName workflow chain
        layer := .silver
        columns := (chain.map mentionedColumns).foldl
          (fun all columns => all ++ columns.filter (!all.contains ·)) []
        description := "Combined: " ++ arrows chain
        tool := first.id }
      (["-- Silver model combining " ++ toString chain.length ++ " transformations:",
        "-- " ++ arrows chain,
        "-- Generated from Alteryx workflow tools #" ++ numbers, ""] ++ configuration "table")
      (readSources w workflow false (w.upstream first.id))
      (chainQuery w chain (w.upstream first.id).length)
      fun _ => pure ()

/-- Writes the model of a result. -/
def writeGold (w : Workflow) (workflow : String) (t : Tool) : Work Unit := do
  let name := resultModelName t workflow w
  enter name "gold"
  writeMart
    { name, layer := .gold, columns := mentionedColumns t
      description := "Gold model: " ++ t.displayName ++ " -> " ++ destinationOf t "output"
      tool := t.id }
    (["-- Gold model: " ++ t.displayName,
      "-- Output: " ++ destinationOf t "N/A",
      "-- Tool type: " ++ t.name,
      "-- Generated from Alteryx workflow tool #" ++ toString t.id, ""] ++ configuration "view")
    (readSources w workflow true (w.upstream t.id))
    (toolQuery w t (w.upstream t.id))
    (noteOpenEnds t · "Specify explicit columns in output"
      ("Output: " ++ destinationOf t "unknown"))

/-- Writes the models of a workflow. No container is in a layer, so there is none to expand. -/
def writeWorkflow (w : Workflow) : Work Unit := do
  modify fun b => { b with columns := [] }
  let workflow := sanitize w.metadata.name
  ((w.inLayer .bronze).filter (·.category == .input)).forM (writeBronze workflow)
  (chains w .silver).forM fun chain =>
    match chain with
    | [t] => writeSilver w workflow t
    | _ => writeChain w workflow chain
  (w.inLayer .gold).forM (writeGold w workflow)

end Work

end Replatform.Project
