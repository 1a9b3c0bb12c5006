import Replatform.Project.DataFile
import Replatform.Project.ToolColumns
/-!
# Sources

The tables that a project reads from. A source has a schema and a name, taken from the first detail
of its tool that is filled in, and the columns that its tools mention. Where none does, the columns
are read from the data file, and if there is none the user is asked, unless questions are off.
-/

namespace Replatform.Project

/-- What follows `database=` in a connection, up to a semicolon. -/
def databaseName? : List Char → Option (List Char)
  | [] => none
  | c :: s =>
    match Text.after? "database=".toList (c :: s) with
    | some rest =>
      match rest.takeWhile (· != ';') with
      | [] => databaseName? s
      | name => some name
    | none => databaseName? s

def schemaName (t : Tool) : String :=
  match (filled t.connection).bind fun c => databaseName? (Text.lower c.toList) with
  | some name => sanitize (String.ofList name)
  | none => "raw"

def tableName (t : Tool) : String :=
  match filled t.table, filled t.sourcePath, filled t.annotation,
    filled ((filled t.query).bind queryTable?) with
  | some table, _, _, _ => sanitize table
  | none, some path, _, _ => sanitize (Path.ofString path).stem
  | none, none, some annotation, _ => sanitize annotation
  | none, none, none, some table => sanitize table
  | none, none, none, none => sanitize t.name ++ "_" ++ toString t.id

/-- The first five columns. -/
def columnPreview (columns : List String) : String :=
  String.intercalate ", " (columns.take 5) ++ if 5 < columns.length then "..." else ""

/-- What comes of an answer to the question for columns: the columns, or the question again. -/
inductive ColumnTurn
  | settled (columns : List String)
  | again

/-- The names in a line, between commas. -/
def namesIn (line : String) : List String :=
  (((Text.splitOn [','] line.toList).map Text.strip).filter (· != [])).map String.ofList

def source? (b : Build) (schema table : String) : Option Source :=
  (b.sources.lookup schema).bind (·.lookup table)

/-- Adds a source. To one that is there already its columns are added, each once. -/
def addSource (sources : List (String × List (String × Source))) (s : Source) :
    List (String × List (String × Source)) :=
  let tables := (sources.lookup s.schema).getD []
  let new := match tables.lookup s.table with
    | some old => { old with columns := distinct (old.columns ++ s.columns) }
    | none => s
  setField sources s.schema (setField tables s.table new)

namespace Work

/-- The user gives up or goes away. -/
def stopAsking : Reply → Work ColumnTurn
  | .interrupted => do
    say "\nSkipping column detection"
    return .settled []
  | _ => return .settled []

/-- Notes what the user answered. -/
def noteAnswer (schema table file : String) : Work Unit :=
  modify fun b => { b with answered := setField b.answered (schema ++ "." ++ table) file }

def askDataFile (schema table : String) : Work ColumnTurn := do
  match ← ofRun (Run.ask "Enter full path to data file: ") with
  | .line answer =>
    let file := typedPath answer
    if ← ofRun (Run.look (·.exists? (Path.ofString file))) then
      let columns ← readColumns file
      if columns.isEmpty then
        say ("Could not read columns from: " ++ file)
        say "Supported formats: CSV, Excel (.xlsx/.xls), JSON, Parquet"
        return .again
      else
        noteAnswer schema table file
        say ("Found " ++ toString columns.length ++ " columns: " ++ columnPreview columns)
        return .settled columns
    else
      say ("File not found: " ++ file)
      return .again
  | reply => stopAsking reply

def askNames : Work ColumnTurn := do
  match ← ofRun (Run.ask "Enter column names (comma-separated): ") with
  | .line answer =>
    match namesIn answer with
    | [] =>
      say "No valid columns entered. Please try again."
      return .again
    | columns =>
      say ("Using " ++ toString columns.length ++ " columns: " ++ columnPreview columns)
      return .settled columns
  | reply => stopAsking reply

/-- Asks what to do about the columns. -/
def askColumnsOnce (schema table : String) : Work ColumnTurn := do
  match ← ofRun (Run.ask "Your choice (1-3): ") with
  | .line answer =>
    match String.ofList (Text.strip answer.toList) with
    | "1" => askDataFile schema table
    | "2" => askNames
    | "3" =>
      say ("Skipping column detection for " ++ table)
      noteAnswer schema table ""
      return .settled []
    | _ =>
      say "Invalid choice. Please enter 1, 2, or 3."
      return .again
  | reply => stopAsking reply

/-- Asks until the question is settled. Every turn but the last takes a line of input, so one more
turn than there are lines suffices. -/
def askColumnsUntilSettled (schema table : String) : Nat → Work (List String)
  | 0 => return []
  | fuel + 1 => do
    match ← askColumnsOnce schema table with
    | .settled columns => return columns
    | .again => askColumnsUntilSettled schema table fuel

/-- Asks for the columns of a source. -/
def askColumns (t : Tool) (schema table : String) : Work (List String) := do
  say ("\n" ++ Run.rule)
  say ("Unknown columns for source: " ++ ((filled t.sourcePath).or (filled t.table)).getD table)
  say ("Schema: " ++ schema ++ ", Table: " ++ table)
  match filled t.annotation with
  | some annotation => say ("Description: " ++ annotation)
  | none => pure ()
  say Run.rule
  say "\nTo generate accurate DBT models, column information is needed."
  say "Options:"
  say "[1] Enter path to raw data file (CSV, Excel, JSON, Parquet)"
  say "[2] Enter columns manually (comma-separated)"
  say "[3] Skip (will use SELECT * with TODO comment)"
  say ""
  askColumnsUntilSettled schema table ((← get).session.input.length + 1)

/-- What is done when the columns of the data file are known: where there are none, the user is
asked. -/
def orAsk (t : Tool) (schema table : String) (columns : List String) : Work (List String) := do
  if !columns.isEmpty then return columns
  else
    let b ← get
    if b.interactive && (b.answered.lookup (schema ++ "." ++ table)).isNone then
      askColumns t schema table
    else return []

/-- The columns of a source that no tool mentions: those of its data file, or what the user says. -/
def seekColumns (t : Tool) (schema table : String) : Work (List String) :=
  match filled t.sourcePath with
  | some path => readColumns path >>= orAsk t schema table
  | none => orAsk t schema table []

def collectSource (t : Tool) : Work Unit := do
  let schema := schemaName t
  let table := tableName t
  let mentioned := mentionedColumns t
  let columns ← if mentioned.isEmpty then seekColumns t schema table else pure mentioned
  let source : Source :=
    { schema, table, columns
      description := (filled t.annotation).getD t.displayName
      path := ((filled t.sourcePath).or (filled t.table)).getD "" }
  modify fun b => { b with sources := addSource b.sources source }

/-- Adds the sources of all workflows. -/
def collectSources (workflows : List Workflow) : Work Unit :=
  (workflows.flatMap (·.sources)).forM collectSource

end Work

end Replatform.Project
