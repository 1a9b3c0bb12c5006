import Replatform.Workflow.Basic
/-!
# Sources and targets

What a workflow reads from and writes to, and of which kind it is, judged by the ending of a file
name, by words in a connection, or by the plugin.
-/

namespace Replatform

namespace Lineage

/-- Whether a text has one of the endings, in capitals or not. -/
def hasEnding (s : String) (endings : List String) : Bool :=
  endings.any fun e => Text.endsWith e.toList (Text.lower s.toList)

/-- Whether a text has one of the words in it, in capitals or not. -/
def mentions (s : String) (words : List String) : Bool :=
  words.any fun x => Text.has x.toList (Text.lower s.toList)

/-- The first kind whose marks are found. -/
def kindBy (found : List String → Bool) (kinds : List (List String × String)) (other : String) :
    String :=
  ((kinds.find? fun k => found k.1).map (·.2)).getD other

/-- Kinds of files by their endings; `more` are those that can only be read. -/
def fileKind (more : List (List String × String)) (path : String) : String :=
  kindBy (hasEnding path)
    ([([".csv"], "CSV File"), ([".xls", ".xlsx"], "Excel File"), ([".json"], "JSON File")]
      ++ more ++ [([".yxdb"], "Alteryx Database")]) "File"

/-- The kind of database that a connection mentions. -/
def connectionKind (connection : String) : String :=
  kindBy (mentions connection)
    [(["sqlserver", "mssql"], "SQL Server"), (["oracle"], "Oracle"), (["postgres"], "PostgreSQL"),
     (["mysql"], "MySQL"), (["snowflake"], "Snowflake"), (["bigquery"], "BigQuery"),
     (["redshift"], "Redshift")] "Database"

/-- Kinds of services by words in the name of a plugin. -/
def pluginKind (plugin : String) : String :=
  kindBy (·.any fun x => Text.has x.toList plugin.toList)
    [(["S3"], "Amazon S3"), (["Azure"], "Azure Blob"), (["Snowflake"], "Snowflake")] "Unknown"

def sourceKind (t : Tool) : String :=
  match filled t.sourcePath, filled t.connection with
  | some path, _ => fileKind [([".xml"], "XML File")] path
  | none, some connection => connectionKind connection
  | none, none => pluginKind t.plugin

def targetKind (t : Tool) : String :=
  if t.name = "Browse" then "Preview/Browse"
  else match filled t.targetPath with
    | some path => fileKind [] path
    | none =>
      if (filled t.connection).isSome || (filled t.table).isSome then "Database Table"
      else "Unknown"

def sourcePlace (t : Tool) : String := ((filled t.sourcePath).or (filled t.table)).getD "N/A"

def targetPlace (t : Tool) : String := ((filled t.targetPath).or (filled t.table)).getD "N/A"

/-- An entry of an inventory: a tool that reads or writes, and of which kind and where what it reads
or writes is. -/
structure Endpoint where
  name : String
  id : Int
  kind : String
  place : String
  connection : Option String
deriving DecidableEq, Repr

/-- A source, with the query that reads it. -/
structure Origin extends Endpoint where
  query : Option String
deriving DecidableEq, Repr

end Lineage

namespace Workflow

open Lineage

def sourceInventory (w : Workflow) : List Origin :=
  w.sources.map fun t =>
    { name := t.displayName, id := t.id, kind := sourceKind t, place := sourcePlace t
      connection := t.connection, query := t.query }

def targetInventory (w : Workflow) : List Endpoint :=
  w.targets.map fun t =>
    { name := t.displayName, id := t.id, kind := targetKind t, place := targetPlace t
      connection := t.connection }

end Workflow

end Replatform
