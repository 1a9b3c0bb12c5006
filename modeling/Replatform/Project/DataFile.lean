import Replatform.Data.Csv
import Replatform.Data.Json
import Replatform.Project.Build
/-!
# Columns of data files

The columns of a table in a text file, of records in a JSON document, of the first row of a workbook
or of a column store. A file that cannot be read has no columns, which is said and, for column
stores, noted. The same holds where the package for a file is missing.
-/

namespace Replatform.Project

/-- The columns of a table of text. -/
def tableColumns (fs : Files) (file : String) (fallback : Option Char) :
    Except Failure (List String) := do
  let content ← fs.read (Path.ofString file)
  match Csv.header? fallback content.lossyText with
  | some columns => .ok columns
  | none => .error .noDelimiter

/-- The value has no parts. -/
def isScalar : Value → Bool
  | .list _ | .record _ => false
  | _ => true

def firstKeys : List Value → List String
  | v :: _ => v.fields.map (·.1)
  | [] => []

/-- The columns of a document: the fields of a flat record, or of the first record in a list, which
may be the field `data` or else `records` of a record. -/
def valueColumns : Value → List String
  | .list items => firstKeys items
  | .record fields =>
    if fields.all fun f => isScalar f.2 then fields.map (·.1)
    else match fields.lookup "data", fields.lookup "records" with
      | some (.list items), _ => firstKeys items
      | _, some (.list items) => firstKeys items
      | _, _ => []
  | _ => []

def documentColumns (fs : Files) (file : String) : Except Failure (List String) := do
  match (← fs.read (Path.ofString file)).text? with
  | none => .error .notText
  | some text =>
    match Json.read? text with
    | some v => .ok (valueColumns v)
    | none => .error (.malformed "no JSON document")

/-- What is found in a data file: its columns, what is said about it, and what has to be done. -/
structure Finding where
  columns : List String := []
  said : List Printed := []
  /-- The kind, description, context and priority of an item. -/
  task : Option (String × String × String × String) := none
deriving DecidableEq, Repr

/-- The columns that were found, or none, with a line on why. -/
def Finding.orWarn (front : String) : Except Failure (List String) → Finding
  | .ok columns => { columns }
  | .error e => { said := [.failure front e] }

/-- What comes of a table of text. -/
def tableFinding (fs : Files) (file : String) (fallback : Option Char) : Finding :=
  .orWarn ("Warning: Error reading CSV " ++ file ++ ": ") (tableColumns fs file fallback)

def documentFinding (fs : Files) (file : String) : Finding :=
  .orWarn ("Warning: Error reading JSON " ++ file ++ ": ") (documentColumns fs file)

/-- The headings in a row, as far as its cells have words. -/
def headings (words? : Cell → Option String) (row : List Cell) : List String :=
  (row.filterMap words?).map fun words => String.ofList (Text.strip words.toList)

/-- Reads a workbook of the old kind. Where that fails, the columns that are known stay. -/
def oldSheetFinding (p : Packages) (fs : Files) (file : String) (columns : List String) : Finding :=
  match p.oldSheet fs file with
  | .missing => { columns, said := [.line "Note: Install xlrd for .xls support: pip install xlrd"] }
  | .failed words =>
    { columns, said := [.line ("Warning: Error reading Excel " ++ file ++ ": " ++ words)] }
  | .read [] => { columns }
  | .read (row :: _) => { columns := headings Cell.filling? row }

/-- Reads a workbook, and as one of the old kind where that fails. -/
def workbookFinding (p : Packages) (fs : Files) (file : String) : Finding :=
  match p.workbook fs file with
  | .missing => { said := [.line "Note: Install openpyxl for Excel support: pip install openpyxl"] }
  | .failed _ => oldSheetFinding p fs file []
  | .read book =>
    let columns := headings Cell.words? ((book.front.bind (·.head?)).getD [])
    if book.closed then { columns } else oldSheetFinding p fs file columns

/-- What comes of a column store. -/
def storeFinding (p : Packages) (fs : Files) (file : String) : Finding :=
  match p.store fs file with
  | .missing =>
    { said :=
        [.line ("WARNING: Cannot read Parquet columns from " ++ file),
         .line "         pyarrow is not installed. Install with: pip install pyarrow",
         .line "         Columns will need to be specified manually in generated models."]
      task := some ("missing_dependency",
        "Install pyarrow to auto-detect columns from Parquet file: " ++ file,
        "Run: pip install pyarrow", "high") }
  | .failed words =>
    { said := [.line ("WARNING: Error reading Parquet " ++ file ++ ": " ++ words)]
      task := some
        ("parquet_read_error", "Could not read Parquet file: " ++ file, words, "medium") }
  | .read columns => { columns }

/-- Reads a data file by the ending of its name. -/
def dataFinding (p : Packages) (fs : Files) (file : String) : Finding :=
  match String.ofList (Text.lower (Path.ofString file).suffix.toList) with
  | ".csv" => tableFinding fs file (some ',')
  | ".xlsx" | ".xls" => workbookFinding p fs file
  | ".json" => documentFinding fs file
  | ".parquet" => storeFinding p fs file
  | ".txt" | ".tsv" => tableFinding fs file (some '\t')
  | _ => {}

namespace Work

/-- Says and notes what was found, and gives the columns. -/
def report (find : Packages → Files → Finding) : Work (List String) := do
  let b ← get
  let found := find b.packages b.session.files
  ofRun (Run.printAll found.said)
  match found.task with
  | some (kind, description, context, priority) => addTodo kind description context priority
  | none => pure ()
  return found.columns

/-- Reads the columns of a data file, if there is one. -/
def readColumns (file : String) : Work (List String) := do
  if ← ofRun (Run.look (·.exists? (Path.ofString file))) then report (dataFinding · · file)
  else return []

end Work

end Replatform.Project
