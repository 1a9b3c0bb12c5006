import Replatform.Text.Basic
/-!
# Names in a project

Names of models and files have small letters, digits and single underscores only, do not begin with
an underscore, and are cut at a length. Columns keep their names and stand in double quotes.
-/

namespace Replatform.Project

/-- How long a name may be. -/
def nameLimit : Nat := 50

/-- The character may stand in a name. -/
def isPlain (c : Char) : Bool := c.isAlphanum || c == '_'

/-- Every run of underscores is one. -/
def squeeze : List Char → List Char
  | '_' :: '_' :: s => squeeze ('_' :: s)
  | c :: s => c :: squeeze s
  | [] => []

/-- The characters of a name without the limit on its length. -/
def plainName (s : List Char) : List Char :=
  (Text.trimWhile (· == '_')
    (squeeze (s.map fun c => if isPlain c then c else '_'))).map Char.toLower

/-- The name that a page proposes for a model. -/
def proposedName (s : String) : String :=
  match (plainName s.toList).take nameLimit with
  | [] => "unknown"
  | cs => String.ofList cs

/-- The name of a model or a file. -/
def sanitize (s : String) : String := if s.isEmpty then "unknown" else proposedName s

/-- A column in quotes, unless it has them or stands for all columns. -/
def quoteColumn (column : String) : String :=
  if Text.startsWith ['\x22'] column.toList || column = "*" then column else "\"" ++ column ++ "\""

def columnIndent : String := "        "

/-- Columns in quotes, one on a line; no columns stand for all, with a note. -/
def formatColumnsWith (indent : String) (columns : List String) : String :=
  if columns.isEmpty then indent ++ "*\n" ++ indent ++ "/* TODO: specify columns */"
  else String.intercalate (",\n" ++ indent) (columns.map quoteColumn)

def formatColumns (columns : List String) : String := formatColumnsWith columnIndent columns

/-- The texts, each once. -/
def distinct (xs : List String) : List String :=
  xs.foldl (fun seen x => if seen.contains x then seen else seen ++ [x]) []

end Replatform.Project
