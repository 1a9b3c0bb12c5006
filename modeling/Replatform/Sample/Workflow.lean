import Replatform.Catalog.Plugin
import Replatform.Failure
import Replatform.Sample.Element
/-!
# Sample workflows

A workflow of any size for trials of everything else. Two inputs are selected, filtered and
joined, a chain of tools of changing kinds follows, then a macro, a summary, an output and a
preview; a container holds the first tools of the chain. Main definition: `Shape.document`.
-/

namespace Replatform.Sample

/-- What a sample workflow is to look like. -/
structure Shape where
  /-- How many tools to aim at. Twelve of them count for the fixed part. -/
  size : Int
  /-- How many columns the tools name. -/
  fields : Nat := 6
  name : String := "Synthetic"
  /-- Whether the formulas of the chain are plain sums. -/
  plainFormulas : Bool := true
  /-- Whether the macro is one that cannot be found. -/
  macroMissing : Bool := false
  /-- The kinds of the chain's tools, in turn. -/
  kinds : List String :=
    ["Select", "Sort", "Summarize", "Select", "Union", "Unique", "Sort", "Sample", "RegEx",
     "Transpose", "RecordID", "Formula", "Filter"]
deriving Repr

def ownPlugin (name : String) : String := "AlteryxBasePluginsGui." ++ name ++ "." ++ name

def tool (id : Int) (name label : String) (settings : String := "") : Part :=
  { id, plugin := ownPlugin name, label, settings }

def pluginOf? (kind : String) : Option String :=
  let plugin := ownPlugin (if kind = "Select" then "AlteryxSelect" else kind)
  if Catalog.plugins.any fun (_, ps) => ps.contains plugin then some plugin else none

/-- The item of a list at a number, counted round and round. -/
def inTurn {α : Type} (xs : List α) (i : Nat) : Except Failure α :=
  match xs[i % xs.length]? with
  | some x => .ok x
  | none => .error .divisionByZero

def fileTypes : List String := ["csv", "xlsx", "json", "yxdb", "dat"]

def databases : List String :=
  ["sqlserver://host/db", "oracle://host/db", "postgres://host/db", "mysql://host/db",
   "snowflake://acct/db", "bigquery://proj/ds", "redshift://host/db", "odbc:generic"]

def byNumber (xs : List String) (id : Nat) : String := (xs[id % xs.length]?).getD ""

/-- The columns, each under a number. -/
def columns (n : Nat) (write : Nat → String) : String := String.join ((List.range n).map write)

def selectField (field : String) (kept : Bool) (rename : Option String) : String :=
  leaf "SelectField" ([("field", field), ("selected", if kept then "True" else "False")]
    ++ (rename.map fun r => ("rename", r)).toList)

def selection (n : Nat) : String :=
  columns n fun i => selectField ("c" ++ toString i) true (some ("r" ++ toString i))

def summaryField (field action : String) (rename : Option String) : String :=
  leaf "SummarizeField" ([("field", field), ("action", action)]
    ++ (rename.map fun r => ("rename", r)).toList)

/-- The settings of a tool in the chain, by its kind. -/
def chainSettings (s : Shape) (i : Nat) : String → String
  | "Select" => selection s.fields ++ selectField "dropme" false none
  | "Sort" => columns s.fields fun j =>
      leaf "SortInfo" [("field", "c" ++ toString j),
        ("order", if j % 2 = 0 then "Ascending" else "Descending")]
  | "Summarize" => summaryField "c0" "GroupBy" none ++ columns (s.fields - 1) fun j =>
      summaryField ("c" ++ toString (j + 1)) "Sum" (some ("s" ++ toString (j + 1)))
  | "Union" => plain "Mode" "ByName"
  | "Formula" => columns s.fields fun j =>
      leaf "FormulaField" [("field", "calc_" ++ toString i ++ "_" ++ toString j),
        ("expression", if s.plainFormulas then "[a]+[b]"
          else "IIF([amount] &gt; 0, Trim([name]), ToString([id]))"),
        ("type", "Double")]
  | "Filter" => plain "Expression" "[c0] != 0"
  | _ => ""

def chainName (kind : String) (i : Nat) : String :=
  (match kind with
    | "Summarize" => "Agg"
    | "Formula" => "Calc"
    | _ => kind) ++ " " ++ toString i

def chainPart (s : Shape) (i : Nat) : Except Failure Part := do
  let kind ← inTurn s.kinds i
  match pluginOf? kind with
  | some plugin =>
    return { id := i + 6, plugin := plugin, label := chainName kind i
             settings := chainSettings s i kind }
  | none => throw (.noEntry kind)

def Shape.chainLength (s : Shape) : Nat := (s.size - 12).toNat

def frontParts (s : Shape) : List Part :=
  [tool 1 "DbFileInput" "Customers"
     (element "File" [("OutputFileName", "")]
         ("/data/raw/customers." ++ byNumber fileTypes 1)
       ++ plain "Query" "SELECT a, b FROM dim_customers"),
   tool 2 "DbFileInput" "Orders"
     (plain "Connection" (byNumber databases 2) ++ plain "Table" "dbo.orders"
       ++ plain "SQLStatement"
         "SELECT order_id, customer_id, qty AS quantity, price FROM dbo.orders"),
   tool 3 "AlteryxSelect" "Select Customer Fields"
     (selection s.fields ++ selectField "created" false none
       ++ selectField "" true none),
   tool 4 "Filter" "Filter Active Orders"
     (plain "Mode" "Simple"
       ++ plain "Expression" "[status] == \"active\" &amp;&amp; [amount] &gt; 0"
       ++ plain "Field" "status" ++ plain "Operator" "=" ++ plain "Operand" "active"),
   tool 5 "Join" "Join Customer Orders"
     (leaf "JoinInfo" [("connection", "Left")] ++ plain "JoinByRecordPos" "True"
       ++ plain "JoinByFields" (columns (min 3 s.fields) fun i =>
           leaf "Field" [("left", "c" ++ toString i), ("right", "c" ++ toString i)])
       ++ leaf "SelectJoinInfo" [("connection", "Inner")])]

/-- The numbers of the tools in the container, in writing. -/
def containerMembers (n : Nat) : String :=
  if n = 0 then "5"
  else String.intercalate "," ((List.range (min 3 n)).map fun i => toString (i + 6))

/-- The tools behind the chain, from the number `k` on. -/
def backParts (s : Shape) (k : Nat) : List Part :=
  let members := containerMembers s.chainLength
  [{ id := k, plugin := some "AlteryxGuiToolkit.ToolContainer.ToolContainer"
     label := some "Data Preparation", settings := plain "ChildToolIds" members
     extra := plain "ChildToolIds" (members ++ ",bad") },
   { id := k + 1, plugin := none, label := some "Validator"
     settings := plain "Macro" "macros/Fallback.yxmc"
     extra := leaf "EngineSettings"
       [("Macro", if s.macroMissing then "NoSuchMacro.yxmc" else "macros/DataValidator.yxmc")] },
   tool (k + 2) "Summarize" "Summarize by Customer"
     (summaryField "customer_id" "GroupBy" none ++ summaryField "region" "GroupBy" none
       ++ summaryField "amount" "Sum" (some "total")
       ++ summaryField "order_id" "CountDistinct" (some "cnt")
       ++ summaryField "amount" "Avg" (some "avg_amount")),
   tool (k + 3) "DbFileOutput" "Summary Output"
     (plain "File" ("/data/output/summary." ++ byNumber fileTypes (k + 3))
       ++ plain "Connection" (byNumber databases (k + 3)) ++ plain "Table" "fact_summary"),
   tool (k + 4) "BrowseV2" "Preview"]

/-- The connections of a sample workflow whose chain has `n` tools. -/
def workflowWires (n : Nat) : List Wire :=
  let k : Int := n + 6
  [⟨1, 3, "Output", "Input"⟩, ⟨2, 4, "Output", "Input"⟩, ⟨3, 5, "Output", "Left"⟩,
   ⟨4, 5, "True", "Right"⟩]
    ++ wires (5 :: (List.range n).map fun i : Nat => (i : Int) + 6)
    ++ wires [k - 1, k + 1, k + 2, k + 3] ++ [⟨k + 2, k + 4, "Output", "Input"⟩]

def workflowProperties (name : String) : String :=
  plain "MetaInfo" (plain "Name" name
      ++ plain "Description"
        (name ++ " description string long enough to be truncated in the index table")
      ++ plain "Author" "Bench")
    ++ plain "Annotation" (plain "DefaultAnnotationText" (name ++ " anno"))

def Shape.document (s : Shape) : Except Failure String := do
  let n := s.chainLength
  let chain ← (List.range n).mapM (chainPart s)
  return Sample.document (workflowProperties s.name)
    (frontParts s ++ chain ++ backParts s (n + 6)) (workflowWires n)

end Replatform.Sample
