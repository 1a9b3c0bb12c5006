import Replatform.Project.Block
/-!
# The macros that every project gets

A directory of ready-made macros lies beside the program. All of them are copied into a project, and
an index says what each is for.
-/

namespace Replatform.Project

open Text (lines)

/-- What the macros of the library are for. -/
def libraryPurposes : List (String × String) :=
  [("deduplicate.sql", "Remove duplicate rows using ROW_NUMBER (Alteryx: Unique tool)"),
   ("running_total.sql",
    "Calculate running/cumulative totals (Alteryx: Multi-Row Formula, Running Total)"),
   ("window_rank.sql",
    "Add ranking columns with ROW_NUMBER/RANK/DENSE_RANK (Alteryx: RecordID)"),
   ("safe_cast.sql", "Safe type casting with TRY_CAST and fallback values (Alteryx: Formula)"),
   ("split_unnest.sql",
    "Split delimited strings into rows (Alteryx: Text to Columns, Transpose)"),
   ("generate_surrogate_key.sql",
    "Generate hash-based surrogate keys (Alteryx: Formula with MD5)"),
   ("pivot.sql", "Pivot/CrossTab operations (Alteryx: CrossTab tool)"),
   ("null_if_empty.sql", "Clean empty strings and standardize nulls (Alteryx: Data Cleansing)"),
   ("date_spine.sql", "Generate date sequences (Alteryx: Generate Rows)"),
   ("string_normalize.sql", "String normalization and cleaning (Alteryx: Data Cleansing, Formula)")]

def libraryLine (file : Path) : String :=
  "    - " ++ file.stem ++ ": "
    ++ (libraryPurposes.lookup file.name).getD "Reusable transformation macro"

def libraryIndex (files : List Path) : String :=
  lines <|
    ["\x7b#",
     "    Migration Macros Index",
     "    =======================",
     "    These macros provide Trino/Starburst compatible implementations",
     "    of common Alteryx transformation patterns.", "",
     "    Macros included:"]
    ++ (files.mergeSort Path.le).map libraryLine
    ++ ["",
     "    Usage Example:",
     "        \x7b\x7b deduplicate(",
     "            relation=ref('stg_customers'),",
     "            partition_by=['customer_id'],",
     "            order_by=['updated_at'],",
     "            order_direction='desc'",
     "        ) \x7d\x7d",
     "#\x7d", "",
     "-- This file serves as documentation only.",
     "-- Each macro is defined in its own .sql file in this directory."]

def libraryDir (home : Path) : Path := home / "dbt_macros"

def copyInto (dir : Path) (fs : Files) (file : Path) : Except Failure Files := do
  fs.write (dir / file.name) (← fs.read file)

namespace Work

/-- Copies the ready-made macros from the directory of the program and writes their index. -/
def copyLibrary (home : Path) : Work Unit := do
  let source := libraryDir home
  let target := (← get).dir / "macros" / "migration"
  if !(← ofRun (Run.look (·.exists? source))) then throw (.noMacros source.toString)
  else
    let files ← ofRun (Run.look (·.withSuffix source false ".sql"))
    files.forM fun file => ofRun (Run.change (copyInto target · file))
    if !files.isEmpty then
      say ("Copied " ++ toString files.length ++ " reusable migration macros")
      writeText (target / "_index.sql") (libraryIndex files)

end Work

end Replatform.Project
