import Replatform.Catalog.Sketch
import Replatform.Validation.Macros
/-!
# Comparing a project with the old platform

For each model there is a test of the number of its records, and for each model with known columns
a test of their missing values. The tests, the macros that they use and a table of expected numbers
are written into the project.
-/

namespace Replatform.Validation

open Text (lines)

/-- A model to test. -/
structure Subject where
  name : String
  layer : String := "silver"
  columns : List String := []
deriving DecidableEq, Repr

/-- What a layer is compared with. -/
def counterpart : String → String
  | "bronze" => "raw Nasuni files"
  | "silver" => "staging/bronze layer"
  | _ => "fed/production layer"

def countTest (model layer : String) : String := lines [
  "-- Validation test: Record count for " ++ model,
  "-- Compare DBT output against " ++ counterpart layer,
  "-- Layer: " ++ layer, "",
  "-- This test returns rows when there's a count mismatch",
  "-- A passing test returns 0 rows", "",
  "WITH dbt_counts AS (",
  "    SELECT",
  "        '" ++ model ++ "' AS model_name,",
  "        COUNT(*) AS record_count,",
  "        CURRENT_TIMESTAMP AS validation_timestamp",
  "    FROM " ++ Catalog.jinja ("ref('" ++ model ++ "')"),
  "),", "",
  "-- TODO: Replace this CTE with actual Alteryx output comparison",
  "-- Option 1: External table pointing to Alteryx YXDB output",
  "-- Option 2: Staging table with Alteryx results",
  "-- Option 3: Direct comparison to source files",
  "alteryx_counts AS (",
  "    SELECT",
  "        '" ++ model ++ "' AS model_name,",
  "        -- TODO: Replace with actual Alteryx output source",
  "        -- Example: COUNT(*) FROM "
    ++ Catalog.jinja ("source('alteryx_outputs', '" ++ model ++ "')"),
  "        0 AS record_count,  -- Placeholder",
  "        CURRENT_TIMESTAMP AS validation_timestamp",
  "),", "",
  "comparison AS (",
  "    SELECT",
  "        d.model_name,",
  "        d.record_count AS dbt_count,",
  "        a.record_count AS alteryx_count,",
  "        ABS(d.record_count - a.record_count) AS count_difference,",
  "        CASE",
  "            WHEN a.record_count = 0 THEN 0",
  "            ELSE ROUND(100.0 * ABS(d.record_count - a.record_count) / a.record_count, 2)",
  "        END AS difference_pct,",
  "        d.validation_timestamp",
  "    FROM dbt_counts d",
  "    CROSS JOIN alteryx_counts a",
  ")", "",
  "-- Return rows only if counts don't match (test fails)",
  "SELECT *",
  "FROM comparison",
  "WHERE count_difference > 0", ""]

/-- How many values a column lacks. -/
def missingCount (column : String) : String :=
  let quoted :=
    if Text.startsWith ['\x22'] column.toList then column else "\"" ++ column ++ "\""
  let name := Text.lower (column.toList.map fun c => if c = ' ' then '_' else c)
  "SUM(CASE WHEN " ++ quoted ++ " IS NULL THEN 1 ELSE 0 END) AS null_count_" ++ String.ofList name

/-- A test that counts missing values. -/
def completenessTest (model : String) (columns : List String) (layer : String) : String := lines [
  "-- Validation test: Null completeness for " ++ model,
  "-- Compare null counts between DBT and Alteryx outputs",
  "-- Layer: " ++ layer, "",
  "-- This test returns rows when there's a null count mismatch",
  "-- A passing test returns 0 rows", "",
  "WITH dbt_null_counts AS (",
  "    SELECT",
  "        '" ++ model ++ "' AS model_name,",
  "        COUNT(*) AS total_records,",
  "        " ++ String.intercalate ",\n        " (columns.map missingCount),
  "    FROM " ++ Catalog.jinja ("ref('" ++ model ++ "')"),
  ")", "",
  "-- TODO: Add comparison CTE with Alteryx output null counts",
  "-- Then compare and return mismatches", "",
  "SELECT",
  "    model_name,",
  "    total_records,",
  "    'Review null counts and compare with Alteryx output' AS validation_note",
  "FROM dbt_null_counts",
  "WHERE 1=0  -- Placeholder: modify to actual comparison logic", ""]

def testFiles (s : Subject) : List (String × String) :=
  ("validate_count_" ++ s.name ++ ".sql", countTest s.name s.layer)
    :: if s.columns.isEmpty then []
       else [("validate_nulls_" ++ s.name ++ ".sql", completenessTest s.name s.columns s.layer)]

/-- Writes a file into a directory, which has to be there, and answers with its path. -/
def place (dir : Path) (name text : String) : Run String := do
  let path := dir / name
  Run.change (·.write path (.text text))
  return path.toString

def testDir (project : Path) : Path := project / "tests" / "validation"

/-- Writes the tests of models. -/
def writeTests (project : Path) (subjects : List Subject) : Run (List String) := do
  Run.change (·.makeDirectory (testDir project))
  (subjects.flatMap testFiles).mapM fun (name, text) => place (testDir project) name text

/-- Writes the tests of models with all that they need, and answers with the paths of the files. -/
def writeAll (project : Path) (subjects : List Subject) : Run (List String) := do
  let tests ← writeTests project subjects
  let dir := project / "macros" / "validation"
  Run.change (·.makeDirectory dir)
  let macrosFile ← place dir "validation_macros.sql" macros
  let settingsFile ← place (testDir project) "_validation_schema.yml" testSettings
  return tests ++ [macrosFile, settingsFile]

/-- Writes a table of expected numbers to fill in, and answers with its path. -/
def writeSeed (project : Path) : Run String := do
  Run.change (·.makeDirectory (project / "seeds"))
  place (project / "seeds") "alteryx_expected_counts.csv" seedTable

end Replatform.Validation
