import Replatform.Project.Block
/-!
# Reports on a comparison

What a comparison of two platforms found, as a document: how many tables passed, the tables of each
layer with their numbers, and what has to be resolved.
-/

namespace Replatform.Validation

open Text (lines)

/-- The numbers of a table, old and new. -/
structure Finding where
  table : String
  newCount : Int := 0
  oldCount : Int := 0
  difference : Int := 0
  passed : Bool := true
deriving DecidableEq, Repr

/-- What came of a validation. -/
structure Report where
  name : String
  /-- When the report was made; empty is now. -/
  made : String := ""
  total : Int := 0
  passed : Int := 0
  failed : Int := 0
  bronze : List Finding := []
  silver : List Finding := []
  gold : List Finding := []
  discrepancies : List String := []
deriving DecidableEq, Repr

/-- The share of tables that passed, in percent to one place. -/
def Report.passRate (r : Report) : Except Failure String :=
  match Number.Binary64.ofRatio (r.passed < 0) (100 * r.passed.natAbs) (max r.total 1).toNat with
  | .infinite _ => .error .tooLarge
  | x => .ok x.writeOnePlace

/-- A row of the report. -/
def Finding.line (f : Finding) : String :=
  "| " ++ f.table ++ " | " ++ Number.grouped f.newCount ++ " | " ++ Number.grouped f.oldCount
    ++ " | " ++ Number.grouped f.difference ++ " | " ++ (if f.passed then "PASS" else "FAIL")
    ++ " |"

/-- The section of a layer, if there is anything in it. -/
def layerSection (layer : String) (findings : List Finding) : List String :=
  if findings.isEmpty then []
  else
    ["## " ++ layer ++ " Layer Validations", "",
     "| Table | DBT Count | Alteryx Count | Diff | Status |",
     "|-------|-----------|---------------|------|--------|"]
    ++ findings.map Finding.line ++ [""]

/-- The section of what has to be resolved, if there is anything. -/
def discrepancySection (discrepancies : List String) : List String :=
  if discrepancies.isEmpty then []
  else
    ["## Discrepancies Found", "",
     "The following issues need resolution before cut-over:", ""]
    ++ discrepancies.zipIdx.map (fun (d, i) => toString (i + 1) ++ ". " ++ d) ++ [""]

/-- How the numbers are compared. -/
def approach : List String :=
  ["## Validation Approach", "",
   "This validation follows a parallel testing strategy comparing:", "",
   "1. **Bronze Layer** (dbt external tables) vs **Raw Layer** (Nasuni raw files)",
   "2. **Silver Layer** (dbt intermediate) vs **Staging** (Alteryx staging outputs)",
   "3. **Gold Layer** (dbt marts) vs **Fed Layer** (Alteryx final outputs)", "",
   "### Metrics Compared", "",
   "- **Record Counts**: Total number of rows in each dataset",
   "- **Data Point Quantities**: Sum/count of key numeric fields",
   "- **Null Completeness**: Null count per output field", ""]

def nextSteps : List String :=
  ["## Next Steps", "",
   "1. Review any FAIL status validations above",
   "2. Investigate record count discrepancies",
   "3. Check null completeness differences",
   "4. Update DBT models or Alteryx workflows as needed",
   "5. Re-run validation until all tests pass", "",
   "## Running Validations", "",
   "```bash",
   "# Run all validation tests",
   "dbt test --select tag:validation", "",
   "# Run specific layer validations",
   "dbt test --select tag:validation_bronze",
   "dbt test --select tag:validation_silver",
   "dbt test --select tag:validation_gold",
   "```", ""]

def Report.document (r : Report) (now : Moment) : Except Failure String := do
  let rate ← r.passRate
  return lines <|
    ["# Migration Validation Report", "",
     "**Generated:** " ++ (if r.made.isEmpty then now.writeJoined else r.made),
     "**Report Name:** " ++ r.name, "",
     "## Summary", "",
     "| Metric | Value |",
     "|--------|-------|",
     "| Total Tables Validated | " ++ toString r.total ++ " |",
     "| Tables Passed | " ++ toString r.passed ++ " |",
     "| Tables Failed | " ++ toString r.failed ++ " |",
     "| Pass Rate | " ++ rate ++ "% |", ""]
    ++ approach ++ layerSection "Bronze" r.bronze ++ layerSection "Silver" r.silver
    ++ layerSection "Gold" r.gold ++ discrepancySection r.discrepancies ++ nextSteps

end Replatform.Validation
