import Replatform.Catalog.Sketch
import Replatform.Project.Block
/-!
# Tests of a project

A generic test that bounds the share of missing values, a test for each model of the last layer
with known columns that there are rows, and examples of tests of columns.
-/

namespace Replatform.Project

open Text (lines)

def testReadme : String := lines [
  "# DBT Tests for Alteryx Migration",
  "#",
  "# This directory contains custom tests for validating migrated data.",
  "#",
  "# Test Types:",
  "# - generic/: Reusable test macros",
  "# - singular/: One-off SQL tests",
  "#",
  "# To run tests: dbt test", ""]

def missingShareTest : String := lines [
  "-- Generic test: Check for null values in key columns",
  "-- Usage in schema.yml:",
  "--   tests:",
  "--     - not_null", "",
  "\x7b% test not_null_percentage(model, column_name, max_null_pct=0.05) %\x7d", "",
  "with validation as (",
  "    select",
  "        count(*) as total_rows,",
  "        sum(case when \x7b\x7b column_name \x7d\x7d is null then 1 else 0 end) as null_rows",
  "    from \x7b\x7b model \x7d\x7d",
  ")", "",
  "select *",
  "from validation",
  "where cast(null_rows as double) / cast(total_rows as double) > \x7b\x7b max_null_pct \x7d\x7d",
  "",
  "\x7b% endtest %\x7d"]

/-- A test that a model has rows. -/
def rowTest (model : String) : String := lines [
  "-- Singular test: Verify " ++ model ++ " has data",
  "-- This test fails if the model has zero rows", "",
  "select count(*) as row_count",
  "from " ++ Catalog.jinja ("ref('" ++ model ++ "')"),
  "having count(*) = 0"]

def testExamples : String := lines [
  "version: 2", "",
  "# Add these tests to your model schema files",
  "# Example test configurations:", "",
  "# models:",
  "#   - name: your_model",
  "#     columns:",
  "#       - name: \"id\"",
  "#         tests:",
  "#           - unique",
  "#           - not_null",
  "#       - name: \"foreign_key\"",
  "#         tests:",
  "#           - not_null",
  "#           - relationships:",
  "#               to: ref('other_model')",
  "#               field: \"id\"", ""]

/-- Writes the tests of the project. -/
def Work.writeTests : Work Unit := do
  let b ← get
  let dir := b.dir / "tests"
  writeText (dir / "README.md") testReadme
  writeText (dir / "generic" / "test_not_null_percentage.sql") missingShareTest
  (b.models.filter fun (_, m) => m.layer = .gold && !m.columns.isEmpty).forM fun (name, _) =>
    writeText (dir / "singular" / ("test_" ++ name ++ "_row_count.sql")) (rowTest name)
  writeText (dir / "_test_examples.yml") testExamples

end Replatform.Project
