import Replatform.Project.Block
/-!
# Macros for comparing two platforms

Macros of a project that compare what it computes with what the old platform gave: numbers of
records, numbers of missing values, and a report on several models; with the settings that belong
to them.
-/

namespace Replatform.Validation

open Text (lines)

/-- A macro that compares counts. -/
def countMacro : String := lines [
  "\x7b% macro validate_record_counts(dbt_model, alteryx_source, tolerance_pct=0) %\x7d",
  "\x7b#",
  "    Macro to compare record counts between DBT model and Alteryx source.", "",
  "    Args:",
  "        dbt_model: Name of the DBT model to validate",
  "        alteryx_source: Source reference for Alteryx output",
  "        tolerance_pct: Acceptable percentage difference (default 0 = exact match)", "",
  "    Returns:",
  "        Query that returns mismatches (empty = validation passed)",
  "#\x7d", "",
  "WITH dbt_counts AS (",
  "    SELECT COUNT(*) AS record_count",
  "    FROM \x7b\x7b ref(dbt_model) \x7d\x7d",
  "),", "",
  "alteryx_counts AS (",
  "    SELECT COUNT(*) AS record_count",
  "    FROM \x7b\x7b alteryx_source \x7d\x7d",
  "),", "",
  "comparison AS (",
  "    SELECT",
  "        '\x7b\x7b dbt_model \x7d\x7d' AS model_name,",
  "        d.record_count AS dbt_count,",
  "        a.record_count AS alteryx_count,",
  "        ABS(d.record_count - a.record_count) AS count_diff,",
  "        CASE",
  "            WHEN a.record_count = 0 THEN 100.0",
  "            ELSE 100.0 * ABS(d.record_count - a.record_count) / a.record_count",
  "        END AS diff_pct",
  "    FROM dbt_counts d",
  "    CROSS JOIN alteryx_counts a",
  ")", "",
  "SELECT *",
  "FROM comparison",
  "WHERE diff_pct > \x7b\x7b tolerance_pct \x7d\x7d", "",
  "\x7b% endmacro %\x7d"]

/-- A macro that compares numbers of missing values in a column. -/
def completenessMacro : String := lines [
  "\x7b% macro validate_null_completeness(dbt_model, column_name, alteryx_source) %\x7d",
  "\x7b#",
  "    Macro to compare null counts for a specific column.", "",
  "    Args:",
  "        dbt_model: Name of the DBT model to validate",
  "        column_name: Column to check for null completeness",
  "        alteryx_source: Source reference for Alteryx output", "",
  "    Returns:",
  "        Query that returns mismatches (empty = validation passed)",
  "#\x7d", "",
  "WITH dbt_nulls AS (",
  "    SELECT",
  "        COUNT(*) AS total_records,",
  "        SUM(CASE WHEN \x7b\x7b column_name \x7d\x7d IS NULL THEN 1 ELSE 0 END) AS null_count",
  "    FROM \x7b\x7b ref(dbt_model) \x7d\x7d",
  "),", "",
  "alteryx_nulls AS (",
  "    SELECT",
  "        COUNT(*) AS total_records,",
  "        SUM(CASE WHEN \x7b\x7b column_name \x7d\x7d IS NULL THEN 1 ELSE 0 END) AS null_count",
  "    FROM \x7b\x7b alteryx_source \x7d\x7d",
  "),", "",
  "comparison AS (",
  "    SELECT",
  "        '\x7b\x7b dbt_model \x7d\x7d' AS model_name,",
  "        '\x7b\x7b column_name \x7d\x7d' AS column_name,",
  "        d.null_count AS dbt_null_count,",
  "        a.null_count AS alteryx_null_count,",
  "        ABS(d.null_count - a.null_count) AS null_diff",
  "    FROM dbt_nulls d",
  "    CROSS JOIN alteryx_nulls a",
  ")", "",
  "SELECT *",
  "FROM comparison",
  "WHERE null_diff > 0", "",
  "\x7b% endmacro %\x7d"]

def reportMacro : String := lines [
  "\x7b% macro generate_validation_report(models) %\x7d",
  "\x7b#",
  "    Macro to generate a comprehensive validation report.", "",
  "    Args:",
  "        models: List of model names to validate", "",
  "    Returns:",
  "        Combined validation results",
  "#\x7d", "",
  "\x7b% for model in models %\x7d",
  "SELECT",
  "    '\x7b\x7b model \x7d\x7d' AS model_name,",
  "    'record_count' AS validation_type,",
  "    CASE WHEN count_diff = 0 THEN 'PASS' ELSE 'FAIL' END AS status,",
  "    count_diff AS difference,",
  "    CURRENT_TIMESTAMP AS validated_at",
  "FROM (",
  "    SELECT ABS(",
  "        (SELECT COUNT(*) FROM \x7b\x7b ref(model) \x7d\x7d) -",
  "        -- TODO: Replace with Alteryx source count",
  "        0",
  "    ) AS count_diff",
  ")",
  "\x7b% if not loop.last %\x7dUNION ALL\x7b% endif %\x7d",
  "\x7b% endfor %\x7d", "",
  "\x7b% endmacro %\x7d"]

/-- All macros of the validation. -/
def macros : String := lines [countMacro, "", "", completenessMacro, "", "", reportMacro, ""]

def testSettings : String := lines [
  "version: 2", "",
  "# Validation test configuration",
  "# These tests compare DBT outputs against Alteryx outputs",
  "# during the parallel validation period", "",
  "# Tag all validation tests for easy selection",
  "# Run with: dbt test --select tag:validation", "",
  "seeds:",
  "  - name: alteryx_expected_counts",
  "    description: \"Expected record counts from Alteryx outputs for validation\"",
  "    config:",
  "      tags: ['validation']",
  "    columns:",
  "      - name: model_name",
  "        description: \"Name of the DBT model being validated\"",
  "      - name: expected_count",
  "        description: \"Expected record count from Alteryx\"",
  "      - name: layer",
  "        description: \"Medallion layer (bronze, silver, gold)\"",
  "      - name: validation_date",
  "        description: \"Date of the Alteryx run being compared\"", "",
  "# Example seed data file: seeds/alteryx_expected_counts.csv",
  "# model_name,expected_count,layer,validation_date",
  "# stg_customers,10000,bronze,2024-01-15",
  "# int_customer_orders,8500,silver,2024-01-15",
  "# fct_daily_sales,365,gold,2024-01-15", ""]

/-- The table of expected counts. -/
def seedTable : String := lines [
  "model_name,expected_count,layer,validation_date,notes",
  "# Add your Alteryx output counts below",
  "# stg_customers,10000,bronze,2024-01-15,Customer master data",
  "# int_customer_orders,8500,silver,2024-01-15,Joined customer orders",
  "# fct_daily_sales,365,gold,2024-01-15,Daily aggregated sales", ""]

end Replatform.Validation
