/-!
# Sketches of SQL

For each tool a sketch of what does its work on the new platform: a line of SQL, an expression of
the project language, the project macro that stands for it and the file of that macro, a line in
the dialect of the platform, and a description.
-/

namespace Replatform.Catalog

/-- An expression of the project language in its braces. -/
def jinja (body : String) : String := "\x7b\x7b " ++ body ++ " \x7d\x7d"

/-- What does the work of a tool on the new platform. -/
structure Sketch where
  sql : String
  expression : String
  /-- The project macro and its file, if there is one. -/
  macroOf : Option (String × String)
  dialect : Option String
  description : String
deriving DecidableEq, Repr

/-- The sketch of a tool that a project macro stands for. -/
def macroSketch (name arguments file sql dialect description : String) : Sketch :=
  ⟨sql, jinja (name ++ "(" ++ arguments ++ ")"), some (name, file), some dialect, description⟩

/-- The sketches, by the names of the tools. -/
def sketches : List (String × Sketch) :=
  [("Input Data", ⟨"SELECT * FROM \x7bcatalog\x7d.\x7bschema\x7d.\x7btable\x7d",
     jinja "source('schema', 'table')", none, some "SELECT * FROM catalog.schema.table",
     "Data source reference"⟩),
   ("Filter", macroSketch "filter_expression" "relation, condition" "filter_helpers"
     "WHERE \x7bcondition\x7d" "WHERE condition" "Filter rows based on condition"),
   ("Formula", macroSketch "add_calculated_column" "relation, column_name, expression"
     "formula_helpers" "SELECT *, \x7bexpression\x7d AS \x7bnew_field\x7d FROM ..."
     "SELECT *, expression AS new_field" "Calculate new fields or modify existing"),
   ("Multi-Field Formula", macroSketch "add_multiple_columns" "relation, columns" "formula_helpers"
     "SELECT *, \x7bexpression\x7d AS \x7bfield1\x7d, ... FROM ..."
     "SELECT *, expr1 AS field1, expr2 AS field2" "Apply formula across multiple fields"),
   ("Select", macroSketch "select_columns" "relation, columns" "select_transform"
     "SELECT \x7bcolumns\x7d FROM ..." "SELECT col1, col2 AS alias"
     "Select, rename, or reorder columns"),
   ("Sort", macroSketch "sort_data" "relation, order_by" "select_transform"
     "ORDER BY \x7bcolumns\x7d" "ORDER BY column ASC|DESC NULLS FIRST|LAST" "Sort data by columns"),
   ("Join", macroSketch "left_join" "left_relation, right_relation, join_columns" "join_union"
     "\x7bjoin_type\x7d JOIN \x7bright_table\x7d ON \x7bcondition\x7d"
     "LEFT|RIGHT|INNER|FULL JOIN table ON condition" "Join two datasets"),
   ("Union", macroSketch "union_all" "relations" "join_union" "UNION ALL"
     "SELECT ... UNION ALL SELECT ..." "Stack datasets vertically"),
   ("Append Fields", macroSketch "cross_join" "left_relation, right_relation" "join_union"
     "CROSS JOIN" "CROSS JOIN table" "Cartesian join (append all fields)"),
   ("Summarize", macroSketch "summarize" "relation, group_by, agg_fields" "aggregation"
     "SELECT \x7bgroup_by\x7d, \x7baggregations\x7d FROM ... GROUP BY \x7bgroup_by\x7d"
     "SELECT col, SUM(x), COUNT(*) FROM t GROUP BY col" "Aggregate data with GROUP BY"),
   ("Transpose", macroSketch "unpivot" "relation, id_cols, value_cols" "pivot"
     "CROSS JOIN UNNEST(...)"
     "SELECT id, key, value FROM t CROSS JOIN UNNEST(ARRAY['a','b'], ARRAY[col_a, col_b]) AS x(key, value)"
     "Convert columns to rows (Trino UNNEST)"),
   ("Cross Tab", macroSketch "pivot" "relation, id_cols, pivot_col, value_col" "pivot"
     "Conditional aggregation with CASE WHEN"
     "SELECT id, SUM(CASE WHEN cat='A' THEN val END) AS a, SUM(CASE WHEN cat='B' THEN val END) AS b FROM t GROUP BY id"
     "Convert rows to columns (pivot via conditional aggregation)"),
   ("Unique", macroSketch "deduplicate" "relation, partition_by, order_by" "deduplicate"
     "SELECT DISTINCT ... or ROW_NUMBER() OVER (...)"
     "SELECT DISTINCT col1, col2 FROM t -- or use ROW_NUMBER() OVER (PARTITION BY key ORDER BY col) = 1"
     "Remove duplicates"),
   ("Sample", macroSketch "sample_first_n" "relation, n" "sample_limit"
     "LIMIT \x7bn\x7d or TABLESAMPLE"
     "SELECT * FROM t TABLESAMPLE BERNOULLI(10) -- 10% sample, or use LIMIT n"
     "Sample subset of data"),
   ("Record ID", macroSketch "generate_record_id" "relation" "generate_surrogate_key"
     "ROW_NUMBER() OVER (ORDER BY ...)" "ROW_NUMBER() OVER (ORDER BY column) AS row_id"
     "Add sequential row numbers"),
   ("Multi-Row Formula", macroSketch "lag_lead"
     "relation, column_name, offset, partition_by, order_by" "window_rank"
     "LAG() / LEAD() window functions"
     "LAG(value, 1) OVER (PARTITION BY group ORDER BY date) AS prev_value"
     "Reference previous/next rows"),
   ("Running Total", macroSketch "running_total" "relation, column_name, partition_by, order_by"
     "running_total" "SUM() OVER (ORDER BY ... ROWS UNBOUNDED PRECEDING)"
     "SUM(amount) OVER (PARTITION BY customer ORDER BY date ROWS UNBOUNDED PRECEDING) AS running_total"
     "Cumulative sum"),
   ("RegEx", macroSketch "regex_extract" "relation, column_name, pattern" "regex_functions"
     "REGEXP_EXTRACT(), REGEXP_REPLACE()"
     "REGEXP_EXTRACT(string, pattern, group), REGEXP_REPLACE(string, pattern, replacement)"
     "Regular expression operations (Trino syntax)"),
   ("Text To Columns", macroSketch "split_to_columns" "relation, column_name, delimiter"
     "split_unnest" "SPLIT() with UNNEST()"
     "SELECT id, part FROM t CROSS JOIN UNNEST(SPLIT(text_col, ',')) AS x(part)"
     "Split text into multiple rows (Trino UNNEST)"),
   ("Data Cleansing", macroSketch "clean_string" "relation, column_name" "null_if_empty"
     "TRIM(), COALESCE(), NULLIF()"
     "TRIM(col), COALESCE(col, 'default'), NULLIF(col, ''), LOWER(col), UPPER(col)"
     "Clean and standardize data"),
   ("Find Replace", macroSketch "find_replace_simple"
     "relation, column_name, find_text, replace_text" "find_replace" "REPLACE(), CASE WHEN"
     "REPLACE(string, search, replacement), TRANSLATE(string, from, to)" "Find and replace values"),
   ("Count Records", macroSketch "count_records" "relation" "aggregation" "SELECT COUNT(*)"
     "SELECT COUNT(*) AS record_count FROM table" "Count number of records"),
   ("Browse", ⟨"-- Output/visualization", "-- Final output (no SQL needed)", none,
     some "-- Preview only, no Trino equivalent", "View data output"⟩),
   ("Output Data", ⟨"CREATE TABLE AS SELECT or INSERT INTO", jinja "config(materialized='table')",
     none, some "CREATE TABLE catalog.schema.table AS SELECT ... -- or INSERT INTO",
     "Write to destination"⟩)]

/-- The sketch of a tool; for a tool without one, that its logic has to be written. -/
def sketchOf (tool : String) : Sketch :=
  (sketches.lookup tool).getD
    ⟨"-- Custom logic required", "-- Custom logic required", none, none,
      "No direct mapping for " ++ tool⟩

end Replatform.Catalog
