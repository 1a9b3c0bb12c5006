import Replatform.Catalog.Plugin
import Replatform.Number.Binary64
/-!
# Project macros

The macros of the generated project that stand for tools. A macro takes the relations it works on
and parameters, each filled from a setting of the tool. Where a setting decides between variants
of a macro, the alternates give the macro of each variant.
-/

namespace Replatform.Catalog

/-- A project macro and how it is called for a tool. -/
structure ProjectMacro where
  tool : String
  name : String
  /-- The file that defines the macro, without its suffix. -/
  file : String
  description : String
  /-- Settings of the tool, each with the parameter that takes it. -/
  parameters : List (String × String)
  /-- The macro works on a relation. -/
  relation : Bool := true
  /-- Several columns can be added at once. -/
  manyColumns : Bool := false
  rightRelation : Bool := false
  /-- The macro works on any number of relations. -/
  manyRelations : Bool := false
  alternates : List (String × String) := []
deriving DecidableEq, Repr

/-- A macro that works on one relation. -/
def toolMacro (tool name file description : String) (parameters : List (String × String)) :
    ProjectMacro := { tool, name, file, description, parameters }

/-- The project macros, by the tools that they stand for. -/
def projectMacros : List ProjectMacro :=
  [toolMacro "Filter" "filter_expression" "filter_helpers" "Filter rows based on condition"
     [("expression", "condition")],
   { toolMacro "Formula" "add_calculated_column" "formula_helpers"
     "Add calculated columns with expressions" [("formulas", "columns_to_add")] with
     manyColumns := true },
   toolMacro "Multi-Field Formula" "add_multiple_columns" "formula_helpers"
     "Add multiple calculated columns" [("formulas", "columns")],
   toolMacro "Select" "select_columns" "select_transform" "Select and optionally rename columns"
     [("selected_fields", "columns")],
   toolMacro "Sort" "sort_data" "select_transform" "Sort data by columns"
     [("sort_fields", "order_by")],
   { toolMacro "Sample" "sample_first_n" "sample_limit" "Sample first N records"
     [("sample_size", "n")] with
     alternates := [("random", "sample_random_n"), ("percent", "sample_random_percent")] },
   toolMacro "Unique" "deduplicate" "deduplicate" "Remove duplicate records"
     [("selected_fields", "partition_by")],
   toolMacro "Data Cleansing" "clean_string" "null_if_empty" "Clean and standardize string data"
     [("column", "column_name")],
   toolMacro "Record ID" "generate_record_id" "generate_surrogate_key" "Add sequential record IDs"
     [],
   toolMacro "Auto Field" "auto_type_columns" "select_transform"
     "Automatically detect and set field types" [],
   toolMacro "Multi-Row Formula" "lag_lead" "window_rank" "Reference previous/next rows"
     [("expression", "expression"), ("num_rows", "offset")],
   toolMacro "Find Replace" "find_replace_simple" "find_replace" "Find and replace values"
     [("column", "column_name"), ("find_value", "find_text"), ("replace_value", "replace_text")],
   toolMacro "Imputation" "impute_with_value" "imputation" "Fill missing values"
     [("column", "column_name"), ("fill_value", "fill_value")],
   toolMacro "Select Records" "select_records_by_range" "sample_limit"
     "Select specific record ranges" [("start_row", "start_index"), ("end_row", "end_index")],
   toolMacro "Tile" "tile_equal_records" "tile_bucket" "Divide data into tiles"
     [("num_tiles", "num_tiles")],
   { toolMacro "Join" "left_join" "join_union" "Join two datasets"
     [("join_keys", "join_columns"), ("join_type", "join_type")] with
     rightRelation := true
     alternates := [("INNER", "inner_join"), ("LEFT", "left_join"), ("RIGHT", "right_join"),
       ("FULL", "full_outer_join")] },
   { toolMacro "Union" "union_all" "join_union" "Stack datasets vertically" [] with
     manyRelations := true },
   { toolMacro "Append Fields" "cross_join" "join_union" "Cartesian product (cross join)" [] with
     rightRelation := true },
   { toolMacro "Join Multiple" "join_multiple" "join_union" "Join multiple tables"
     [("join_specs", "joins")] with manyRelations := true },
   toolMacro "Summarize" "summarize" "aggregation" "Aggregate data with GROUP BY"
     [("group_by_fields", "group_by"), ("aggregations", "agg_fields")],
   toolMacro "Transpose" "unpivot" "pivot" "Convert columns to rows"
     [("key_columns", "id_cols"), ("value_columns", "value_cols")],
   toolMacro "Cross Tab" "pivot" "pivot" "Convert rows to columns (pivot)"
     [("group_by", "id_cols"), ("pivot_column", "pivot_col"), ("value_column", "value_col")],
   toolMacro "Count Records" "count_records" "aggregation" "Count number of records" [],
   toolMacro "Running Total" "running_total" "running_total" "Calculate cumulative sum"
     [("column", "column_name"), ("partition_by", "partition_by"), ("order_by", "order_by")],
   toolMacro "Weighted Average" "weighted_average" "aggregation" "Calculate weighted average"
     [("value_column", "value_col"), ("weight_column", "weight_col")],
   toolMacro "Arrange" "sort_data" "select_transform" "Sort and reorder data"
     [("sort_fields", "order_by")],
   { toolMacro "RegEx" "regex_extract" "regex_functions" "Extract text using regex"
     [("column", "column_name"), ("pattern", "pattern")] with
     alternates := [("extract", "regex_extract"), ("replace", "regex_replace"),
       ("match", "regex_match")] },
   toolMacro "Text To Columns" "split_to_columns" "split_unnest" "Split delimited text into columns"
     [("column", "column_name"), ("delimiter", "delimiter")],
   toolMacro "JSON Parse" "json_extract_path_text" "formula_helpers" "Parse JSON data"
     [("column", "json_column"), ("path", "path")],
   toolMacro "Date Time Parse" "to_timestamp" "safe_cast" "Parse date/time strings"
     [("column", "column_name"), ("format", "format_string")],
   { toolMacro "Generate Rows" "date_spine" "date_spine" "Generate sequential rows/dates"
     [("start_value", "start_date"), ("end_value", "end_date")] with relation := false }]

/-- The setting that decides between the variants of a tool. -/
def variantSetting? : String → Option String
  | "Join" => some "join_type"
  | "Sample" => some "sample_type"
  | "RegEx" => some "operation"
  | _ => none

/-- The spelling of a variant in the table. Kinds of join are in capitals there. -/
def variantKey (tool variant : String) : String :=
  if tool = "Join" then String.ofList (Text.upper variant.toList) else variant

/-- The variant that the settings choose. -/
def variant? (tool : String) (settings : List (String × String)) : Option String := do
  let setting ← variantSetting? tool
  let variant ← settings.lookup setting
  return variantKey tool variant

/-- The macro of a tool, in the variant that the settings choose. -/
def macroFor? (tool : String) (settings : List (String × String)) : Option ProjectMacro :=
  (projectMacros.find? (·.tool == tool)).map fun m =>
    match (variant? tool settings).bind (List.lookup · m.alternates) with
    | some name => { m with name }
    | none => m

/-- The files of the macros, each once. -/
def macroFiles : List String := (projectMacros.map (·.file)).eraseDups

/-- The tools whose macros are in a file. -/
def toolsOf (file : String) : List String := (projectMacros.filter (·.file == file)).map (·.tool)

/-- How many tools there are, how many have a macro, and in how many files. -/
structure Coverage where
  tools : Nat
  covered : Nat
  files : Nat
deriving DecidableEq, Repr

def coverage : Coverage := ⟨toolNames.length, projectMacros.length, macroFiles.length⟩

/-- The share of the tools with a macro, in percent to one place. -/
def Coverage.percent (c : Coverage) : String :=
  (Number.Binary64.ofRatio false (100 * c.covered) c.tools).writeOnePlace

end Replatform.Catalog
