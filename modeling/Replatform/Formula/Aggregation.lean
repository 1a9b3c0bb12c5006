import Replatform.Formula.Convert
/-!
# Aggregations

The aggregations of a summary, each as a call in SQL or as a pattern in which the first place is
the field and the others are further arguments.
-/

namespace Replatform.Formula

/-- The SQL of the actions of a summary. -/
def aggregations : List (String × Target) :=
  [("Sum", .call "SUM"),
   ("Count", .call "COUNT"),
   ("CountDistinct", .pattern ["COUNT(DISTINCT ", 0, ")"]),
   ("CountNonNull", .call "COUNT"),
   ("CountNull", .pattern ["SUM(CASE WHEN ", 0, " IS NULL THEN 1 ELSE 0 END)"]),
   ("CountBlank", .pattern ["SUM(CASE WHEN ", 0, " = '' THEN 1 ELSE 0 END)"]),
   ("Min", .call "MIN"),
   ("Max", .call "MAX"),
   ("Avg", .call "AVG"),
   ("First", .pattern ["FIRST_VALUE(", 0, ") OVER ()"]),
   ("Last", .pattern ["LAST_VALUE(", 0, ") OVER ()"]),
   ("Concat", .pattern ["LISTAGG(", 0, ", ',')"]),
   ("GroupConcat", .pattern ["LISTAGG(", 0, ", ',')"]),
   ("Mode", .pattern ["APPROX_MOST_FREQUENT(", 0, ", 1)"]),
   ("StdDev", .call "STDDEV"),
   ("StdDevP", .call "STDDEV_POP"),
   ("Variance", .call "VARIANCE"),
   ("VarianceP", .call "VAR_POP"),
   ("Median", .pattern ["APPROX_PERCENTILE(", 0, ", 0.5)"]),
   ("Percentile", .pattern ["APPROX_PERCENTILE(", 0, ", ", 1, ")"]),
   ("PercentileInc", .pattern ["APPROX_PERCENTILE(", 0, ", ", 1, ")"]),
   ("PercentileExc", .pattern ["APPROX_PERCENTILE(", 0, ", ", 1, ")"]),
   ("Quartile", .pattern ["APPROX_PERCENTILE(", 0, ", ARRAY[0.25, 0.5, 0.75])"]),
   ("SpatialCount", .call "COUNT"),
   ("SpatialUnion", .pattern ["ST_UNION(", 0, ")"]),
   ("FinancialSum", .call "SUM"),
   ("Histogram", .pattern ["HISTOGRAM(", 0, ")"]),
   ("ProcessName", .pattern ["ARBITRARY(", 0, ")"]),
   ("SumDistinct", .pattern ["SUM(DISTINCT ", 0, ")"]),
   ("AvgDistinct", .pattern ["AVG(DISTINCT ", 0, ")"])]

/-- The text of a pattern up to its first parenthesis. -/
def patternHead : List Piece → List Char
  | .text s :: _ => s.toList.takeWhile (· != '(')
  | _ => []

/-- The aggregation `name` of `field` as SQL. When a further argument is missing, only the
function of the pattern is kept; an unknown aggregation is marked. -/
def convertAggregation (name field : String) (extra : List String) : String :=
  match aggregations.lookup name with
  | some (.call sql) => String.ofList (writeCall sql.toList [field.toList])
  | some (.pattern ps) =>
    match instantiate ps (field.toList :: extra.map String.toList) with
    | some sql => String.ofList sql
    | none => String.ofList (writeCall (patternHead ps) [field.toList])
  | _ => "/* TODO: " ++ name ++ " */ " ++ field

end Replatform.Formula
