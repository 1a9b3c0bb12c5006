import Replatform.Text.Case
/-!
# Functions that add up

The functions of SQL for the ways in which a summary adds up a field. Some entries are not the name
of a function alone; they stand as they are.
-/

namespace Replatform.Catalog

/-- The functions of SQL, by the actions of a summary. -/
def sumFunctions : List (String × String) :=
  [("Sum", "SUM"), ("Count", "COUNT"), ("CountDistinct", "COUNT(DISTINCT"), ("Min", "MIN"),
   ("Max", "MAX"), ("Avg", "AVG"), ("First", "FIRST_VALUE"), ("Last", "LAST_VALUE"),
   ("Concat", "STRING_AGG"), ("CountNonNull", "COUNT"),
   ("CountNull", "SUM(CASE WHEN \x7bfield\x7d IS NULL THEN 1 ELSE 0 END)"),
   ("StdDev", "STDDEV"), ("Variance", "VARIANCE"), ("Median", "PERCENTILE_CONT(0.5)")]

/-- The function for a way to add up; a way without one is written in capitals. -/
def sumFunction (action : String) : String :=
  (sumFunctions.lookup action).getD (String.ofList (Text.upper action.toList))

def sumCall (action field : String) : String :=
  let function := sumFunction action
  if Text.endsWith "(DISTINCT".toList function.toList then function ++ " " ++ field ++ ")"
  else function ++ "(" ++ field ++ ")"

end Replatform.Catalog
