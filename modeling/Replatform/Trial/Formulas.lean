import Replatform.Formula.Aggregation
import Replatform.Formula.DateFormat
import Replatform.Trial.Setting
/-!
# Trials of formulas

Formulas with all kinds of calls, converted in turn, and every aggregation of one column.
-/

namespace Replatform.Trial

def formulas : List String :=
  ["IIF([amount] > 0 && !IsNull([name]), Trim([name]), \"N/A\")",
   "Left([col], 3) + Right([col], 2) + Substring([col], 1, 4)",
   "Switch([status], \"unk\", \"A\", 1, \"B\", 2, \"C\", 3)",
   "DateTimeAdd([dt], 7, \"days\") + DateTimeDiff([a], [b], \"days\")",
   "Contains([x], \"foo\") || StartsWith([x], \"bar\")",
   "REGEX_Replace([s], \"[0-9]+\", \"\") + REGEX_Match([s], \"abc\")",
   "Round(Abs([v]) * Pow(2, 3), 2) + Mod([v], 5)",
   "IIF(IsEmpty([s]), Null(), Uppercase(Lowercase([s])))",
   "Min([a], [b], [c]) + Max([a], [b], [c]) + Coalesce([a], [b])",
   "ToNumber([s]) + ToString([n]) + ToInteger([s])",
   "DateTimeFormat([dt], \"%Y-%M-%S\") + DateTimeYear([dt])",
   "FileGetName([p]) + FileGetExt([p])",
   "Switch([a], [b], [c])",
   "GetVal([x]) + FileExists([p])",
   "UnknownFunc([x]) + [a] == [b]"]

/-- The first `n` formulas, round and round, in SQL. -/
def convertedFormulas (n : Nat) : List String :=
  (List.range n).map fun i => (Formula.convert (Sample.byNumber formulas i)).sql

def convertedAggregations : List String :=
  ((Formula.aggregations.map (·.1)) ++ ["NoSuch"]).map fun name =>
    Formula.convertAggregation name "col" ["0.5"]

def formulaTrial : Plan := fun _ n =>
  return textItems (convertedFormulas n.toNat
    ++ [(Formula.convert (Sample.byNumber formulas 0)).sql,
        Formula.convertDateFormat "%Y-%M-%S %H:%W", (Formula.convert "").sql]
    ++ convertedAggregations)

end Replatform.Trial
