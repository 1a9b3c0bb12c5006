/-!
# The functions of the formula language

Each function of the designer's formula language with its counterpart in Trino SQL: a constant,
a call of another name with the same arguments, a pattern with places for the arguments, or
nothing, when the call needs a look by hand. The order of the table matters: of the calls that
can be converted next, one of the function that comes first here is taken.
-/

namespace Replatform.Formula

/-- A piece of an SQL pattern: text that is kept, or the place of an argument. -/
inductive Piece
  | text (s : String)
  | arg (i : Nat)
deriving DecidableEq, Repr

instance : Coe String Piece := ⟨.text⟩

instance (n : Nat) : OfNat Piece n := ⟨.arg n⟩

/-- The SQL counterpart of a function. -/
inductive Target
  /-- No counterpart: the call is marked, or has a rule of its own. -/
  | manual
  /-- The same SQL whatever the arguments. -/
  | constant (sql : String)
  | call (name : String)
  /-- A pattern with the arguments in their places. -/
  | pattern (pieces : List Piece)
deriving DecidableEq, Repr

/-- A function of the formula language. No arity means any number of arguments. -/
structure Function where
  name : String
  arity : Option Nat
  target : Target
deriving DecidableEq, Repr

/-- A function that becomes a call with the same arguments. -/
def renamed (name sql : String) (arity : Nat) : Function := ⟨name, some arity, .call sql⟩

/-- A function of any number of arguments that becomes a call with the same arguments. -/
def variadic (name sql : String) : Function := ⟨name, none, .call sql⟩

/-- A function without arguments. -/
def constant (name sql : String) : Function := ⟨name, some 0, .constant sql⟩

/-- A function whose arguments are placed in a pattern. -/
def pattern (name : String) (arity : Nat) (pieces : List Piece) : Function :=
  ⟨name, some arity, .pattern pieces⟩

/-- A function that has no SQL. -/
def manual (name : String) (arity : Option Nat) : Function := ⟨name, arity, .manual⟩

/-- The pattern of a total over all rows up to the current one. -/
def running (sql : String) : List Piece :=
  [.text (sql ++ "("), 0, ") OVER (ORDER BY 1 ROWS UNBOUNDED PRECEDING)"]

/-- All functions, in the order in which they are tried. -/
def functions : List Function :=
  [ -- text
    renamed "Trim" "TRIM" 1,
    renamed "TrimLeft" "LTRIM" 1,
    renamed "TrimRight" "RTRIM" 1,
    pattern "Left" 2 ["SUBSTR(", 0, ", 1, ", 1, ")"],
    pattern "Right" 2 ["SUBSTR(", 0, ", LENGTH(", 0, ") - ", 1, " + 1)"],
    renamed "Substring" "SUBSTR" 3,
    renamed "Length" "LENGTH" 1,
    renamed "UpperCase" "UPPER" 1,
    renamed "LowerCase" "LOWER" 1,
    renamed "Proper" "INITCAP" 1,
    renamed "PadLeft" "LPAD" 3,
    renamed "PadRight" "RPAD" 3,
    renamed "Replace" "REPLACE" 3,
    pattern "ReplaceFirst" 3 ["REGEXP_REPLACE(", 0, ", ", 1, ", ", 2, ", 1)"],
    variadic "Concat" "CONCAT",
    renamed "ReverseString" "REVERSE" 1,
    pattern "Contains" 2 ["STRPOS(", 0, ", ", 1, ") > 0"],
    renamed "StartsWith" "STARTS_WITH" 2,
    renamed "EndsWith" "ENDS_WITH" 2,
    renamed "FindString" "STRPOS" 2,
    pattern "CountWords" 1 ["CARDINALITY(SPLIT(", 0, ", ' '))"],
    pattern "GetWord" 2 ["SPLIT(", 0, ", ' ')[", 1, "]"],
    renamed "MD5_ASCII" "MD5" 1,
    renamed "MD5_UNICODE" "MD5" 1,
    -- numbers
    renamed "Abs" "ABS" 1,
    renamed "Ceil" "CEIL" 1,
    renamed "Ceiling" "CEIL" 1,
    renamed "Floor" "FLOOR" 1,
    renamed "Round" "ROUND" 2,
    renamed "Pow" "POWER" 2,
    renamed "Power" "POWER" 2,
    renamed "Sqrt" "SQRT" 1,
    renamed "Exp" "EXP" 1,
    renamed "Log" "LN" 1,
    renamed "Log10" "LOG10" 1,
    renamed "Log2" "LOG2" 1,
    renamed "Mod" "MOD" 2,
    renamed "Sign" "SIGN" 1,
    renamed "Sin" "SIN" 1,
    renamed "Cos" "COS" 1,
    renamed "Tan" "TAN" 1,
    renamed "ASin" "ASIN" 1,
    renamed "ACos" "ACOS" 1,
    renamed "ATan" "ATAN" 1,
    renamed "ATan2" "ATAN2" 2,
    constant "Rand" "RAND()",
    pattern "RandInt" 2 ["FLOOR(RAND() * (", 1, " - ", 0, " + 1)) + ", 0],
    constant "PI" "PI()",
    variadic "Min" "LEAST",
    variadic "Max" "GREATEST",
    -- conversions
    pattern "ToNumber" 1 ["CAST(", 0, " AS DOUBLE)"],
    pattern "ToInteger" 1 ["CAST(", 0, " AS BIGINT)"],
    pattern "ToString" 1 ["CAST(", 0, " AS VARCHAR)"],
    renamed "CharToInt" "CODEPOINT" 1,
    pattern "IntToHex" 1 ["TO_HEX(CAST(", 0, " AS VARBINARY))"],
    pattern "HexToNumber" 1 ["FROM_HEX(", 0, ")"],
    pattern "ConvertToDate" 1 ["CAST(", 0, " AS DATE)"],
    pattern "ConvertToDateTime" 1 ["CAST(", 0, " AS TIMESTAMP)"],
    pattern "BinToInt" 1 ["FROM_BASE(", 0, ", 2)"],
    -- dates and times
    constant "DateTimeNow" "CURRENT_TIMESTAMP",
    constant "DateTimeToday" "CURRENT_DATE",
    renamed "DateTimeYear" "YEAR" 1,
    renamed "DateTimeMonth" "MONTH" 1,
    renamed "DateTimeDay" "DAY" 1,
    renamed "DateTimeHour" "HOUR" 1,
    renamed "DateTimeMinutes" "MINUTE" 1,
    renamed "DateTimeSeconds" "SECOND" 1,
    renamed "DateTimeDayOfWeek" "DAY_OF_WEEK" 1,
    renamed "DateTimeDayOfYear" "DAY_OF_YEAR" 1,
    renamed "DateTimeQuarter" "QUARTER" 1,
    renamed "DateTimeWeekOfYear" "WEEK" 1,
    pattern "DateTimeAdd" 3 ["DATE_ADD(", 2, ", ", 1, ", ", 0, ")"],
    pattern "DateTimeDiff" 3 ["DATE_DIFF(", 2, ", ", 0, ", ", 1, ")"],
    pattern "DateTimeFormat" 2 ["DATE_FORMAT(", 0, ", ", 1, ")"],
    pattern "DateTimeParse" 2 ["DATE_PARSE(", 0, ", ", 1, ")"],
    pattern "DateTimeTrim" 2 ["DATE_TRUNC(", 1, ", ", 0, ")"],
    pattern "DateTimeFirstOfMonth" 1 ["DATE_TRUNC('month', ", 0, ")"],
    pattern "DateTimeLastOfMonth" 1 ["LAST_DAY_OF_MONTH(", 0, ")"],
    -- conditions
    pattern "IIF" 3 ["CASE WHEN ", 0, " THEN ", 1, " ELSE ", 2, " END"],
    pattern "IsNull" 1 ["(", 0, " IS NULL)"],
    pattern "IsEmpty" 1 ["(", 0, " = '')"],
    pattern "IsNumber" 1 ["TRY_CAST(", 0, " AS DOUBLE) IS NOT NULL"],
    pattern "IsString" 1 ["TYPEOF(", 0, ") = 'varchar'"],
    constant "Null" "NULL",
    variadic "Coalesce" "COALESCE",
    renamed "NullIf" "NULLIF" 2,
    manual "Switch" none,
    -- regular expressions
    renamed "REGEX_Match" "REGEXP_LIKE" 2,
    renamed "REGEX_Replace" "REGEXP_REPLACE" 3,
    pattern "REGEX_CountMatches" 2 ["CARDINALITY(REGEXP_EXTRACT_ALL(", 0, ", ", 1, "))"],
    -- shapes
    renamed "Distance" "ST_DISTANCE" 2,
    renamed "Centroid" "ST_CENTROID" 1,
    renamed "ST_Area" "ST_AREA" 1,
    renamed "ST_Contains" "ST_CONTAINS" 2,
    renamed "ST_Intersects" "ST_INTERSECTS" 2,
    renamed "ST_Within" "ST_WITHIN" 2,
    renamed "ST_Buffer" "ST_BUFFER" 2,
    variadic "Average" "AVG",
    -- files
    manual "FileExists" (some 1),
    manual "FileGetDir" (some 1),
    pattern "FileGetExt" 1 ["REGEXP_EXTRACT(", 0, ", '\\.([^.]+)$', 1)"],
    pattern "FileGetName" 1 ["REGEXP_EXTRACT(", 0, ", '([^/\\\\\\\\]+)$', 1)"],
    -- rows and running totals
    constant "RecordID" "ROW_NUMBER() OVER ()",
    constant "RowCount" "COUNT(*) OVER ()",
    pattern "RunningSum" 1 (running "SUM"),
    pattern "RunningCount" 1 (running "COUNT"),
    pattern "RunningAvg" 1 (running "AVG"),
    pattern "RunningMin" 1 (running "MIN"),
    pattern "RunningMax" 1 (running "MAX"),
    -- generated values
    pattern "GenerateRandomString" 1
      ["SUBSTR(TO_HEX(SHA256(CAST(RAND() AS VARBINARY))), 1, ", 0, ")"],
    constant "UUID" "UUID()",
    -- what depends on the running workflow or on the machine
    manual "GetVal" (some 1),
    manual "SetVal" (some 2),
    manual "GroupBy" (some 1),
    manual "Message" (some 1),
    manual "Sleep" (some 1),
    manual "FindIP" (some 1),
    manual "GetIPAddress" (some 0) ]

end Replatform.Formula
