import Replatform.Text.Basic
/-!
# Formats of dates

Both platforms write a date format as text with specifiers of a percent sign and a letter, but
some letters differ. The specifiers are replaced one kind after the other, in the order of the
table.
-/

namespace Replatform.Formula

/-- The specifiers of the designer and those of Trino, in the order of replacement. -/
def dateSpecifiers : List (String × String) :=
  [("%Y", "%Y"), ("%y", "%y"), ("%m", "%m"), ("%d", "%d"), ("%e", "%e"), ("%j", "%j"),
   ("%H", "%H"), ("%M", "%i"), ("%S", "%s"), ("%f", "%f"), ("%B", "%M"), ("%b", "%b"),
   ("%A", "%W"), ("%a", "%a"), ("%p", "%p"), ("%I", "%I"), ("%U", "%U"), ("%W", "%v"),
   ("%w", "%w"), ("%u", "%u"), ("%z", "%z"), ("%Z", "%Z")]

/-- A date format in the specifiers of SQL. -/
def convertDateFormat (format : String) : String :=
  String.ofList <| dateSpecifiers.foldl
    (fun s (spec, sql) => Text.replaceAll spec.toList sql.toList s) format.toList

end Replatform.Formula
