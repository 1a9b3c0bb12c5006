import Replatform.Sample.Workflow
/-!
# Sample macros

A macro with one entry and two exits, for the trials that follow references to macros.
-/

namespace Replatform.Sample

def macroParts : List Part :=
  [tool 1 "MacroInput" "Input Records",
   tool 2 "Filter" "Not Null"
     (plain "Expression" "[id] &gt; 0"),
   tool 3 "Formula" "Clean"
     (leaf "FormulaField"
       [("field", "clean"), ("expression", "[a]+[b]"), ("type", "String")]),
   tool 4 "AlteryxSelect" "Pick"
     (selectField "id" true none ++ selectField "clean" true none),
   tool 5 "Sort" "Order"
     (leaf "SortInfo" [("field", "id"), ("order", "Ascending")]),
   tool 6 "Summarize" "Agg"
     (summaryField "id" "GroupBy" none ++ summaryField "clean" "Count" (some "n")),
   tool 7 "MacroOutput" "Valid Output",
   tool 8 "MacroOutput" "Reject Output"]

def macroDocument (name : String) : String :=
  document (plain "MetaInfo" (plain "Name" name ++ plain "Description" "Validates rows"))
    macroParts
    ([⟨1, 2, "Output", "Input"⟩, ⟨2, 3, "True", "Input"⟩] ++ wires [3, 4, 5, 6, 7]
      ++ [⟨2, 8, "False", "Input"⟩])

end Replatform.Sample
