import Replatform.Catalog.Category
/-!
# The tools of the designer

A document names the plugin of each tool. This is the table of the plugins: the category of each,
by its full name, and the name under which the tool is known, by the last part of that name.
-/

namespace Replatform.Catalog

/-- Plugins of a library, each of which stands in a part of its own name. -/
def pluginsIn (library : String) (names : List String) : List String :=
  names.map fun name => library ++ "." ++ name ++ "." ++ name

/-- Plugins of the library that comes with the designer. -/
def basePlugins : List String → List String := pluginsIn "AlteryxBasePluginsGui"

/-- Plugins of the library for other stores of data. -/
def connectPlugins : List String → List String := pluginsIn "AlteryxConnectGui"

/-- The plugins of each category, by their full names. -/
def plugins : List (Category × List String) :=
  [(.input, basePlugins ["DbFileInput", "TextInput", "MacroInput", "DateTime", "GenerateRows",
     "Directory"] ++
     connectPlugins ["AzureBlobInput", "S3Input", "SnowflakeInput", "BigQueryInput",
     "RedshiftInput"] ++
     ["AlteryxGuiToolkit.TextBox.TextBox", "LiterxPluginsGui.LiterxInput.LiterxInput"]),
   (.output, basePlugins ["DbFileOutput", "BrowseV2", "MacroOutput"] ++
     connectPlugins ["AzureBlobOutput", "S3Output", "SnowflakeOutput", "BigQueryOutput",
     "RedshiftOutput"]),
   (.preparation, basePlugins ["Filter", "Formula", "MultiFieldFormula", "AlteryxSelect", "Sort",
     "Sample", "Unique", "DataCleansing", "RecordID", "AutoField", "MultiRowFormula", "Imputation",
     "SelectRecords", "Tile"] ++ ["AlteryxBasePluginsGui.RandomSample.Random%Sample"]),
   (.join, basePlugins ["FindReplace", "Join", "Union", "AppendFields", "JoinMultiple", "MakeGroup",
     "Fuzzy"] ++ ["AlteryxSpatialPluginsGui.SpatialMatch.SpatialMatch"]),
   (.transform, basePlugins ["Summarize", "Transpose", "CrossTab", "CountRecords", "RunningTotal",
     "WeightedAverage", "Arrange"]),
   (.parse, basePlugins ["RegEx", "TextToColumns", "XMLParse", "JSONParse", "DateTimeParse",
     "Dynamic"]),
   (.inDatabase, basePlugins ["DbFileInputInDB", "DbFileOutputInDB", "FilterInDB", "FormulaInDB",
     "JoinInDB", "SelectInDB", "SummarizeInDB", "UnionInDB", "DataStreamIn", "DataStreamOut"]),
   (.reporting, basePlugins ["Render", "Email", "Layout", "Table", "Image", "ReportText",
     "InteractiveChart"]),
   (.developer, basePlugins ["RunCommand", "AlteryxRun", "ControlParameter", "Detour", "DetourEnd",
     "Message", "Test"] ++ ["AlteryxBasePluginsGui.Block.BlockUntilDone"]),
   (.container, basePlugins ["ControlContainer"] ++
     ["AlteryxGuiToolkit.ToolContainer.ToolContainer"])]

def categoryOf (plugin : String) : Category :=
  match plugins.find? (·.2.contains plugin) with
  | some (category, _) => category
  | none => .unknown

/-- The names of the tools, by the last part of the name of the plugin. -/
def toolNames : List (String × String) :=
  [("DbFileInput", "Input Data"), ("TextInput", "Text Input"), ("MacroInput", "Macro Input"),
   ("Directory", "Directory"), ("GenerateRows", "Generate Rows"), ("DateTime", "Date Time"),
   ("DbFileOutput", "Output Data"), ("BrowseV2", "Browse"), ("MacroOutput", "Macro Output"),
   ("Filter", "Filter"), ("Formula", "Formula"), ("MultiFieldFormula", "Multi-Field Formula"),
   ("AlteryxSelect", "Select"), ("Sort", "Sort"), ("Sample", "Sample"), ("Unique", "Unique"),
   ("DataCleansing", "Data Cleansing"), ("RecordID", "Record ID"), ("AutoField", "Auto Field"),
   ("MultiRowFormula", "Multi-Row Formula"), ("FindReplace", "Find Replace"),
   ("Imputation", "Imputation"), ("SelectRecords", "Select Records"), ("Tile", "Tile"),
   ("Join", "Join"), ("Union", "Union"), ("AppendFields", "Append Fields"),
   ("JoinMultiple", "Join Multiple"), ("MakeGroup", "Make Group"), ("Fuzzy", "Fuzzy Match"),
   ("Summarize", "Summarize"), ("Transpose", "Transpose"), ("CrossTab", "Cross Tab"),
   ("CountRecords", "Count Records"), ("RunningTotal", "Running Total"),
   ("WeightedAverage", "Weighted Average"), ("Arrange", "Arrange"), ("RegEx", "RegEx"),
   ("TextToColumns", "Text To Columns"), ("XMLParse", "XML Parse"), ("JSONParse", "JSON Parse"),
   ("DateTimeParse", "DateTime Parse"), ("Dynamic", "Dynamic Input/Output"),
   ("DbFileInputInDB", "Input In-DB"), ("DbFileOutputInDB", "Output In-DB"),
   ("FilterInDB", "Filter In-DB"), ("FormulaInDB", "Formula In-DB"), ("JoinInDB", "Join In-DB"),
   ("SelectInDB", "Select In-DB"), ("SummarizeInDB", "Summarize In-DB"),
   ("UnionInDB", "Union In-DB"), ("DataStreamIn", "Data Stream In"),
   ("DataStreamOut", "Data Stream Out"), ("Render", "Render"), ("Email", "Email"),
   ("Layout", "Layout"), ("Table", "Table"), ("Image", "Image"), ("ReportText", "Report Text"),
   ("InteractiveChart", "Interactive Chart"), ("RunCommand", "Run Command"),
   ("AlteryxRun", "Run Alteryx Workflow"), ("ControlParameter", "Control Parameter"),
   ("Detour", "Detour"), ("DetourEnd", "Detour End"), ("Message", "Message"), ("Test", "Test"),
   ("BlockUntilDone", "Block Until Done"), ("ToolContainer", "Tool Container"),
   ("ControlContainer", "Control Container")]

/-- The name of the tool of a plugin: by the table, and the last part of the plugin otherwise. -/
def toolName (plugin : String) : String :=
  if plugin.isEmpty then "Unknown"
  else
    let part := String.ofList (((Text.splitOn ['.'] plugin.toList).getLast?).getD [])
    (toolNames.lookup part).getD part

end Replatform.Catalog
