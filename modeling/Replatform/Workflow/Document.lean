import Replatform.Catalog.Plugin
import Replatform.Files
import Replatform.Markup.Encoding
import Replatform.Markup.Fault
import Replatform.Markup.Writer
import Replatform.Workflow.Basic
/-!
# Workflows in documents

Reading of a workflow from the document that the designer saves. Elements are sought by name
wherever they stand below, since versions of the designer nest them differently; what is not there
stays at its default.

Only numbers can be wrong: the number of a tool and the ends of a connection are whole numbers, a
position is two numbers.
-/

namespace Replatform.Workflow

open Markup Number

def readWhole (s : String) : Except Failure Int :=
  match readInteger s with
  | .ok n => .ok n
  | .error .malformed => .error (.notInteger s)
  | .error (.tooLong count) => .error (.longInteger count)

/-- A coordinate. Without a text it is zero. -/
def readCoordinate (s : Option String) : Except Failure Coordinate :=
  match s with
  | none => .ok (.real (.ofRatio false 0 1))
  | some s => match Binary64.read? s with
    | some x => .ok (.real x)
    | none => .error (.notNumber s)

/-- The text of the first element with a name below another. -/
def textBelow? (e : Element) (label : String) : Option String :=
  (e.findBelow? label).bind Element.text?

/-- What a document says of itself. -/
def readMetadata (path : Path) (root : Element) : Metadata :=
  let properties := root.findBelow? "Properties"
  let info := properties.bind (·.find? "MetaInfo")
  let item := fun label => (info.bind (·.find? label)).bind Element.text?
  let note := (properties.bind (·.find? "Annotation")).bind fun a =>
    (a.find? "DefaultAnnotationText").bind Element.text?
  { name := (item "Name").getD path.stem
    path := path.toString
    version := root.get? "yxmdVer"
    description := (item "Description").or note
    author := item "Author" }

def readAnnotation (e : Element) : Option String :=
  (e.findBelowIn? "Properties" "Annotation").bind fun a =>
    ((a.find? "Name").bind Element.text?).or ((a.find? "DefaultAnnotationText").bind Element.text?)

/-- The macro that a tool stands for. -/
def readMacroPath (e : Element) : Option String :=
  (filled ((e.findBelow? "EngineSettings").bind (·.get? "Macro"))).or <|
  (filled ((e.find? "GuiSettings").bind (·.get? "Macro"))).or <|
  ((e.findBelow? "Configuration").bind (·.find? "Macro")).bind Element.text?

def readMacroName (e : Element) : String :=
  (filled (match readMacroPath e with
    | some path => some (Path.ofString path).stem
    | none => readAnnotation e)).getD "Macro"

/-- A text that may be missing. -/
def optional : Option String → Value
  | some s => .text s
  | none => .null

def record (fields : List (String × String)) : Value :=
  .record (fields.map fun (k, v) => (k, .text v))

def textList (xs : List String) : Value := .list (xs.map .text)

/-- The file that a tool reads or writes: the text of the element, or else its attribute. -/
def readFileName (e : Element) : Option String :=
  (e.findBelow? "File").map fun f => (f.text?).getD (f.getD "OutputFileName" "")

/-- Reads the connection of a tool. -/
def readLink (e : Element) (t : Tool) : Tool :=
  (e.findBelow? "Connection").elim t fun c =>
    Tool.set { t with connection := c.text? } "connection" (optional c.text?)

/-- Reads the connection and the table. -/
def readTable (e : Element) (t : Tool) : Tool :=
  let t := readLink e t
  (e.findBelow? "Table").elim t fun c =>
    Tool.set { t with table := c.text? } "table" (optional c.text?)

def readSource (e : Element) (t : Tool) : Tool :=
  (readFileName e).elim t fun f => Tool.set { t with sourcePath := some f } "file_path" (.text f)

/-- Reads the details of an input. -/
def readInput (e : Element) (t : Tool) : Tool :=
  let t := readTable e (readSource e t)
  ((textBelow? e "Query").or (textBelow? e "SQLStatement")).elim t fun q =>
    Tool.set { t with query := some q } "sql" (.text q)

/-- Reads the details of an output. -/
def readOutput (e : Element) (t : Tool) : Tool :=
  readTable e <| (readFileName e).elim t fun f =>
    Tool.set { t with targetPath := some f } "file_path" (.text f)

/-- The condition of a simple filter, put together from its parts. A part without text is written
as the word for nothing. -/
def simpleCondition (e : Element) : Option String := do
  let mode ← e.findBelow? "Mode"
  if mode.text? = some "Simple" then
    let field ← e.findBelow? "Field"
    let operator ← e.findBelow? "Operator"
    let operands := e.findAllBelow "Operand"
    let values := String.intercalate ", " (operands.filterMap Element.text?)
    return "[" ++ field.text?.getD "None" ++ "] " ++ operator.text?.getD "None"
      ++ (if operands.isEmpty then "" else " " ++ values)
  else none

/-- Reads the condition of a filter. -/
def readFilter (e : Element) (t : Tool) : Tool :=
  ((simpleCondition e).or (textBelow? e "Expression")).elim t fun s =>
    Tool.set { t with expression := some s } "expression" (.text s)

def readFormulas (e : Element) (t : Tool) : Tool :=
  match e.findAllBelow "FormulaField" with
  | [] => t
  | fields =>
    let formulas := fields.map fun f => record
      [("field", f.getD "field" ""), ("expression", f.getD "expression" ""),
       ("type", f.getD "type" "")]
    let whole := String.intercalate "; " (fields.map fun f =>
      f.getD "field" "" ++ " = " ++ f.getD "expression" "")
    Tool.set { t with expression := some whole } "formulas" (.list formulas)

/-- The pairs of fields to join by. -/
def readKeys (e : Element) : List (String × String) :=
  (e.findAllBelow "Field").filterMap fun f =>
    match f.getD "left" "", f.getD "right" "" with
    | "", _ | _, "" => none
    | left, right => some (left, right)

/-- Reads which side of a join is described. -/
def readJoinInfo (e : Element) (t : Tool) : Tool :=
  (e.findBelow? "JoinInfo").elim t fun i =>
    t.set "join_connection" (.text (i.getD "connection" ""))

def readJoin (e : Element) (t : Tool) : Tool :=
  let t := readJoinInfo e t
  let lists := e.findAllBelow "JoinByRecordPos" ++ e.findAllBelow "JoinByFields"
  let byPosition := fun l : Element => l.isNamed "JoinByRecordPos" && l.text == "True"
  let t := if lists.any byPosition then t.set "join_by_position" (.bool true) else t
  let keys := (lists.filter (!byPosition ·)).flatMap readKeys
  let t := if keys.isEmpty then t else
    Tool.set { t with joinKeys := keys.map fun (l, r) => l ++ "=" ++ r } "join_fields"
      (.list (keys.map fun (l, r) => record [("left", l), ("right", r)]))
  match e.findBelow? "SelectJoinInfo" with
  | some i => { t with joinKind := some (i.getD "connection" "Inner") }
  | none => t

/-- Reads groups and sums. -/
def readSummaries (e : Element) (t : Tool) : Tool :=
  let fields := (e.findAllBelow "SummarizeField").map fun f =>
    let field := f.getD "field" ""
    (field, f.getD "action" "", f.getD "rename" field)
  let groupBy := (fields.filter (·.2.1 == "GroupBy")).map (·.1)
  let rest := fields.filter (·.2.1 != "GroupBy")
  let t := { t with
    groupBy := groupBy
    summaries := rest.map fun (f, a, o) => ⟨some f, some a, some o⟩ }
  (t.set "group_by" (textList groupBy)).set "aggregations"
    (.list (rest.map fun (f, a, o) => record [("field", f), ("action", a), ("output_name", o)]))

/-- Reads which fields are kept. -/
def readSelection (e : Element) (t : Tool) : Tool :=
  let fields := ((e.findAllBelow "SelectField").map fun f =>
    (f.getD "field" "", f.getD "selected" "True" == "True", f.getD "rename" "")).filter
      (!·.1.isEmpty)
  let kept := (fields.filter (·.2.1)).map fun (f, _, r) => if r.isEmpty then f else f ++ " AS " ++ r
  let dropped := (fields.filter (!·.2.1)).map (·.1)
  let t := { t with selected := kept }
  ((t.set "selected_fields" (textList kept)).set "deselected_fields" (textList dropped)).set
    "all_fields" (textList (fields.map (·.1)))

def readSort (e : Element) (t : Tool) : Tool :=
  t.set "sort_fields" (.list ((e.findAllBelow "SortInfo").filterMap fun f =>
    match f.getD "field" "" with
    | "" => none
    | field => some (record [("field", field), ("order", f.getD "order" "Ascending")])))

def readUnion (e : Element) (t : Tool) : Tool :=
  (e.findBelow? "Mode").elim t fun mode => t.set "union_mode" (optional mode.text?)

/-- Reads the details of a tool by its kind. -/
def readDetails (e : Element) (t : Tool) : Tool :=
  match t.category, t.name with
  | .input, _ => readInput e t
  | .output, _ => readOutput e t
  | _, "Filter" => readFilter e t
  | _, "Formula" | _, "Multi-Field Formula" => readFormulas e t
  | _, "Join" => readJoin e t
  | _, "Summarize" => readSummaries e t
  | _, "Select" => readSelection e t
  | _, "Sort" => readSort e t
  | _, "Union" => readUnion e t
  | _, _ => t

/-- The numbers in a text, between commas and blanks; anything else there is passed over. -/
def readNumbers (s : String) : List Int :=
  (Text.words (s.toList.map fun c => if c == ',' then ' ' else c)).filterMap fun word =>
    (readInteger (String.ofList word)).toOption

/-- The numbers of the tools in a container. They may be given in up to three elements, the first
of which may name a tool twice. -/
def readMembers (e : Element) : List Int :=
  let numbers := fun x : Option Element => readNumbers ((x.bind Element.text?).getD "")
  let add := fun known (n : Int) => if known.contains n then known else known ++ [n]
  let first := numbers (e.findBelow? "ChildToolIds")
  let second := (numbers (e.findBelowIn? "Configuration" "ChildToolIds")).foldl add first
  (numbers (e.findBelowIn? "Properties" "ChildToolIds")).foldl add second

/-- Reads the configuration, if there is one. -/
def configure (e : Element) (t : Tool) : Tool :=
  match e.findBelow? "Configuration" with
  | some c => readDetails c (Tool.set t "_raw" (.text c.write))
  | none => t

def readPosition : Option Element → Except Failure (Coordinate × Coordinate)
  | none => .ok (.whole 0, .whole 0)
  | some p => do return (← readCoordinate (p.get? "x"), ← readCoordinate (p.get? "y"))

/-- A tool before its details are read. -/
def bareTool (e : Element) (id : Int) (position : Coordinate × Coordinate) : Tool :=
  let plugin := ((e.find? "GuiSettings").map (·.getD "Plugin" "")).getD ""
  let isMacro := plugin.isEmpty
  { id, plugin, isMacro
    x := position.1
    y := position.2
    name := if isMacro then readMacroName e else Catalog.toolName plugin
    category := if isMacro then .macroTool else Catalog.categoryOf plugin
    macroPath := if isMacro then readMacroPath e else none
    annotation := readAnnotation e }

/-- The tool of an element, if it has a number. -/
def readTool (e : Element) : Except Failure (Option Tool) :=
  match filled (e.get? "ToolID") with
  | none => .ok none
  | some number => do
    let id ← readWhole number
    let position ← readPosition ((e.find? "GuiSettings").bind (·.find? "Position"))
    let tool := configure e (bareTool e id position)
    return some (if tool.category = .container then { tool with members := readMembers e }
      else tool)

/-- The first tool with a number is put into a container. -/
def putInto (container : Int) (tools : List Tool) (id : Int) : List Tool :=
  match tools with
  | [] => []
  | t :: ts => if t.id = id then { t with container := some container } :: ts
    else t :: putInto container ts id

/-- The members of each container, under the number of the container. -/
def memberships (tools : List Tool) : List (Int × List Int) :=
  (tools.filter (·.category == .container)).foldl (fun m t => setField m t.id t.members) []

def readTools (root : Element) : Except Failure (List Tool) :=
  match root.findBelow? "Nodes" with
  | none => .ok []
  | some nodes => do
    let tools ← (nodes.findAll "Node").mapM readTool
    let tools := tools.filterMap id
    return (memberships tools).foldl (fun ts (c, members) => members.foldl (putInto c) ts) tools

/-- A connection, if both ends are there. -/
def readConnection (e : Element) : Except Failure (Option Connection) :=
  match e.find? "Origin", e.find? "Destination" with
  | some origin, some target => do
    let originId ← readWhole (origin.getD "ToolID" "0")
    let targetId ← readWhole (target.getD "ToolID" "0")
    return some ⟨originId, origin.getD "Connection" "Output",
      targetId, target.getD "Connection" "Input"⟩
  | _, _ => .ok none

/-- The connections of a document. -/
def readConnections (root : Element) : Except Failure (List Connection) :=
  match root.findBelow? "Connections" with
  | none => .ok []
  | some e => do
    let connections ← (e.findAll "Connection").mapM readConnection
    return connections.filterMap id

def ofElement (path : Path) (root : Element) : Except Failure Workflow := do
  let tools ← readTools root
  let connections ← readConnections root
  return {
    metadata := readMetadata path root
    tools, connections
    macros := tools.filterMap fun t => if t.isMacro then filled t.macroPath else none }

/-- The endings of the names of files that hold workflows. -/
def suffixes : List String := [".yxmd", ".yxmc", ".yxwz"]

/-- Whether a path has the ending of a workflow, in capitals or not. -/
def isWorkflowPath (path : Path) : Bool :=
  suffixes.contains (String.ofList (Text.lower path.suffix.toList))

def load (fs : Files) (file : String) : Except Failure Workflow := do
  let path := Path.ofString file
  if !(← fs.exists? path) then .error (.noWorkflow file)
  else if !isWorkflowPath path then .error (.fileType path.suffix)
  else
    let source ← decodeDocument (← fs.read path).toBytes
    match readDocument? source with
    | some root => ofElement path root
    | none => .error (.malformed (faultMessage source))

end Replatform.Workflow
