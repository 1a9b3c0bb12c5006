import Replatform.Workflow.Basic
/-!
# Diagrams

The tools of a workflow and the connections between them as a flow chart. A container is a box
around its tools; every other tool that lies in no container stands by itself.
-/

namespace Replatform.Pages

open Text (lines)

/-- How long the label of a tool may be. -/
def labelLimit : Nat := 40

/-- A label without the marks that end one. -/
def plainLabel (label : String) : String :=
  String.ofList (label.toList.map fun
    | '\x22' => '\x27'
    | '[' => '('
    | ']' => ')'
    | c => c)

/-- The label of a tool, cut at the limit. -/
def toolLabel (t : Tool) : String :=
  let label := plainLabel t.displayName
  if label.length ≤ labelLimit then label else Text.clip (labelLimit - 3) label

/-- The definition of a tool. Its shape shows the kind. -/
def toolShape (t : Tool) : String :=
  let name := "N" ++ toString t.id
  let label := "\"" ++ toolLabel t ++ "\""
  match t.category with
  | .input => name ++ "[(" ++ label ++ ")]"
  | .output => name ++ "[[" ++ label ++ "]]"
  | _ =>
    if t.isMacro then name ++ "\x7b\x7b" ++ label ++ "\x7d\x7d"
    else name ++ "[" ++ label ++ "]"

def boxLabel (t : Tool) : String :=
  let label := (filled t.annotation).getD t.name
  String.ofList ((label.toList.map fun c => if c = '\x22' then '\x27' else c).take 30)

def containers (w : Workflow) : List Tool := w.tools.filter (·.category == .container)

/-- The container of each number that lies in one. Where it lies in several, the last one counts. -/
def boxMap (w : Workflow) : List (Int × Int) :=
  (containers w).foldl
    (fun boxes c => c.members.foldl (fun boxes id => setField boxes id c.id) boxes) []

/-- The tools that lie in no container. -/
def looseTools (w : Workflow) : List Tool :=
  let boxes := boxMap w
  w.tools.filter fun t => t.category != .container && (boxes.lookup t.id).isNone

/-- A container with its members. -/
def boxLines (w : Workflow) (t : Tool) : List String :=
  ("    subgraph C" ++ toString t.id ++ "[\"" ++ boxLabel t ++ "\"]")
    :: (t.members.filterMap w.tool?).map (fun m => "        " ++ toolShape m)
    ++ ["    end"]

/-- The line of a connection. The anchor that it leaves from is shown unless it is the usual one. -/
def connectionLine (c : Connection) : String :=
  let label :=
    if c.originAnchor.isEmpty || c.originAnchor = "Output" || c.originAnchor = "Output1" then ""
    else "|" ++ c.originAnchor ++ "|"
  "    N" ++ toString c.origin ++ " -->" ++ label ++ " N" ++ toString c.target

def diagram (w : Workflow) : String :=
  lines <| "graph LR" :: (containers w).flatMap (boxLines w)
    ++ (looseTools w).map (fun t => "    " ++ toolShape t)
    ++ w.connections.map connectionLine

end Replatform.Pages
