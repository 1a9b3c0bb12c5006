import Replatform.Project.Sources
/-!
# Names of models

The name of a model says its layer, its workflow and what it holds. Models of the first layer are
named after their source, those of the second after their tool, and those of the last after what
they are written to, or after the most telling detail that is there.
-/

namespace Replatform.Project

/-- The name of the model that a tool's result is read from. -/
def modelReference (t : Tool) (workflow : String) : String :=
  if t.category = .input then "stg_" ++ workflow ++ "_" ++ tableName t
  else "int_" ++ workflow ++ "_" ++ sanitize t.displayName

def summaryName (groups : List String) : String :=
  "summary_by_" ++ sanitize (String.intercalate "_" (groups.take 2))

/-- The name after the target of a tool, or its annotation. -/
def targetName? (t : Tool) : Option String :=
  match filled t.targetPath, filled t.table, filled t.annotation with
  | some path, _, _ => some (sanitize (Path.ofString path).stem)
  | none, some table, _ => some (sanitize table)
  | none, none, some annotation => some (sanitize annotation)
  | none, none, none => none

/-- The text speaks of a container. -/
def saysContainer (s : String) : Bool := Text.has "container".toList (Text.lower s.toList)

def containerName (t : Tool) (w : Workflow) : String :=
  match (filled t.annotation).filter (!saysContainer ·) with
  | some annotation => sanitize annotation
  | none =>
    let members := t.members.filterMap w.tool?
    let outputs := members.filter (·.category == .output)
    let summaries := members.filter fun m => m.category != .output && m.name == "Summarize"
    match outputs.findSome? targetName?, summaries.find? (!·.groupBy.isEmpty) with
    | some name, _ => name
    | none, some s => summaryName s.groupBy
    | none, none => sanitize w.metadata.name ++ "_container_output"

def sumsName (summaries : List Summary) : String :=
  sanitize (String.intercalate "_" ((summaries.take 2).map fun s =>
    s.output.getD (s.field.getD "")))

def resultName (t : Tool) (w : Workflow) : String :=
  if t.category = .container then containerName t w
  else match targetName? t with
    | some name => name
    | none =>
      if t.name = "Summarize" && !t.groupBy.isEmpty then summaryName t.groupBy
      else if t.name = "Summarize" && !t.summaries.isEmpty then sumsName t.summaries
      else if t.name = "Output Data" || t.name = "Browse" then
        sanitize w.metadata.name ++ "_output"
      else if saysContainer t.displayName then sanitize w.metadata.name ++ "_result"
      else sanitize t.displayName

/-- The tools with the members of containers in place of the containers. Containers inside each
other nest at most as deep as there are tools, unless they contain themselves. -/
def expandContainers (w : Workflow) : Nat → List Tool → Except Failure (List Tool)
  | 0, _ => .error .endless
  | fuel + 1, tools => do
    let expanded ← tools.mapM fun t =>
      if t.category = .container then do
        let members ← (t.members.filterMap w.tool?).mapM fun m =>
          if m.category = .container then expandContainers w fuel [m] else .ok [m]
        return members.flatten
      else .ok [t]
    return expanded.flatten

/-- The tools that feed the left and the right side of a join: by the names of the anchors, or the
first two. -/
def joinSides (t : Tool) (w : Workflow) : Option Tool × Option Tool :=
  match w.upstreamAt? t.id "Left", w.upstreamAt? t.id "Right" with
  | none, none =>
    match w.upstreamAt? t.id "Input #1", w.upstreamAt? t.id "Input #2" with
    | none, none => ((w.upstream t.id)[0]?, (w.upstream t.id)[1]?)
    | left, right => (left, right)
  | left, right => (left, right)

end Replatform.Project
