import Replatform.Failure
import Replatform.Workflow.Tool
/-!
# Steps in words

What a tool does, in a line for readers: its kind and the detail that tells it from others of the
kind. Long lists are cut short.
-/

namespace Replatform.Lineage

/-- The first `n` texts with commas between them. -/
def commaList (n : Nat) (xs : List String) : String := String.intercalate ", " (xs.take n)

/-- The text on two entries of a record, both of which have to be there. -/
def ofBoth (key key' : String) (write : String → String → String) :
    Option String → Option String → Except Failure String
  | some s, some s' => .ok (write s s')
  | some _, none => .error (.noEntry key')
  | none, _ => .error (.noEntry key)

/-- A sum in words. -/
def describeSummary (s : Summary) : Except Failure String :=
  ofBoth "action" "field" (fun action field => action ++ "(" ++ field ++ ")") s.action s.field

def describeSort (fields : List (String × Value)) : Except Failure String :=
  ofBoth "field" "order" (fun field order => field ++ " " ++ order) (fieldText? fields "field")
    (fieldText? fields "order")

/-- The part of a line that is there, if its list is not empty. -/
def unlessEmpty {α : Type} (xs : List α) (part : String) : List String :=
  if xs.isEmpty then [] else [part]

/-- Where an input reads from. -/
def describeInput (t : Tool) : List String :=
  match filled t.sourcePath, filled t.table, filled t.query with
  | some path, _, _ => ["from '" ++ path ++ "'"]
  | none, some table, _ => ["from table '" ++ table ++ "'"]
  | none, none, some _ => ["with custom SQL query"]
  | none, none, none => []

/-- Where an output writes to. -/
def describeOutput (t : Tool) : List String :=
  match filled t.targetPath, filled t.table with
  | some path, _ => ["to '" ++ path ++ "'"]
  | none, some table => ["to table '" ++ table ++ "'"]
  | none, none => []

/-- The fields that formulas compute, the first three by name. -/
def describeFormulas (t : Tool) : List String :=
  let formulas := t.settingRecords "formulas"
  let fields := formulas.map fun f => (fieldText? f "field").getD ""
  unlessEmpty formulas (": " ++ commaList 3 fields)
    ++ if 3 < formulas.length then [" (+" ++ toString (formulas.length - 3) ++ " more)"] else []

/-- The groups and sums of a tool, the first ones by name. -/
def describeSummaries (t : Tool) : Except Failure (List String) := do
  let sums ← (t.summaries.take 2).mapM describeSummary
  return unlessEmpty t.groupBy ("GROUP BY " ++ commaList 3 t.groupBy)
    ++ unlessEmpty sums (": " ++ commaList 2 sums)

/-- The fields that a tool sorts by, the first two by name. -/
def describeSorts (t : Tool) : Except Failure (List String) := do
  let sorts ← ((t.settingRecords "sort_fields").take 2).mapM describeSort
  return unlessEmpty sorts ("by " ++ commaList 2 sorts)

/-- What a tool does, in pieces. -/
def describeParts (t : Tool) : Except Failure (List String) :=
  match t.category, t.name with
  | .input, name => .ok (name :: describeInput t)
  | .output, name => .ok (name :: describeOutput t)
  | _, "Filter" => .ok ("Filter" :: ((filled t.expression).map (": " ++ ·)).toList)
  | _, "Formula" => .ok ("Formula" :: describeFormulas t)
  | _, "Multi-Field Formula" => .ok ("Multi-Field Formula" :: describeFormulas t)
  | _, "Join" => .ok ("Join" :: unlessEmpty t.joinKeys ("on " ++ commaList 2 t.joinKeys))
  | _, "Summarize" => (describeSummaries t).map ("Summarize" :: ·)
  | _, "Select" =>
    .ok ("Select" :: unlessEmpty t.selected (": " ++ toString t.selected.length ++ " fields"))
  | _, "Sort" => (describeSorts t).map ("Sort" :: ·)
  | _, name =>
    if t.isMacro then
      .ok (("Macro: " ++ name) :: ((filled t.macroPath).map fun p => "(" ++ p ++ ")").toList)
    else .ok [name]

/-- What a tool does, in a line. -/
def describe (t : Tool) : Except Failure String := (describeParts t).map (String.intercalate " ")

end Replatform.Lineage
