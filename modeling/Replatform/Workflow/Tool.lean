import Replatform.Catalog.Category
import Replatform.Value
/-!
# Tools

A tool is one step of a workflow on the canvas. It has a number, a kind and a category, settings as
they were found, and the details that its kind gives: what it reads or writes, its expression, the
keys it joins on, the fields it groups by, adds up or keeps.
-/

namespace Replatform

open Number

/-- A place on the canvas along one axis. -/
inductive Coordinate
  | whole (n : Int)
  | real (x : Binary64)
deriving Repr

def Coordinate.write : Coordinate → String
  | .whole n => toString n
  | .real x => x.write

/-- A field that a tool adds up: which field, how, and under which name. -/
structure Summary where
  field : Option String
  action : Option String
  output : Option String
deriving DecidableEq, Repr

/-- A tool of a workflow, with its details. -/
structure Tool where
  id : Int
  /-- The plugin that does the work, as the document names it. -/
  plugin : String := ""
  name : String
  category : Category := .unknown
  settings : List (String × Value) := []
  x : Coordinate := .whole 0
  y : Coordinate := .whole 0
  isMacro : Bool := false
  macroPath : Option String := none
  annotation : Option String := none
  container : Option Int := none
  members : List Int := []
  sourcePath : Option String := none
  targetPath : Option String := none
  connection : Option String := none
  table : Option String := none
  query : Option String := none
  expression : Option String := none
  joinKeys : List String := []
  joinKind : Option String := none
  groupBy : List String := []
  summaries : List Summary := []
  selected : List String := []
deriving Repr

/-- A text that is there and not empty. -/
def filled (s : Option String) : Option String := s.filter (!·.isEmpty)

namespace Tool

/-- The name for readers: the kind, with the annotation if there is one. -/
def displayName (t : Tool) : String :=
  match filled t.annotation with
  | some a => t.name ++ ": " ++ a
  | none => t.name

def setting? (t : Tool) (key : String) : Option Value := t.settings.lookup key

def set (t : Tool) (key : String) (v : Value) : Tool :=
  { t with settings := setField t.settings key v }

def settingRecords (t : Tool) (key : String) : List (List (String × Value)) :=
  match t.setting? key with
  | some v => v.items.map Value.fields
  | none => []

end Tool

end Replatform
