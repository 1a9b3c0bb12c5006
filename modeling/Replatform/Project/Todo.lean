import Replatform.Value
/-!
# Things to be done

What a project leaves to a developer: a list of items, each with the file that it belongs to, its
kind and its priority, and counts of them.
-/

namespace Replatform.Project

/-- Something to look at. -/
structure Todo where
  file : String
  model : String
  layer : String
  kind : String
  description : String
  context : String
  priority : String
deriving DecidableEq, Repr

/-- How many entries have each text in a detail, in the order in which the texts came; the texts in
`known` come first, if there are any entries or not. -/
def countBy (known : List String) (detail : Todo → String) (todos : List Todo) :
    List (String × Nat) :=
  todos.foldl (fun counts t =>
    setField counts (detail t) ((counts.lookup (detail t)).getD 0 + 1)) (known.map fun k => (k, 0))

/-- How many items have each priority. -/
def countPriorities (todos : List Todo) : List (String × Nat) :=
  countBy ["high", "medium", "low"] (·.priority) todos

/-- How many items each layer has. -/
def countLayers (todos : List Todo) : List (String × Nat) := countBy [] (·.layer) todos

/-- How many items are of each kind. -/
def countKinds (todos : List Todo) : List (String × Nat) := countBy [] (·.kind) todos

end Replatform.Project
