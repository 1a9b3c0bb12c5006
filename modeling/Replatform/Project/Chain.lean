import Replatform.Workflow.Basic
/-!
# Chains of tools

Tools of the middle layer that follow each other without a fork are put into one model. A chain
goes on from a tool to the next of the layer, if there is exactly one that is not yet in a chain,
and if that one reads from no other tool of the layer.
-/

namespace Replatform.Project

/-- The tool that a chain goes on to behind a tool, when some are already in chains. -/
def nextInChain? (w : Workflow) (layer : Tool → Bool) (taken : List Int) (t : Tool) : Option Tool :=
  match (w.downstream t.id).filter fun n => layer n && !taken.contains n.id with
  | [n] => if ((w.upstream n.id).filter layer).length = 1 then some n else none
  | _ => none

/-- The rest of a chain behind a tool, and the numbers that are in chains then. Every step takes a
tool that was not taken. -/
def growChain (w : Workflow) (layer : Tool → Bool) : Nat → List Int → Tool → List Tool × List Int
  | 0, taken, _ => ([], taken)
  | fuel + 1, taken, t =>
    match nextInChain? w layer taken t with
    | none => ([], taken)
    | some n =>
      let (rest, taken) := growChain w layer fuel (n.id :: taken) n
      (n :: rest, taken)

/-- The chains that begin with the tools, in order; a tool that is in a chain begins none. -/
def chainsFrom (w : Workflow) (layer : Tool → Bool) (taken : List Int) :
    List Tool → List (List Tool)
  | [] => []
  | t :: ts =>
    if taken.contains t.id then chainsFrom w layer taken ts
    else
      let (rest, taken) := growChain w layer (w.tools.length + 1) (t.id :: taken) t
      (t :: rest) :: chainsFrom w layer taken ts

def chains (w : Workflow) (layer : Layer) : List (List Tool) :=
  chainsFrom w (w.isIn layer) [] (w.inLayer layer)

end Replatform.Project
