import Replatform.Graph.Order
import Replatform.Graph.Paths
import Replatform.Lineage.Description
import Replatform.Lineage.Hint
import Replatform.Workflow.Basic
/-!
# Steps and lineage

The steps of a workflow in the order in which they can run, and the ways that data takes from each
source to each target. A step has a number, its tool, the layer that it belongs to and what is said
about it.

Connections may name tools that the workflow does not have. They count on the way, and leave no
step.
-/

namespace Replatform

open Lineage

/-- A tool in the order of the work, with what is said about it. -/
structure Step where
  number : Nat
  tool : Tool
  description : String
  layer : Option Layer
  hint : String
deriving Repr

/-- A way from a source to a target, with the tools on it as steps. -/
structure Way where
  source : Tool
  target : Tool
  steps : List Step
deriving Repr

namespace Workflow

/-- The numbers of the tools, each behind those that it reads from. -/
def order (w : Workflow) : List Int := Graph.visitOrder w.previousIds w.size (w.tools.map (·.id))

/-- A tool as a step; `macros` is whether project macros are at hand for hints. -/
def step (w : Workflow) (macros : Bool) (t : Tool) (number : Nat) : Except Failure Step := do
  let description ← describe t
  return ⟨number, t, description, t.category.layer? (w.isFinal t.id), hint macros t⟩

/-- The tools with the numbers, as steps with the places of the numbers. -/
def stepsOf (w : Workflow) (macros : Bool) (ids : List Int) : Except Failure (List Step) :=
  (ids.zipIdx.filterMap fun (id, i) => (w.tool? id).map (·, i + 1)).mapM fun (t, n) =>
    w.step macros t n

def steps (w : Workflow) (macros : Bool) : Except Failure (List Step) := w.stepsOf macros w.order

/-- At most `limit` paths from one number to another along the connections. -/
def pathsBetween (w : Workflow) (start goal : Int) (limit : Int) : List (List Int) :=
  Graph.paths w.nextIds w.size limit start goal

/-- How many ways are shown between two tools. -/
def wayLimit : Int := 10

/-- The way along a path. Numbers without a tool are left out. -/
def way (w : Workflow) (macros : Bool) (source target : Tool) (path : List Int) :
    Except Failure (Option Way) := do
  match path.filterMap w.tool? with
  | [] => return none
  | tools =>
    let steps ← tools.zipIdx.mapM fun (t, i) => w.step macros t (i + 1)
    return some ⟨source, target, steps⟩

/-- The ways from all sources to all targets. -/
def lineage (w : Workflow) (macros : Bool) : Except Failure (List Way) := do
  let ends := w.sources.flatMap fun s => w.targets.map fun t => (s, t)
  let ways ← ends.mapM fun (s, t) =>
    (w.pathsBetween s.id t.id wayLimit).mapM (w.way macros s t)
  return (ways.map (·.filterMap id)).flatten

end Workflow

end Replatform
