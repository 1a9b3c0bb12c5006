import Replatform.Trial.Formulas
import Replatform.Trial.Lineage
import Replatform.Trial.Outputs
/-!
# The answers of trials

Every trial can be run again on what it left behind.
-/

namespace Replatform.Trial

/-- Runs a plan several times, on what the time before left. -/
def repeated (plan : Plan) (dir : Path) (size : Int) (times : Nat) : Run (List Value) :=
  (List.replicate times ()).mapM fun _ => plan dir size

end Replatform.Trial
