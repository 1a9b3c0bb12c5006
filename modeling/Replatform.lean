import Replatform.Main
import Replatform.Proofs.Formula.Dates
import Replatform.Proofs.Formula.Matching
import Replatform.Proofs.Lineage.Analysis
import Replatform.Proofs.Lineage.Copies
import Replatform.Proofs.Macro.Memory
import Replatform.Proofs.Macro.Tally
import Replatform.Proofs.Pages.Guide
import Replatform.Proofs.Project.Aggregates
import Replatform.Proofs.Project.Bookkeeping
import Replatform.Proofs.Project.Gathering
import Replatform.Proofs.Project.Literal
import Replatform.Proofs.Project.MacroText
import Replatform.Proofs.Project.Overwriting
import Replatform.Proofs.Project.Readers
import Replatform.Proofs.Project.Repetition
import Replatform.Proofs.Project.Sanitized
import Replatform.Proofs.Project.Scalar
import Replatform.Proofs.Project.Scope
import Replatform.Proofs.Project.SelectList
import Replatform.Proofs.Project.Staging
import Replatform.Proofs.Workflow.Containers
import Replatform.Trial.Answer
