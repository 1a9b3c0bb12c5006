import Replatform.Workflow.Document
/-!
# Looking for workflows

The workflows at a path: the path itself, if it is the file of a workflow, or the workflows and
macros in a directory, sorted.
-/

namespace Replatform.Workflow

/-- The paths of all workflows at a path, in a directory also those further below if `recursive`. -/
def findAt (fs : Files) (path : Path) (recursive : Bool) : Except Failure (List Path) := do
  if ← fs.isFile path then
    return if isWorkflowPath path then [path] else []
  else if ← fs.isDirectory path then
    let workflows ← fs.withSuffix path recursive ".yxmd"
    let macros ← fs.withSuffix path recursive ".yxmc"
    return (workflows ++ macros).mergeSort Path.le
  else return []

end Replatform.Workflow
