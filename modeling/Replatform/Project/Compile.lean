import Replatform.Project.Build
/-!
# Checking a project

A project is checked by the program that runs it, if that is installed and there is a project. What
comes of a run of that program is given here, and the verdict on the project follows from it.
-/

namespace Replatform.Project

/-- What comes of the program that compiles a project. -/
inductive Compiler
  /-- It is not installed. -/
  | absent
  /-- It ended with a code and what it printed on its two channels. -/
  | ended (code : Int) (output errors : String)
  /-- It did not end in time. -/
  | timeout
  /-- It could not be started. -/
  | missing
  /-- Something else went wrong, of some kind and in some words. -/
  | crashed (kind words : String)
deriving DecidableEq, Repr

/-- What came of a validation. -/
inductive Verdict
  | passed (models : Nat) (output : String)
  | failed (error details : String)
deriving DecidableEq, Repr

def Work.compile (c : Compiler) : Work Verdict := do
  let b ← get
  let file := b.dir / "dbt_project.yml"
  if c = .absent then
    return .failed "dbt not found in PATH. Install dbt to enable validation."
      "pip install dbt-trino"
  else if !(← ofRun (Run.look (·.exists? file))) then
    return .failed "No DBT project found. Generate DBT first." ("Expected: " ++ file.toString)
  else match c with
    | .ended code output errors =>
      if code = 0 then return .passed b.written.length output
      else
        let details := if errors.isEmpty then output else errors
        return .failed "dbt compile failed with errors" details
    | .timeout =>
      return .failed "dbt compile timed out after 120 seconds"
        "The project may be too large or have infinite loops"
    | .crashed kind words =>
      return .failed ("Unexpected error during validation: " ++ words) kind
    | .absent | .missing =>
      return .failed "Could not execute dbt command" "Ensure dbt is properly installed"

end Replatform.Project
