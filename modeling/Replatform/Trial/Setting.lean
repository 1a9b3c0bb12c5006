import Replatform.Sample.Macro
import Replatform.Session
import Replatform.Workflow.Document
/-!
# Settings of trials

A trial runs a part of the library on samples, and its answer shows whether that part still does
what it did. Trials that work on files get a directory with sample workflows, the macro that they
refer to, and some macros to copy into a project. Every second workflow refers to a macro that is
not there.
-/

namespace Replatform.Trial

def libraryNames : List String :=
  ["date_spine", "deduplicate", "generate_surrogate_key", "misc", "null_if_empty", "pivot",
   "running_total", "safe_cast", "split_unnest", "string_normalize", "window_rank"]

def libraryText (name : String) : String :=
  "\x7b% macro " ++ name ++ "() %\x7dselect 1\x7b% endmacro %\x7d\n"

abbrev Plan := Path → Int → Run Value

def count (n : Nat) : Value := .int n

def textItems (xs : List String) : Value := .list (xs.map .text)

def writeText (path : Path) (text : String) : Run Unit := do
  Run.change (·.makeDirectory path.parent)
  Run.change (·.write path (.text text))

def orStop {α : Type} : Except Failure α → Run α
  | .ok a => return a
  | .error e => throw e

/-- Kinds of tools that lead from one to the next in a single model. -/
def chainedKinds : List String :=
  ["Select", "Sort", "Summarize", "Select", "Union", "Unique", "Sample", "RecordID"]

/-- Writes sample workflows of a shape into a directory, and answers with their files. -/
def writeWorkflows (dir : Path) (shape : Sample.Shape) (count : Nat) : Run (List Path) := do
  (List.range count).mapM fun i => do
    let file := dir / ("workflow_" ++ toString i ++ ".yxmd")
    let shape := { shape with name := "Workflow " ++ toString i, macroMissing := i % 2 = 1 }
    writeText file (← orStop shape.document)
    return file

/-- Writes a setting into a directory, and answers with the files of its workflows. -/
def setUp (dir : Path) (shape : Sample.Shape) (count : Nat) : Run (List Path) := do
  libraryNames.forM fun name => writeText (dir / "dbt_macros" / (name ++ ".sql")) (libraryText name)
  writeText (dir / "macros" / "DataValidator.yxmc") (Sample.macroDocument "DataValidator")
  writeWorkflows dir shape count

def load (file : Path) : Run Workflow := do Run.look (Workflow.load · file.toString)

end Replatform.Trial
