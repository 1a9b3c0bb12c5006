import Replatform.Catalog.Category
import Replatform.Formula.Convert
import Replatform.Project.Name
import Replatform.Project.Packages
import Replatform.Project.Todo
import Replatform.Session
/-!
# Building a project

What a generator of projects has done so far: the sources and models that it knows, the names of
what it wrote, and the items that a developer has to look at. A step of the work is a function on
this state that may fail; what was done before a failure stays done.
-/

namespace Replatform.Project

/-- A table that a project reads. -/
structure Source where
  schema : String
  table : String
  columns : List String
  description : String
  path : String
deriving DecidableEq, Repr

/-- The entry of a model. -/
structure Model where
  name : String
  layer : Layer
  columns : List String
  description : String
  /-- The tool that the model stands for, or the first of several. -/
  tool : Int
deriving DecidableEq, Repr

/-- A block at the front of a model that reads another model: how it begins, the columns of the
other model that are known, and the name of the other model. -/
structure Reading where
  opening : String
  columns : List String
  model : String
deriving DecidableEq, Repr

/-- The file of a model: its comments and settings, the models that it reads, and what it does with
them. -/
structure ModelFile where
  model : Model
  head : List String
  reads : List Reading
  body : List String
deriving DecidableEq, Repr

/-- The state of the work on a project. -/
structure Build where
  session : Session
  dir : Path
  name : String := "alteryx_migration"
  interactive : Bool := true
  validation : Bool := true
  packages : Packages := {}
  sources : List (String × List (String × Source)) := []
  models : List (String × Model) := []
  /-- The files of models, one for each time that a model was written. -/
  files : List ModelFile := []
  macros : List String := []
  tests : List String := []
  todos : List Todo := []
  /-- Columns of tools that are known already, by the number of the tool. -/
  columns : List (Int × List String) := []
  /-- The names of macros in the project, by the reference to them. -/
  macroNames : List (String × String) := []
  /-- Sources that the user was asked for, with the file that they named. -/
  answered : List (String × String) := []
  /-- The model that is written now, and its layer. -/
  model : String := ""
  layer : String := ""

/-- The names of the models, one for each time that a model was written. -/
def Build.written (b : Build) : List String := b.files.map (·.model.name)

abbrev Work (α : Type) := ExceptT Failure (StateM Build) α

/-- A step of the session as one of the work. -/
def Work.ofRun {α : Type} (r : Run α) : Work α := do
  let b ← get
  let (result, session) := (r.run b.session).run
  set { b with session }
  match result with
  | .ok a => return a
  | .error e => throw e

namespace Work

def say (line : String) : Work Unit := ofRun (Run.say line)

/-- The file of the model that is written. -/
def currentFile (b : Build) : String :=
  if b.model.isEmpty then ""
  else if b.layer.isEmpty then "macros/" ++ b.model ++ ".sql"
  else "models/" ++ b.layer ++ "/" ++ b.model ++ ".sql"

/-- Notes something to look at. -/
def addTodo (kind description context priority : String) : Work Unit :=
  modify fun b =>
    { b with todos := b.todos ++ [
      { file := currentFile b
        model := b.model
        layer := if b.layer.isEmpty then "unknown" else b.layer
        kind, description, context, priority }] }

def enter (model layer : String) : Work Unit := modify fun b => { b with model, layer }

/-- Writes a file and the directory that it is in. -/
def writeText (path : Path) (text : String) : Work Unit :=
  ofRun (Run.change fun fs => do (← fs.makeDirectory path.parent).write path (.text text))

/-- A formula in SQL; what has to be looked at is noted. No formula is nothing. -/
def convertExpression (e : String) : Work String := do
  if e.isEmpty then return "NULL"
  else
    let c := Formula.convert e
    c.notes.forM fun note =>
      addTodo "expression" ("Review formula conversion: " ++ note.message)
        (String.ofList (e.toList.take 100)) "medium"
    return c.sql

end Work

end Replatform.Project
