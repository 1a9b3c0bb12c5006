import Replatform.Text.Basic
/-!
# Categories and layers

Every tool belongs to a category, and every model of the generated project to one of three layers:
raw data as it comes in, cleaned and joined data, and data ready for use. A tool whose result
nothing reads belongs to the last layer, whatever its category.
-/

namespace Replatform

/-- What kind of work a tool does. -/
inductive Category
  | input
  | output
  | preparation
  | join
  | transform
  | parse
  | reporting
  | spatial
  | predictive
  | developer
  | inDatabase
  | macroTool
  | container
  | unknown
deriving DecidableEq, Repr

namespace Category

def all : List Category :=
  [.input, .output, .preparation, .join, .transform, .parse, .reporting, .spatial, .predictive,
   .developer, .inDatabase, .macroTool, .container, .unknown]

def name : Category → String
  | .input => "input"
  | .output => "output"
  | .preparation => "preparation"
  | .join => "join"
  | .transform => "transform"
  | .parse => "parse"
  | .reporting => "reporting"
  | .spatial => "spatial"
  | .predictive => "predictive"
  | .developer => "developer"
  | .inDatabase => "in_database"
  | .macroTool => "macro"
  | .container => "container"
  | .unknown => "unknown"

def ofName? (name : String) : Option Category := all.find? (·.name == name)

end Category

/-- A layer of the project. -/
inductive Layer
  | bronze
  | silver
  | gold
deriving DecidableEq, Repr

namespace Layer

/-- All layers, from the sources to the results. -/
def all : List Layer := [.bronze, .silver, .gold]

def name : Layer → String
  | .bronze => "bronze"
  | .silver => "silver"
  | .gold => "gold"

def ofName? (name : String) : Option Layer := all.find? (·.name == name)

/-- What names of models begin with. -/
def modelPrefix : Layer → String
  | .bronze => "stg_"
  | .silver => "int_"
  | .gold => "fct_"

end Layer

/-- The layer of a tool by its category and by whether it is the last on its way. A container does
no work on data and has no layer of its own. -/
def Category.layer? (category : Category) (isFinal : Bool) : Option Layer :=
  if isFinal then some .gold
  else match category with
    | .input | .parse => some .bronze
    | .output | .reporting => some .gold
    | .container => none
    | _ => some .silver

end Replatform
