import Replatform.Workflow.Tool
/-!
# Workflows

A workflow is a list of tools and the connections between them. Where a number belongs to several
tools, the first of them is meant.
-/

namespace Replatform

/-- A connection between two tools. -/
structure Connection where
  origin : Int
  originAnchor : String
  target : Int
  targetAnchor : String
deriving DecidableEq, Repr

def Connection.write (c : Connection) : String :=
  "Connection(" ++ toString c.origin ++ ":" ++ c.originAnchor ++ " -> " ++ toString c.target ++ ":"
    ++ c.targetAnchor ++ ")"

/-- What a document says about its workflow. -/
structure Metadata where
  name : String
  path : String
  version : Option String := none
  description : Option String := none
  author : Option String := none
  created : Option String := none
  modified : Option String := none
deriving DecidableEq, Repr

/-- The tools of a document and how they are connected. -/
structure Workflow where
  metadata : Metadata
  tools : List Tool := []
  connections : List Connection := []
  /-- The macros that the tools refer to, by their paths. -/
  macros : List String := []
  missing : List String := []
deriving Repr

namespace Workflow

/-- The first tool with a number. -/
def tool? (w : Workflow) (id : Int) : Option Tool := w.tools.find? (·.id == id)

/-- The tools with one of the numbers, in the order of the workflow. -/
def toolsAmong (w : Workflow) (ids : List Int) : List Tool := w.tools.filter (ids.contains ·.id)

/-- The tools that read data. -/
def sources (w : Workflow) : List Tool := w.tools.filter (·.category == .input)

/-- The tools that write data. -/
def targets (w : Workflow) : List Tool := w.tools.filter (·.category == .output)

def outgoing (w : Workflow) (id : Int) : List Connection := w.connections.filter (·.origin == id)

def incoming (w : Workflow) (id : Int) : List Connection := w.connections.filter (·.target == id)

/-- The tools that read from a tool. -/
def downstream (w : Workflow) (id : Int) : List Tool :=
  w.toolsAmong ((w.outgoing id).map (·.target))

/-- The tools that a tool reads from. -/
def upstream (w : Workflow) (id : Int) : List Tool := w.toolsAmong ((w.incoming id).map (·.origin))

/-- Whether two names of anchors are the same but for capitals. -/
def sameAnchor (a b : String) : Bool := Text.lower a.toList == Text.lower b.toList

/-- The tool that the first connection to an anchor of a tool comes from. -/
def upstreamAt? (w : Workflow) (id : Int) (anchor : String) : Option Tool :=
  ((w.incoming id).find? fun c => sameAnchor c.targetAnchor anchor).bind fun c => w.tool? c.origin

/-- The numbers behind a number. -/
def nextIds (w : Workflow) (id : Int) : List Int := (w.outgoing id).map (·.target)

/-- The numbers before a number. -/
def previousIds (w : Workflow) (id : Int) : List Int := (w.incoming id).map (·.origin)

/-- More than the numbers that tools and connections name. -/
def size (w : Workflow) : Nat := w.tools.length + 2 * w.connections.length

/-- Nothing reads from the tool. -/
def isFinal (w : Workflow) (id : Int) : Bool := (w.outgoing id).isEmpty

/-- Whether a tool belongs to a layer. A container belongs to none. -/
def isIn (w : Workflow) (layer : Layer) (t : Tool) : Bool :=
  t.category != .container && t.category.layer? (w.isFinal t.id) == some layer

def inLayer (w : Workflow) (layer : Layer) : List Tool := w.tools.filter (w.isIn layer)

def layers (w : Workflow) : List (Layer × List Tool) := Layer.all.map fun l => (l, w.inLayer l)

end Workflow

end Replatform
