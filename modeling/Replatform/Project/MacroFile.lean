import Replatform.Catalog.Sketch
import Replatform.Macro.Inventory
import Replatform.Project.Block
/-!
# Macros of a project

A macro of the workflows becomes a macro of the project: a query over its first input in which
every tool is a block, each behind the tools that it reads from. A list of all macros is written
beside them.
-/

namespace Replatform.Project

open Text (lines)

open Catalog

/-- The tools that a tool reads from, one for each connection, as far as their numbers are among
`ids`. -/
def feedersAmong (w : Workflow) (ids : List Int) (t : Tool) : List Tool :=
  ((w.previousIds t.id).filter fun id => ids.contains id).filterMap w.tool?

/-- The numbers that a tour of tools has met, and the order in which it left the tools. -/
structure Tour where
  seen : List Int
  order : List Tool

/-- Visits a tool, behind the tools that it reads from. Where a number belongs to several tools, the
one that the tour meets first stands for all of them. -/
def Tour.visit (w : Workflow) (ids : List Int) : Nat → Tour → Tool → Tour
  | 0, tour, _ => tour
  | fuel + 1, tour, t =>
    if t.id ∈ tour.seen then tour
    else
      let inner := (feedersAmong w ids t).foldl (visit w ids fuel) ⟨t.id :: tour.seen, tour.order⟩
      { inner with order := inner.order ++ [t] }

/-- The tools in an order in which each comes behind those that it reads from, as far as they are
among the tools. Every step inward meets one of their numbers for the first time. -/
def orderedTools (w : Workflow) (tools : List Tool) : List Tool :=
  (tools.foldl (Tour.visit w (tools.map (·.id)) (tools.length + 1)) ⟨[], []⟩).order

/-- The name of an end of a macro. -/
def portName (kind : String) (t : Tool) : String :=
  match filled t.annotation, t.setting? "Name" with
  | some annotation, _ => sanitize annotation
  | none, some name => sanitize (name.text?.getD "")
  | none, none => sanitize (kind ++ "_" ++ toString t.id)

/-- What a macro takes, gives and does. -/
structure MacroParts where
  inputs : List String
  outputs : List String
  tools : List Tool

def isMacroStep (t : Tool) : Bool :=
  t.name != "Macro Input" && t.name != "Macro Output" && t.category != .input
    && t.category != .output

/-- The ends and the steps of a macro. -/
def macroParts (w : Workflow) : MacroParts :=
  { inputs := (w.tools.filter (·.name == "Macro Input")).map (portName "input")
    outputs := (w.tools.filter (·.name == "Macro Output")).map (portName "output")
    tools := w.tools.filter isMacroStep }

def macroOpening (name parameters : String) : String :=
  "\x7b% macro " ++ name ++ "(" ++ parameters ++ ") %\x7d"

/-- The line that ends a macro. -/
def macroClosing : String := "\x7b% endmacro %\x7d"

/-- A macro for one of several outputs. -/
def outputMacro (name parameters source output : String) : List String :=
  ["", macroOpening (name ++ "_" ++ output) parameters,
   "    " ++ jinja (name ++ "(" ++ source ++ ")"),
   "    -- Filter for " ++ output ++ " output",
   macroClosing]

/-- Names with commas between them, or a word for none. -/
def namesOr (other : String) (names : List String) : String :=
  if names.isEmpty then other else String.intercalate ", " names

def macroEntry (names : List (String × String)) (inv : MacroInventory) (key : String)
    (info : MacroInfo) (w : Workflow) : List String :=
  ["  - name: " ++ (names.lookup info.path).getD (sanitize key),
   "    description: \"" ++ (filled w.metadata.description).getD "Converted from Alteryx macro"
     ++ "\"",
   "    original_file: \"" ++ info.path ++ "\"",
   "    used_by_workflows: " ++ toString (inv.usersOf key).length]
  ++ (if info.inputs.isEmpty then [] else ["    inputs: " ++ Text.quotedList info.inputs])
  ++ (if info.outputs.isEmpty then [] else ["    outputs: " ++ Text.quotedList info.outputs])
  ++ [""]

def macroList (names : List (String × String)) (inv : MacroInventory) : String :=
  lines <|
    ["# DBT Macros generated from Alteryx macros",
     "# These macros provide reusable SQL transformations",
     "#",
     "# Usage: \x7b\x7b macro_name(ref('source_model')) \x7d\x7d", "",
     "macros:"]
    ++ inv.macros.flatMap fun (key, info) =>
      match info.found, info.workflow with
      | true, some w => macroEntry names inv key info w
      | _, _ => []

/-- What a macro reads from: its first input. -/
def MacroParts.source (parts : MacroParts) : String := parts.inputs.headD "source_relation"

def MacroParts.parameters (parts : MacroParts) : String := namesOr "source_relation" parts.inputs

/-- The lines before the query. -/
def macroHead (info : MacroInfo) (w : Workflow) (name : String) : List String :=
  let parts := macroParts w
  ["\x7b#",
   "    Macro: " ++ name,
   "    Converted from Alteryx macro: " ++ info.name,
   "    Description: " ++ (filled w.metadata.description).getD "Reusable transformation macro", "",
   "    Inputs: " ++ parts.parameters,
   "    Outputs: " ++ namesOr "transformed data" parts.outputs, "",
   "    Usage:",
   "        " ++ jinja (name ++ "(ref('your_source_model'))"),
   "#\x7d", "",
   macroOpening name parts.parameters, ""]

/-- The macros for several outputs. -/
def outputMacros (parts : MacroParts) (name : String) : List String :=
  if parts.outputs.length ≤ 1 then []
  else "" :: ("\x7b# Additional output macros for " ++ name ++ " #\x7d")
    :: parts.outputs.flatMap (outputMacro name parts.parameters parts.source)

namespace Work

/-- The text of a converted macro. -/
def macroText (info : MacroInfo) (name : String) : Work String := do
  match info.workflow with
  | none => return "-- Macro: " ++ info.name ++ "\n-- Could not parse macro content\n"
  | some w =>
    let parts := macroParts w
    let tools := orderedTools w parts.tools
    let blocks ← stepBlocks macroBlock tools.length 0 "source" tools
    let first := "with source as (\n    select * from " ++ jinja parts.source ++ "\n)"
    return lines <|
      macroHead info w name
      ++ [String.intercalate ",\n\n" (first :: blocks), "", "select * from final", "", macroClosing]
      ++ outputMacros parts name

/-- The name of a converted macro. -/
def macroName (key : String) : String := sanitize (Path.ofString key).stem

/-- Writes a converted macro. -/
def writeMacro (key : String) (info : MacroInfo) : Work Unit := do
  let name := macroName key
  modify fun b => { b with macroNames := setField b.macroNames info.path name }
  let text ← macroText info name
  writeText ((← get).dir / "macros" / (name ++ ".sql")) text
  modify fun b => { b with macros := b.macros ++ [name] }

/-- Writes the macros that were found, and their list. -/
def writeMacros (inv : MacroInventory) : Work Unit := do
  inv.macros.forM fun (key, info) =>
    if info.found && info.workflow.isSome then writeMacro key info else pure ()
  let b ← get
  if !b.macros.isEmpty then
    writeText (b.dir / "macros" / "_macros.yml") (macroList b.macroNames inv)

end Work

end Replatform.Project
