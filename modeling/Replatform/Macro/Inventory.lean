import Replatform.Workflow.Basic
/-!
# Macros and who uses them

What is known about a macro that workflows refer to, and an inventory that keeps one entry for each
name of a macro, with the workflows that use it. The entry is the one that came first.
-/

namespace Replatform

/-- What is known of a macro. -/
structure MacroInfo where
  name : String
  path : String
  found : Bool := false
  /-- Where the file of the macro is. -/
  place : Option String := none
  workflow : Option Workflow := none
  inputs : List String := []
  outputs : List String := []
  description : Option String := none
deriving Repr

/-- Macros by name, in the order in which they came, each with the workflows that use it, one entry
for each use. -/
structure MacroInventory where
  macros : List (String × MacroInfo) := []
  usage : List (String × List String) := []
deriving Repr

/-- The numbers of an inventory. -/
structure MacroInventory.Summary where
  total : Nat
  found : Nat
  missing : Nat
  shared : Nat
  usage : List (String × Nat)
deriving DecidableEq, Repr

namespace MacroInventory

/-- The workflows that use a macro, once for each use. -/
def usersOf (inv : MacroInventory) (name : String) : List String := (inv.usage.lookup name).getD []

/-- Adds a use. What came first about a macro is kept. -/
def add (inv : MacroInventory) (info : MacroInfo) (workflow : String) : MacroInventory :=
  { macros :=
      if (inv.macros.lookup info.name).isSome then inv.macros
      else inv.macros ++ [(info.name, info)]
    usage := setField inv.usage info.name (inv.usersOf info.name ++ [workflow]) }

/-- Adds the uses of macros by a workflow, one for each reference. -/
def addAll (inv : MacroInventory) (infos : List (String × MacroInfo)) (workflow : String) :
    MacroInventory :=
  infos.foldl (fun inv (_, info) => inv.add info workflow) inv

def infos (inv : MacroInventory) : List MacroInfo := inv.macros.map (·.2)

/-- The macros with several uses. -/
def shared (inv : MacroInventory) : List MacroInfo :=
  inv.usage.filterMap fun (name, users) =>
    if 1 < users.length then inv.macros.lookup name else none

/-- The macros that were not found. -/
def missing (inv : MacroInventory) : List MacroInfo := inv.infos.filter (!·.found)

/-- The numbers of the inventory. -/
def summary (inv : MacroInventory) : Summary :=
  { total := inv.macros.length
    found := (inv.infos.filter (·.found)).length
    missing := inv.missing.length
    shared := inv.shared.length
    usage := inv.usage.map fun (name, users) => (name, users.length) }

end MacroInventory

end Replatform
