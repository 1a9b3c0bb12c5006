import Replatform.Macro.Resolver
import Replatform.Trial.Setting
/-!
# Trials of macros

An inventory of many macros, of which every third is missing and the first twenty are used twice.
Then the macros of two sample workflows are looked for and added to it, those of the first in three
ways, and those of a workflow whose macros are nowhere.
-/

namespace Replatform.Trial

def listedMacro (i : Nat) : MacroInfo :=
  let name := "m" ++ toString i ++ ".yxmc"
  { name, path := "macros/" ++ name, found := i % 3 ≠ 0 }

/-- How many macros are used twice. -/
def sharedLimit : Nat := 20

def listedInventory (n : Nat) : MacroInventory :=
  let infos := (List.range n).map listedMacro
  let once := infos.foldl (fun inv m => inv.add m "First") ({} : MacroInventory)
  (infos.take sharedLimit).foldl (fun inv m => inv.add m "Second") once

def phantomWorkflow : Workflow :=
  { metadata := { name := "Phantom", path := "phantom.yxmd" }
    macros := (List.range 3).map fun i => "Phantom" ++ toString i ++ ".yxmc" }

/-- Looks for the macros of a workflow, and adds them to an inventory. -/
def addMacros (resolver : Resolver) (inv : MacroInventory) (w : Workflow) :
    Run (MacroInventory × Workflow) := do
  let sought ← resolver.resolveWorkflow w
  return (inv.addAll (← orStop sought.infos) w.metadata.name, sought.workflow)

def silent : Resolver := { interactive := false, skipAll := true }

/-- Three ways to find a macro: beside the workflow, in a directory, and where it was before. -/
def resolvers (dir : Path) : Run (List Resolver) := do
  let known := (dir / "macros" / "DataValidator.yxmc").toString
  return [silent, ← silent.addDirectory (dir / "macros").toString,
    { silent with resolved := [("macros/DataValidator.yxmc", known)] }]

def summaryValue (s : MacroInventory.Summary) : Value :=
  .record [("total_macros", count s.total), ("found", count s.found), ("missing", count s.missing),
    ("shared", count s.shared), ("usage", .record (s.usage.map fun (name, n) => (name, count n)))]

/-- How often the numbers are taken. -/
def rounds (n : Nat) : Nat := max 10 (n / 3)

def macroTrial : Plan := fun dir n => do
  let listed := listedInventory n.toNat
  let workflows ← (← setUp dir { size := 12 } 2).mapM load
  let ways ← resolvers dir
  let inv ← (workflows.take 1).foldlM (fun inv w =>
    ways.foldlM (fun inv r => do return (← addMacros r inv w).1) inv) listed
  let (inv, missing) ← (workflows.drop 1).foldlM (fun (inv, missing) w => do
    let (inv, w) ← addMacros silent inv w
    return (inv, missing + w.missing.length)) (inv, 0)
  let (inv, _) ← addMacros silent inv phantomWorkflow
  return .list ((List.replicate (rounds n.toNat) [summaryValue listed.summary,
      count listed.shared.length, count listed.missing.length]).flatten
    ++ [count missing, summaryValue inv.summary])

end Replatform.Trial
