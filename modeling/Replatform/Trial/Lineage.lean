import Replatform.Lineage.Inventory
import Replatform.Lineage.Step
import Replatform.Trial.Setting
/-!
# Trials of documents and lineage

Sample workflows are read back, and the lineage of one is traced. For the latter the workflow gets
a source for every type of file and of database, and a target for every type of file, none of them
connected. Hints and descriptions are also made for single tools.
-/

namespace Replatform.Trial

/-- Files with the three suffixes of workflows. -/
def documentFiles : List String := ["sample.yxmd", "sample.yxmc", "sample.yxwz"]

/-- A file of another type, and one that is not there. -/
def refusedFiles : List String := ["sample.txt", "absent.yxmd"]

/-- The trial of documents: the first connection that is read from each file, and the number of all
tools, connections and refusals. -/
def documentTrial : Plan := fun dir size => do
  let text ← orStop ({ size : Sample.Shape }).document
  (documentFiles ++ refusedFiles.take 1).forM fun name => writeText (dir / name) text
  let read ← documentFiles.mapM fun name => load (dir / name)
  let fs := (← get).files
  let refused := refusedFiles.filter fun name =>
    (Workflow.load fs (dir / name).toString).toOption.isNone
  return .list ((read.filterMap fun w => w.connections.head?.map (.text ·.write))
    ++ [count (read.foldl (fun n w => n + (w.tools.length + w.connections.length))
      refused.length)])

def looseSource (id : Int) : Tool :=
  { id, plugin := Sample.ownPlugin "DbFileInput", name := "Input Data", category := .input }

def looseTarget (id : Int) : Tool :=
  { id, plugin := Sample.ownPlugin "DbFileOutput", name := "Output Data", category := .output }

def fileSuffixes : List String := [".csv", ".xlsx", ".json", ".xml", ".yxdb", ".dat"]

def looseTools : List Tool :=
  (fileSuffixes.zipIdx.map fun (s, i) =>
      { looseSource (1000 + i) with sourcePath := some ("/data/in" ++ s) })
    ++ (Sample.databases.zipIdx.map fun (c, i) =>
      { looseSource (1100 + i) with connection := some c, table := some "t" })
    ++ (fileSuffixes.zipIdx.map fun (s, i) =>
      { looseTarget (1200 + i) with targetPath := some ("/data/out" ++ s) })

def singleTools : List Tool :=
  [{ id := 1, name := "Filter", expression := some "[a]>0" },
   { id := 2, name := "Formula"
     settings := [("formulas", .list [.record [("field", .text "f"),
       ("expression", .text "[a]+1")]])] },
   { id := 3, name := "Join", joinKeys := ["a=b", "c=d"] },
   { id := 4, name := "Summarize", groupBy := ["g"]
     summaries := [⟨some "x", some "Sum", some "sx"⟩,
       ⟨some "y", some "CountDistinct", some "cy"⟩] },
   { id := 5, name := "Union" },
   { id := 6, name := "Select", selected := ["a", "b", "c"] },
   { looseSource 7 with table := some "t" },
   { looseSource 8 with sourcePath := some "/p/f.csv" },
   { id := 9, name := "Unknown" }]

def lineageTrial : Plan := fun dir size => do
  let file := dir / "sample.yxmd"
  writeText file (← orStop ({ size : Sample.Shape }).document)
  let w ← load file
  let w := { w with tools := w.tools ++ looseTools }
  let steps ← orStop (w.steps true)
  let ways ← orStop (w.lineage true)
  let descriptions ← orStop (singleTools.mapM Lineage.describe)
  return .list [count steps.length, count ways.length, count w.sources.length,
    count w.targets.length, count (Layer.all.foldl (fun n l => n + (w.inLayer l).length) 0),
    textItems (steps.map fun s => (s.hint.take 12).toString),
    textItems (singleTools.map (Lineage.hint false) ++ descriptions)]

end Replatform.Trial
