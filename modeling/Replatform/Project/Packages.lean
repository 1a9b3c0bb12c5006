import Replatform.Files
/-!
# Packages that read data files

Workbooks and column stores are read by packages of others. Each of them may be missing, and what it
makes of a file is its own affair, so that a project is built for any such packages.
-/

namespace Replatform.Project

/-- What comes of a package that is to read a file. -/
inductive Attempt (α : Type)
  | missing
  | failed (words : String)
  | read (answer : α)
deriving DecidableEq, Repr

/-- A cell of a sheet, with its value in words. -/
inductive Cell
  | empty
  /-- The value counts as nothing, such as zero or a text without characters. -/
  | hollow (words : String)
  | full (words : String)
deriving DecidableEq, Repr

/-- The words of a cell that has a value. -/
def Cell.words? : Cell → Option String
  | .empty => none
  | .hollow words | .full words => some words

/-- The words of a cell whose value counts. -/
def Cell.filling? : Cell → Option String
  | .full words => some words
  | _ => none

/-- A sheet, row by row. -/
abbrev Sheet := List (List Cell)

/-- A workbook that was opened: the sheet in front, if there is one, and whether it could be closed
again. -/
structure Workbook where
  front : Option Sheet
  closed : Bool := true
deriving DecidableEq, Repr

/-- The packages, by what they make of the files on a disk. -/
structure Packages where
  /-- The workbook in a file. -/
  workbook : Files → String → Attempt Workbook := fun _ _ => .missing
  /-- The first sheet of a workbook of the old kind. -/
  oldSheet : Files → String → Attempt Sheet := fun _ _ => .missing
  /-- The columns of a column store. -/
  store : Files → String → Attempt (List String) := fun _ _ => .missing

end Replatform.Project
