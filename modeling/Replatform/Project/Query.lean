import Replatform.Text.Case
import Replatform.Text.Word
/-!
# Columns and tables of a query

What can be read off a query without parsing it: the columns between the first `SELECT` and the
next `FROM`, each by its alias or its last word, and the table behind the first `FROM`.
-/

namespace Replatform.Project

/-- The pieces between commas outside parentheses; a last piece without characters is dropped. -/
def splitColumns (depth : Int) : List Char → List Char → List (List Char)
  | piece, [] => if piece.isEmpty then [] else [piece.reverse]
  | piece, c :: s =>
    if c = ',' && depth == 0 then piece.reverse :: splitColumns depth [] s
    else
      let depth := if c = '(' then depth + 1 else if c = ')' then depth - 1 else depth
      splitColumns depth (c :: piece) s

/-- How far behind the front of a text the blanks before the word `FROM` begin, at a distance of at
least one. -/
def distanceToFrom? : List Char → Option Nat
  | [] => none
  | _ :: s =>
    if s.head?.any Text.isBlank && Text.startsWith "FROM".toList (s.dropWhile Text.isBlank) then
      some 1
    else (distanceToFrom? s).map (· + 1)

/-- Behind the word `SELECT` and `blanks` blanks, the length of the list of columns. As many blanks
as possible are passed over, but the list is not empty. -/
def columnSpan? (s : List Char) : Nat → Option (Nat × Nat)
  | 0 => none
  | blanks + 1 =>
    match distanceToFrom? (s.drop (blanks + 1)) with
    | some length => some (blanks + 1, length)
    | none => columnSpan? s blanks

/-- Where the list of columns begins in a query in capitals, and how long it is. -/
def selectSpan? : List Char → Option (Nat × Nat)
  | [] => none
  | c :: s =>
    let here := do
      let rest ← Text.after? "SELECT".toList (c :: s)
      let (blanks, length) ← columnSpan? rest (rest.takeWhile Text.isBlank).length
      return (6 + blanks, length)
    match here with
    | some span => some span
    | none => (selectSpan? s).map fun (start, length) => (start + 1, length)

/-- The alias of a column: the last word, if `AS` between blanks stands before it. -/
def alias? (column : List Char) : Option (List Char) :=
  let backwards := column.reverse
  let word := backwards.takeWhile Text.isWord
  let rest := backwards.drop word.length
  match rest.dropWhile Text.isBlank with
  | s :: a :: b :: _ =>
    if word != [] && rest.head?.any Text.isBlank && Text.sameLetter 's' s && Text.sameLetter 'a' a
      && Text.isBlank b then some word.reverse
    else none
  | _ => none

/-- The name of a column in a list: its alias, or its last word without quotes and brackets. -/
def columnName? (column : List Char) : Option (List Char) :=
  match alias? column with
  | some a => some a
  | none => do
    let last ← (Text.words column).getLast?
    let name := Text.trimWhile (fun c => c ∈ ['\x22', ',', '[', ']']) last
    if name = [] || name.head? = some '(' then none else some name

/-- The columns that a query selects. -/
def queryColumns (query : String) : List String :=
  match selectSpan? (Text.upper query.toList) with
  | none => []
  | some (start, length) =>
    let clause := (query.toList.drop start).take length
    if Text.strip clause = ['*'] then []
    else
      let columns := ((splitColumns 0 [] clause).map Text.strip).filter fun c =>
        c != [] && c != ['*']
      (columns.filterMap columnName?).map String.ofList

/-- The reference to a table behind the first `FROM` that has one; `before` is the character before
the text. -/
def tableReference? (before : Option Char) : List Char → Option (List Char)
  | [] => none
  | c :: s =>
    let here := do
      if Text.atWordStart before then
        let rest ← Text.afterName? "FROM".toList (c :: s)
        if rest.head?.any Text.isBlank then
          let reference := (rest.dropWhile Text.isBlank).takeWhile fun c =>
            !Text.isBlank c && c != ',' && c != '(' && c != ')'
          if reference = [] then none else some reference
        else none
      else none
    match here with
    | some reference => some reference
    | none => tableReference? (some c) s

/-- The table that a query reads, without schema, quotes and brackets. -/
def queryTable? (query : String) : Option String := do
  let reference ← tableReference? none query.toList
  let plain := Text.trimWhile
    (fun c => c ∈ ['[', ']', '\x22', '\x27', '\x60']) reference
  return String.ofList ((Text.splitOn ['.'] plain).getLast?.getD [])

end Replatform.Project
