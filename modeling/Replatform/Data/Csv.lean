import Replatform.Text.Word
/-!
# Tables in text files

A table has a row for each line and a delimiter between the fields of a row. A field may stand
between double quotes, and then holds delimiters, line ends, and quotes written twice.

The delimiter is guessed from the beginning of the file: from the characters beside quoted fields
if there are any, and otherwise as the character that occurs equally often in nearly all lines.
-/

namespace Replatform.Csv

/-- The delimiters to choose from. -/
def candidates : List Char := [',', ';', '\t', '|']

/-- The candidates in the order in which they are preferred to each other. -/
def preferred : List Char := [',', '\t', ';']

/-! ## Quoted fields -/

/-- Whether the character could stand beside a quoted field. -/
def isBoundary (c : Char) : Bool := !Text.isWord c && c != '\n' && c != '\x22' && c != '\x27'

def isQuote (c : Char) : Bool := c == '\x22' || c == '\x27'

/-- What follows the next quote `q` behind which `good` holds. -/
def afterQuote? (q : Char) (good : List Char → Bool) : List Char → Option (List Char)
  | [] => none
  | c :: s => if c = q && good s then some s else afterQuote? q good s

/-- A quoted field at the front, behind an optional space: what follows its closing quote. -/
def quotedField? (good : List Char → Bool) (s : List Char) : Option (List Char) :=
  match s with
  | ' ' :: q :: rest => if isQuote q then afterQuote? q good rest else none
  | q :: rest => if isQuote q then afterQuote? q good rest else none
  | [] => none

/-- A boundary, a quoted field, and the same boundary: the boundary, and what follows. -/
def between? : List Char → Option (Char × List Char)
  | c :: s =>
    if isBoundary c then (quotedField? (·.head? == some c) s).map fun rest => (c, rest.drop 1)
    else none
  | [] => none

/-- A quoted field at the start of a line, and a boundary with an optional space: the boundary,
and what follows. -/
def leading? (atLineStart : Bool) (s : List Char) : Option (Char × List Char) :=
  let field := match s with
    | '\n' :: q :: rest => if isQuote q then some (q, rest) else none
    | q :: rest => if atLineStart && isQuote q then some (q, rest) else none
    | [] => none
  match field with
  | none => none
  | some (q, rest) =>
    match afterQuote? q (·.head?.any isBoundary) rest with
    | some (d :: ' ' :: rest) => some (d, rest)
    | some (d :: rest) => some (d, rest)
    | _ => none

/-- A boundary and a quoted field at the end of a line: the boundary, and what follows. -/
def trailing? : List Char → Option (Char × List Char)
  | c :: s =>
    if isBoundary c then
      (quotedField? (fun rest => rest.isEmpty || rest.head? == some '\n') s).map (c, ·)
    else none
  | [] => none

/-- The boundaries of all places that a rule finds from left to right, each behind the one
before. -/
def boundaries (rule : Bool → List Char → Option (Char × List Char)) :
    Nat → Bool → List Char → List Char
  | 0, _, _ => []
  | _ + 1, _, [] => []
  | fuel + 1, atLineStart, c :: s =>
    match rule atLineStart (c :: s) with
    | some (d, rest) =>
      let front := (c :: s).take ((c :: s).length - rest.length)
      d :: boundaries rule fuel (front.getLast? == some '\n') rest
    | none => boundaries rule fuel (c == '\n') s

/-- The boundaries beside quoted fields, found by the first rule that finds any. -/
def quotedBoundaries (s : List Char) : List Char :=
  match boundaries (fun _ => between?) (s.length + 1) true s with
  | [] =>
    match boundaries leading? (s.length + 1) true s with
    | [] => boundaries (fun _ => trailing?) (s.length + 1) true s
    | ds => ds
  | ds => ds

/-- The first of the characters that occur most often. -/
def mostFrequent? (cs : List Char) : Option Char :=
  cs.eraseDups.foldl (fun best c =>
    match best with
    | none => some c
    | some b => if cs.count b < cs.count c then some c else some b) none

/-- The delimiter that stands most often beside quoted fields. -/
def quotedDelimiter? (s : List Char) : Option Char :=
  mostFrequent? ((quotedBoundaries s).filter candidates.contains)

/-! ## Even lines -/

/-- How often each number occurs, in the order in which the numbers come. -/
def frequencies (ns : List Nat) : List (Nat × Nat) := ns.eraseDups.map fun n => (n, ns.count n)

/-- The number that occurs most often, and by how much it outweighs all others. -/
def mode (ns : List Nat) : Nat × Int :=
  let best := (frequencies ns).foldl (fun b x => if b.2 < x.2 then x else b) (0, 0)
  (best.1, 2 * best.2 - ns.length)

/-- The candidates that occur equally often in at least `percent` of the lines. -/
def evenAt (lines : List (List Char)) (percent : Nat) : List Char :=
  candidates.filter fun c =>
    let (n, weight) := mode (lines.map (·.count c))
    0 < n && 0 < weight && percent * lines.length ≤ 100 * weight

/-- The candidates at the highest of ten percentages that any of them reaches. -/
def even (lines : List (List Char)) : List Char :=
  ((List.range 10).map fun i => evenAt lines (100 - i)).find? (· != []) |>.getD []

/-- The delimiter of even lines. The lines are looked at ten at a time with all before them, until
one candidate alone is left; where several were found first, the preferred one is taken. -/
def evenDelimiter? (lines : List (List Char)) (chunk : Nat) : Nat → Nat → Option Char
  | 0, _ => none
  | fuel + 1, seen =>
    match even (lines.take (seen + chunk)) with
    | [] =>
      if seen + chunk < lines.length then evenDelimiter? lines chunk fuel (seen + chunk) else none
    | [c] => some c
    | cs => preferred.find? cs.contains

/-- The delimiter of a table, guessed from the beginning of its text. -/
def delimiter? (sample : List Char) : Option Char :=
  match quotedDelimiter? sample with
  | some c => some c
  | none =>
    let lines := (Text.splitWhen (· == '\n') sample).filter (· != [])
    evenDelimiter? lines (min 10 lines.length) (lines.length + 1) 0

/-! ## The first row -/

/-- Where the reader of a line is. -/
inductive Place
  | start
  | field
  | quoted
  /-- Behind a quote inside a quoted field, which closes it or is the first of two. -/
  | behindQuote
deriving DecidableEq, Repr

/-- The fields of a row from a place on, of which the front of the first is read, in reverse. -/
def row (delimiter : Char) : Place → List Char → List Char → List (List Char)
  | _, front, [] => [front.reverse]
  | .quoted, front, c :: s =>
    if c = '\x22' then row delimiter .behindQuote front s
    else row delimiter .quoted (c :: front) s
  | place, front, c :: s =>
    if c = '\x22' && place == .behindQuote then row delimiter .quoted (c :: front) s
    else if c = '\n' then [front.reverse]
    else if c = '\x22' && place == .start then row delimiter .quoted front s
    else if c = delimiter then front.reverse :: row delimiter .start [] s
    else row delimiter .field (c :: front) s

/-- The first row of a table, if it is not empty. -/
def firstRow (delimiter : Char) (s : List Char) : List (List Char) :=
  match s with
  | [] | '\n' :: _ => []
  | _ => row delimiter .start [] s

/-- How much of a text is looked at to guess the delimiter. -/
def sampleSize : Nat := 4096

/-- The names in the first row of a table, without blanks around them; `fallback` is the delimiter
if none can be guessed. There are none if there is no delimiter at all. -/
def header? (fallback : Option Char) (s : List Char) : Option (List String) :=
  ((delimiter? (s.take sampleSize)).or fallback).map fun delimiter =>
    (((firstRow delimiter s).map Text.strip).filter (· != [])).map String.ofList

end Replatform.Csv
