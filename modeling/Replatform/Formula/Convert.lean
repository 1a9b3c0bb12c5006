import Replatform.Formula.Function
import Replatform.Formula.Scan
import Replatform.Text.Case
import Replatform.Text.Word
/-!
# From formulas to SQL

A formula is converted in three passes: field references in brackets become quoted identifiers,
operators become those of SQL, and then the calls of known functions are converted one at a time,
each by its entry in the table, from the inside out. What cannot be converted is marked in the
SQL and noted.

A call that is written in capitals counts as SQL already, unless the table spells the function so.
-/

namespace Replatform.Formula

/-- What a reader of the converted SQL should know. -/
inductive Note
  /-- The function is not in the table. -/
  | unmapped (name : String)
  /-- The pattern has places for which there is no argument. -/
  | wrongArity (name : String) (expected : Option Nat) (given : Nat)
  /-- A case of a `Switch` has no result. -/
  | oddSwitch
deriving DecidableEq, Repr

/-- A note in words. An arity of any number is written as -1. -/
def Note.message : Note → String
  | .unmapped name => "No mapping for Alteryx function: " ++ name
  | .wrongArity name expected given =>
    "Argument mismatch for " ++ name ++ ": expected "
      ++ (match expected with | some n => toString n | none => "-1") ++ ", got " ++ toString given
  | .oddSwitch => "Switch function has odd number of case/result pairs"

/-- Arguments with commas between them. -/
def joinArgs (args : List (List Char)) : List Char := Text.join [',', ' '] args

def writeCall (name : List Char) (args : List (List Char)) : List Char :=
  name ++ '(' :: (joinArgs args ++ [')'])

/-- The pattern with the arguments in their places; nothing, if an argument is missing. -/
def instantiate : List Piece → List (List Char) → Option (List Char)
  | [], _ => some []
  | .text s :: ps, args => (instantiate ps args).map (s.toList ++ ·)
  | .arg i :: ps, args =>
    match args[i]? with
    | some a => (instantiate ps args).map (a ++ ·)
    | none => none

/-- The cases of a `Switch`, given as case, result, case, result and so on. -/
def switchCases : List (List Char) → List (List Char)
  | case :: result :: rest =>
    ("WHEN ".toList ++ case ++ " THEN ".toList ++ result) :: switchCases rest
  | _ => []

/-- A call of a function without a counterpart, under the name `name`. Only `Switch` has a rule
of its own: the value, the default, and then cases and results in turn. -/
def convertManual (name : List Char) (args : List (List Char)) : List Char × List Note :=
  if Text.lower name = "switch".toList then
    match args with
    | value :: fallback :: cases =>
      if cases.length % 2 = 0 then
        ("CASE ".toList ++ value ++ ' ' :: Text.join [' '] (switchCases cases)
          ++ " ELSE ".toList ++ fallback ++ " END".toList, [])
      else (writeCall "/* TODO: Fix Switch */ COALESCE".toList args, [.oddSwitch])
    | _ => ("/* Invalid Switch */ NULL".toList, [])
  else (writeCall ("/* TODO: Convert ".toList ++ name ++ " */ ".toList ++ name) args, [])

/-- A call of `f`, written as `name`, as SQL. -/
def Function.convert (f : Function) (name : List Char) (args : List (List Char)) :
    List Char × List Note :=
  match f.target with
  | .manual => convertManual name args
  | .constant sql => (sql.toList, [])
  | .call sql => (writeCall sql.toList args, [])
  | .pattern ps =>
    match instantiate ps args with
    | some sql => (sql, [])
    | none =>
      (writeCall ("/* TODO: Fix ".toList ++ name ++ " */ ".toList ++ name) args,
        [.wrongArity (String.ofList name) f.arity args.length])

/-- The function of a name, case ignored. -/
def function? (name : List Char) : Option Function :=
  functions.find? fun f => Text.lower f.name.toList = Text.lower name

/-- A call of the function `name`; nothing, with a note, when the table does not have it. -/
def convertCall (name : List Char) (args : List (List Char)) : Option (List Char) × List Note :=
  match function? name with
  | some f => let (sql, notes) := f.convert name args; (some sql, notes)
  | none => (none, [.unmapped (String.ofList name)])

/-- A word in front of a parenthesis: where the word begins, and where the parenthesis is. -/
structure Site where
  start : Nat
  word : List Char
  opening : Nat
deriving DecidableEq, Repr

/-- The site at the beginning of a text, which is at position `pos`: a word, blanks, and a
parenthesis. -/
def site? (pos : Nat) (s : List Char) : Option Site :=
  let word := s.takeWhile Text.isWord
  let behind := s.dropWhile Text.isWord
  if (behind.dropWhile Text.isBlank).head? = some '(' then
    some ⟨pos, word, pos + word.length + (behind.takeWhile Text.isBlank).length⟩
  else none

/-- The sites of a text at position `pos` behind the character `before`. -/
def sites (before : Option Char) (pos : Nat) : List Char → List Site
  | [] => []
  | c :: s =>
    let rest := sites (some c) (pos + 1) s
    if Text.isWord c && Text.atWordStart before then (site? pos (c :: s)).toList ++ rest else rest

def Site.isFor (site : Site) (name : List Char) : Bool := Text.afterName? name site.word == some []

/-- A call in a text: where its name begins, and where its parentheses open and close. -/
structure Call where
  function : Function
  start : Nat
  opening : Nat
  closing : Nat
deriving Repr

/-- The name of the call as it is written. -/
def Call.name (c : Call) (s : List Char) : List Char :=
  Text.strip ((s.drop c.start).take (c.opening - c.start))

/-- The text between the parentheses. -/
def Call.inside (c : Call) (s : List Char) : List Char :=
  (s.drop (c.opening + 1)).take (c.closing - (c.opening + 1))

/-- The text with SQL in place of the call. -/
def Call.replace (c : Call) (sql s : List Char) : List Char :=
  s.take c.start ++ sql ++ s.drop (c.closing + 1)

/-- The call counts as SQL already. -/
def Call.isSql (c : Call) (s : List Char) : Bool :=
  Text.allCapital (c.name s) && c.name s != c.function.name.toList

/-- The calls of `f` at some sites of a text that close and are not SQL already. -/
def callsOf (f : Function) (s : List Char) (found : List Site) : List Call :=
  (found.filter (·.isFor f.name.toList)).filterMap fun site =>
    match matching? s site.opening with
    | some closing =>
      let call : Call := ⟨f, site.start, site.opening, closing⟩
      if call.isSql s then none else some call
    | none => none

/-- Whether the first occurrence of `name` in `rest`, as the table spells it and with the
character behind it, is in capitals. -/
def inCapitals (name rest : List Char) : Bool :=
  match Text.find? name rest with
  | some i =>
    Text.allCapital (Text.dropEndWhile (· == '(') ((rest.drop i).take (name.length + 1)))
  | none => false

/-- Whether a call has to wait for a call between its parentheses. A function that is spelled in
capitals does not count when its next occurrence may be SQL already. -/
def Call.waits (c : Call) (s : List Char) : Bool :=
  let inner := sites none 0 (c.inside s)
  functions.any fun f =>
    inner.any (·.isFor f.name.toList) && !inCapitals f.name.toList (s.drop (c.opening + 1))

/-- The call furthest to the right. -/
def rightmost : List Call → Option Call
  | [] => none
  | c :: cs =>
    match rightmost cs with
    | some d => if c.start < d.start then some d else some c
    | none => some c

/-- The call to convert next: in the order of the table the first that waits for no other, and
if all wait, the one furthest to the right. -/
def nextCall? (s : List Char) : Option Call :=
  let found := sites none 0 s
  let calls := functions.flatMap (callsOf · s found)
  match calls.find? (!·.waits s) with
  | some c => some c
  | none => rightmost calls

/-- At most this many calls are converted in one formula. -/
def callLimit : Nat := 100

/-- The text after at most `limit` conversions. A conversion that changes nothing is the last. -/
def convertCalls : Nat → List Char → List Char × List Note
  | 0, s => (s, [])
  | limit + 1, s =>
    match nextCall? s with
    | none => (s, [])
    | some c =>
      let (sql, notes) := c.function.convert c.function.name.toList (splitArgs (c.inside s))
      let s' := c.replace sql s
      if s' = s then (s, notes)
      else
        let (result, more) := convertCalls limit s'
        (result, notes ++ more)

/-- Whether a field reference ends in `s`, which stands behind its opening bracket. -/
def endsField (s : List Char) : Bool := s.head?.any (· != ']') && s.contains ']'

/-- Field references in brackets as identifiers in double quotes; `inside` tells whether the text
begins inside a reference. -/
def quoteFields (inside : Bool) : List Char → List Char
  | [] => []
  | c :: s =>
    if inside then
      if c = ']' then '\x22' :: quoteFields false s else c :: quoteFields true s
    else if c == '[' && endsField s then '\x22' :: quoteFields true s
    else c :: quoteFields false s

/-- The operators of the formula language and those of SQL, in the order of replacement. -/
def operators : List (String × String) :=
  [("==", "="), ("&&", " AND "), ("||", " OR "), ("!=", "<>"), ("!", " NOT ")]

/-- The text with the operators of SQL. -/
def replaceOperators (s : List Char) : List Char :=
  operators.foldl (fun s (op, sql) => Text.replaceAll op.toList sql.toList s) s

/-- The text before its calls are converted. -/
def prepare (s : List Char) : List Char := replaceOperators (quoteFields false (Text.strip s))

/-- The SQL of a formula, and what was noted on the way. -/
structure Conversion where
  sql : String
  notes : List Note
deriving DecidableEq, Repr

/-- A formula as SQL. The empty formula is `NULL`. -/
def convert (formula : String) : Conversion :=
  if formula.isEmpty then ⟨"NULL", []⟩
  else
    let (sql, notes) := convertCalls callLimit (prepare formula.toList)
    ⟨String.ofList sql, notes⟩

end Replatform.Formula
