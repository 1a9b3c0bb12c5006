import Replatform.Value
/-!
# JSON documents

Reading a JSON document into a value, and writing a value as a document. Numbers with a point or an
exponent become fractions, the others whole numbers; the names `NaN` and `Infinity` are read as
well. Of fields with the same name the last value counts, in the place of the first. Nothing may
follow the document.
-/

namespace Replatform.Json

open Number

/-- The text without the blanks of the format at its beginning. -/
def skip (s : List Char) : List Char :=
  s.dropWhile fun c => c == ' ' || c == '\t' || c == '\n' || c == '\r'

/-- The code unit of four hexadecimal digits. -/
def unit? (a b c d : Char) : Option Nat := do
  let a ← hexValue? a
  let b ← hexValue? b
  let c ← hexValue? c
  let d ← hexValue? d
  return ((a * 16 + b) * 16 + c) * 16 + d

/-- What a letter behind a backslash stands for. -/
def escape? : Char → Option Char
  | '\x22' => some '\x22'
  | '\\' => some '\\'
  | '/' => some '/'
  | 'b' => some '\x08'
  | 'f' => some '\x0c'
  | 'n' => some '\n'
  | 'r' => some '\r'
  | 't' => some '\t'
  | _ => none

/-- The code units of a string up to its closing quote, and what follows it. -/
def units? : List Char → Option (List Nat × List Char)
  | [] => none
  | '\\' :: 'u' :: a :: b :: c :: d :: s => do
    let u ← unit? a b c d
    let (us, rest) ← units? s
    return (u :: us, rest)
  | '\\' :: c :: s => do
    let e ← escape? c
    let (us, rest) ← units? s
    return (e.toNat :: us, rest)
  | c :: s =>
    if c = '\x22' then some ([], s)
    else if c.toNat < 32 ∨ c = '\\' then none
    else do
      let (us, rest) ← units? s
      return (c.toNat :: us, rest)

/-- The characters of code units, where two halves of a pair become one character. A half that
stands alone is no character and becomes the replacement character. -/
def ofUnits : List Nat → List Char
  | [] => []
  | [u] => [if 0xD800 ≤ u ∧ u ≤ 0xDFFF then '�' else Char.ofNat u]
  | u :: v :: us =>
    if 0xD800 ≤ u ∧ u ≤ 0xDBFF ∧ 0xDC00 ≤ v ∧ v ≤ 0xDFFF then
      Char.ofNat (0x10000 + (u - 0xD800) * 0x400 + (v - 0xDC00)) :: ofUnits us
    else if 0xD800 ≤ u ∧ u ≤ 0xDFFF then '�' :: ofUnits (v :: us)
    else Char.ofNat u :: ofUnits (v :: us)

/-- The string up to the closing quote, and what follows. -/
def string? (s : List Char) : Option (String × List Char) :=
  (units? s).map fun (us, rest) => (String.ofList (ofUnits us), rest)

/-- The digits that come first. -/
def plainDigits (s : List Char) : List Char := s.takeWhile Char.isDigit

/-- The whole part of a number: a zero, or digits that do not begin with one. -/
def wholePart? : List Char → Option (List Char × List Char)
  | '0' :: s => some (['0'], s)
  | s =>
    match plainDigits s with
    | [] => none
    | ds => some (ds, s.drop ds.length)

/-- The point and the digits behind it, if there are any. -/
def fractionPart : List Char → List Char × List Char
  | '.' :: s =>
    match plainDigits s with
    | [] => ([], '.' :: s)
    | ds => (ds, s.drop ds.length)
  | s => ([], s)

/-- The exponent, if there is one, and what follows. -/
def exponentPart : List Char → Option Int × List Char
  | c :: s =>
    if c = 'e' ∨ c = 'E' then
      let (negative, body) := sign s
      match plainDigits body with
      | [] => (none, c :: s)
      | ds =>
        let n : Int := ofDigits (ds.map fun d => d.toNat - 48)
        (some (if negative then -n else n), body.drop ds.length)
    else (none, c :: s)
  | [] => (none, [])

/-- A number without its sign. Whole numbers of too many digits are refused. -/
def number? (negative : Bool) (s : List Char) : Option (Value × List Char) := do
  let (whole, rest) ← wholePart? s
  let (part, rest') := fractionPart rest
  let (e, rest'') := exponentPart rest'
  let n := ofDigits ((whole ++ part).map fun d => d.toNat - 48)
  if part = [] ∧ e = none then
    if digitLimit < whole.length then none
    else return (.int (if negative then -(n : Int) else n), rest'')
  else return (.float (Binary64.ofDecimal negative n (e.getD 0 - part.length)), rest'')

/-- The values that are written as words. -/
def names : List (String × Value) :=
  [("null", .null), ("true", .bool true), ("false", .bool false), ("NaN", .float .nan),
   ("Infinity", .float (.infinite false)), ("-Infinity", .float (.infinite true))]

/-- A value that is written as a word. -/
def named? (s : List Char) : Option (Value × List Char) :=
  names.findSome? fun (name, v) => (Text.after? name.toList s).map (v, ·)

mutual

/-- The value that comes first, and what follows. -/
def value? : Nat → List Char → Option (Value × List Char)
  | 0, _ => none
  | fuel + 1, s =>
    match s with
    | '\x22' :: rest => (string? rest).map fun (t, tail) => (.text t, tail)
    | '[' :: rest =>
      match skip rest with
      | ']' :: tail => some (.list [], tail)
      | body => (items? fuel body).map fun (vs, tail) => (.list vs, tail)
    | '\x7b' :: rest =>
      match skip rest with
      | '\x7d' :: tail => some (.record [], tail)
      | body => (fields? fuel [] body).map fun (fs, tail) => (.record fs, tail)
    | _ =>
      match named? s with
      | some r => some r
      | none =>
        match s with
        | '-' :: rest => number? true rest
        | _ => number? false s

/-- The items of a list up to its bracket. -/
def items? : Nat → List Char → Option (List Value × List Char)
  | 0, _ => none
  | fuel + 1, s => do
    let (v, rest) ← value? fuel s
    match skip rest with
    | ']' :: tail => return ([v], tail)
    | ',' :: tail =>
      let (vs, end_) ← items? fuel (skip tail)
      return (v :: vs, end_)
    | _ => none

/-- The fields of a record up to its closing brace, behind the fields `before`. -/
def fields? : Nat → List (String × Value) → List Char →
    Option (List (String × Value) × List Char)
  | 0, _, _ => none
  | fuel + 1, before, s =>
    match s with
    | '\x22' :: body => do
      let (key, rest) ← string? body
      match skip rest with
      | ':' :: rest' =>
        let (v, rest'') ← value? fuel (skip rest')
        let fs := setField before key v
        match skip rest'' with
        | '\x7d' :: tail => return (fs, tail)
        | ',' :: tail => fields? fuel fs (skip tail)
        | _ => none
      | _ => none
    | _ => none

end

/-- The value of a document; nothing, if it is malformed. -/
def read? (document : String) : Option Value :=
  let s := document.toList
  match value? (2 * s.length + 2) (skip s) with
  | some (v, rest) => if skip rest = [] then some v else none
  | none => none

/-- The code units of a character: two for those that do not fit into one. -/
def unitsOf (c : Char) : List Nat :=
  if c.toNat < 0x10000 then [c.toNat]
  else [0xD800 + (c.toNat - 0x10000) / 0x400, 0xDC00 + (c.toNat - 0x10000) % 0x400]

/-- A character inside a string. The quote and the backslash are escaped, and so is every character
but the printable ones of ASCII. -/
def writeChar (c : Char) : List Char :=
  if c = '\x22' ∨ c = '\\' then ['\\', c]
  else if 32 ≤ c.toNat ∧ c.toNat < 127 then [c]
  else (unitsOf c).flatMap fun u => '\\' :: 'u' :: Text.hexDigits 4 u

def writeString (s : String) : String :=
  String.ofList ('\x22' :: (s.toList.flatMap writeChar ++ ['\x22']))

mutual

/-- A value as a document without blanks. -/
def write : Value → String
  | .null => "null"
  | .bool b => if b then "true" else "false"
  | .int n => toString n
  | .float x => x.write
  | .text s => writeString s
  | .list vs => "[" ++ writeItems vs ++ "]"
  | .record fs => "\x7b" ++ writeFields fs ++ "\x7d"

def writeItems : List Value → String
  | [] => ""
  | [v] => write v
  | v :: w :: vs => write v ++ "," ++ writeItems (w :: vs)

def writeFields : List (String × Value) → String
  | [] => ""
  | [(key, v)] => writeString key ++ ":" ++ write v
  | (key, v) :: f :: fs => writeString key ++ ":" ++ write v ++ "," ++ writeFields (f :: fs)

end

end Replatform.Json
