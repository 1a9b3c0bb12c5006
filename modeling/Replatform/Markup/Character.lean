import Replatform.Markup.NameTable
import Replatform.Text.Word
/-!
# Characters of documents

Which characters a document may hold, which of them separate, and which make up names.
-/

namespace Replatform.Markup

open Replatform

/-- Whether a document may hold the code point: no controls but tabulator and line ends, no
halves of pairs, and neither of the last two code points of the first plane. -/
def isCodePoint (n : Nat) : Bool :=
  n == 9 || n == 10 || n == 13 || (0x20 ≤ n && n ≤ 0xD7FF) || (0xE000 ≤ n && n ≤ 0xFFFD)
    || (0x10000 ≤ n && n ≤ 0x10FFFF)

/-- The character may stand in a document. -/
def isChar (c : Char) : Bool := isCodePoint c.toNat

/-- The character is white space. -/
def isSpace (c : Char) : Bool := c == ' ' || c == '\t' || c == '\n' || c == '\r'

/-- The character may begin a name. -/
def isNameStart (c : Char) : Bool :=
  if c.toNat < 128 then c.isAlpha || c == '_'
  else c == '\u212e' || Text.isLetter c && Text.inRanges nameStartRanges c.toNat

/-- The character may stand in a name. -/
def isNameChar (c : Char) : Bool :=
  if c.toNat < 128 then c.isAlphanum || c == '_' || c == '-' || c == '.'
  else isNameStart c || Text.inRanges nameRanges c.toNat

/-- The text without the white space in front. -/
def skipSpaces (s : List Char) : List Char := s.dropWhile isSpace

/-- The text behind white space that has to be there. -/
def spaces? : List Char → Option (List Char)
  | c :: s => if isSpace c then some (skipSpaces s) else none
  | [] => none

/-- A name without a colon, and what follows it. -/
def takeName? : List Char → Option (List Char × List Char)
  | c :: s =>
    if isNameStart c then some (c :: s.takeWhile isNameChar, s.dropWhile isNameChar) else none
  | [] => none

/-- A name as it is written: a mark that stands for a namespace, if there is one, and a label. -/
structure WrittenName where
  mark : Option String
  label : String
deriving DecidableEq, Repr

/-- The name that comes first, and what follows. -/
def takeWrittenName? (s : List Char) : Option (WrittenName × List Char) := do
  let (first, rest) ← takeName? s
  match rest with
  | ':' :: rest =>
    let (second, rest) ← takeName? rest
    if rest.head? = some ':' then none
    else some (⟨some (String.ofList first), String.ofList second⟩, rest)
  | _ => some (⟨none, String.ofList first⟩, rest)

/-- A text between quotation marks of either kind, and what follows it. -/
def takeQuoted? : List Char → Option (List Char × List Char)
  | q :: s =>
    if q == '\x22' || q == '\x27' then
      match s.dropWhile (· != q) with
      | _ :: rest => some (s.takeWhile (· != q), rest)
      | [] => none
    else none
  | [] => none

/-- The text up to a stop, and what follows it. -/
def takeUntil? (stop : List Char) : List Char → Option (List Char × List Char)
  | [] => none
  | c :: s =>
    match Text.after? stop (c :: s) with
    | some rest => some ([], rest)
    | none => (takeUntil? stop s).map fun (front, rest) => (c :: front, rest)

end Replatform.Markup
