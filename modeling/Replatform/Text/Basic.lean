/-!
# Plain operations on text

Text is handled as a list of characters, so that every operation is a recursion on the data and
lengths and positions count characters. The operations here know nothing about classes of
characters: search, cutting at a separator, replacement of every occurrence, joining, and order.

The replacement of a pattern goes from left to right and never looks again at what it wrote.
-/

namespace Replatform.Text

/-- What follows `pat` in `s`, when `s` begins with `pat`. -/
def after? : List Char → List Char → Option (List Char)
  | [], s => some s
  | _ :: _, [] => none
  | p :: pat, c :: s => if p = c then after? pat s else none

/-- The text begins with a pattern. -/
def startsWith (pat s : List Char) : Bool := (after? pat s).isSome

/-- The text ends with a pattern. -/
def endsWith (pat s : List Char) : Bool := startsWith pat.reverse s.reverse

/-- The position of the first occurrence of `pat`, counted in characters. -/
def find? (pat : List Char) : List Char → Option Nat
  | [] => if pat = [] then some 0 else none
  | c :: s => if startsWith pat (c :: s) then some 0 else (find? pat s).map (· + 1)

/-- The pattern is in the text. -/
def has (pat s : List Char) : Bool := (find? pat s).isSome

/-- The text with occurrences of `pat` replaced, of which the first `skip` characters belong to
an occurrence that is already replaced. -/
def replaceGo (pat new : List Char) : Nat → List Char → List Char
  | _, [] => []
  | skip + 1, _ :: s => replaceGo pat new skip s
  | 0, c :: s =>
    if startsWith pat (c :: s) then new ++ replaceGo pat new (pat.length - 1) s
    else c :: replaceGo pat new 0 s

/-- Every occurrence of `pat`, found from left to right, becomes `new`. The empty pattern
occurs nowhere. -/
def replaceAll (pat new s : List Char) : List Char :=
  if pat = [] then s else replaceGo pat new 0 s

/-- The pieces between occurrences of `sep`; the first `skip` characters belong to a separator
that is already passed. -/
def splitGo (sep : List Char) : Nat → List Char → List (List Char)
  | _, [] => [[]]
  | skip + 1, _ :: s => splitGo sep skip s
  | 0, c :: s =>
    if startsWith sep (c :: s) then [] :: splitGo sep (sep.length - 1) s
    else match splitGo sep 0 s with
      | piece :: pieces => (c :: piece) :: pieces
      | [] => [[c]]

/-- The pieces of `s` between the occurrences of `sep`. There is always at least one piece. -/
def splitOn (sep s : List Char) : List (List Char) :=
  if sep = [] then [s] else splitGo sep 0 s

/-- The pieces of `s` between the characters that satisfy `p`. -/
def splitWhen (p : Char → Bool) : List Char → List (List Char)
  | [] => [[]]
  | c :: s =>
    if p c then [] :: splitWhen p s
    else match splitWhen p s with
      | piece :: pieces => (c :: piece) :: pieces
      | [] => [[c]]

/-- Texts with a separator between them. -/
def join (sep : List Char) : List (List Char) → List Char
  | [] => []
  | [p] => p
  | p :: q :: ps => p ++ sep ++ join sep (q :: ps)

/-- `s` without trailing characters that satisfy `p`. -/
def dropEndWhile (p : Char → Bool) (s : List Char) : List Char := (s.reverse.dropWhile p).reverse

/-- `s` without the characters that satisfy `p` at either end. -/
def trimWhile (p : Char → Bool) (s : List Char) : List Char := dropEndWhile p (s.dropWhile p)

/-- The last `n` characters. -/
def takeEnd (n : Nat) (s : List Char) : List Char := s.drop (s.length - n)

/-- The text with one kind of line ends. -/
def unifyLineEnds : List Char → List Char
  | [] => []
  | '\r' :: '\n' :: s => '\n' :: unifyLineEnds s
  | c :: s => (if c == '\r' then '\n' else c) :: unifyLineEnds s

def lines (xs : List String) : String := String.intercalate "\n" xs

/-- Whether a row of texts comes no later than another: the first texts that differ decide. -/
def leRow : List String → List String → Bool
  | [], _ => true
  | _ :: _, [] => false
  | a :: as, b :: bs => if a = b then leRow as bs else decide (a ≤ b)

/-- The first `n` characters of a text, with dots if there are more. -/
def clip (n : Nat) (s : String) : String :=
  if s.length ≤ n then s else String.ofList (s.toList.take n) ++ "..."

end Replatform.Text
