import Replatform.Failure
/-!
# Quotes and parentheses

A formula is scanned with two things in mind: whether the scan is inside a literal, which begins
at a single or double quote and ends at the next quote of the same kind, and how many parentheses
are open outside literals. From this come the parenthesis that closes a call, and the arguments of
a call, which are parted by the commas that are inside no literal and no inner parenthesis.
-/

namespace Replatform.Formula

def isQuote (c : Char) : Bool := c == '\x22' || c == '\x27'

/-- The quote that is open after `c`, when `quote` is open before it. -/
def nextQuote (quote : Option Char) (c : Char) : Option Char :=
  match quote with
  | none => if isQuote c then some c else none
  | some q => if c = q then none else some q

/-- The position of the parenthesis that closes the last of `depth + 1` open ones, in a text that
is scanned with `quote` open. -/
def closing? (depth : Nat) (quote : Option Char) : List Char → Option Nat
  | [] => none
  | c :: s =>
    if quote.isSome || isQuote c then (closing? depth (nextQuote quote c) s).map (· + 1)
    else if c = '(' then (closing? (depth + 1) none s).map (· + 1)
    else if c = ')' then
      match depth with
      | 0 => some 0
      | d + 1 => (closing? d none s).map (· + 1)
    else (closing? depth none s).map (· + 1)

/-- The position of the parenthesis that closes the one at position `start`. -/
def matching? (s : List Char) (start : Nat) : Option Nat :=
  (closing? 0 none (s.drop (start + 1))).map (· + (start + 1))

/-- The text that is read from position `start + 1` on. A position before the beginning counts from
the end, and then reading goes on at the beginning; it fails when there are not so many
characters. -/
def readFrom (s : List Char) (start : Int) : Except Failure (List Char) :=
  if -1 ≤ start then .ok (s.drop (start + 1).toNat)
  else if (-(start + 1)).toNat ≤ s.length then .ok (Text.takeEnd (-(start + 1)).toNat s ++ s)
  else .error .noCharacter

/-- The position of the closing parenthesis in a text that is read from `start + 1` on, or -1. -/
def matchingFrom (s : List Char) (start : Int) : Except Failure Int :=
  (readFrom s start).map fun rest =>
    match closing? 0 none rest with
    | some i => start + 1 + i
    | none => -1

/-- The pieces of a text between the commas that stand outside literals at depth 0, when the text
is scanned with `quote` open at depth `depth`. -/
def pieces (depth : Int) (quote : Option Char) : List Char → List (List Char)
  | [] => [[]]
  | c :: s =>
    if quote.isNone && c == ',' && depth == 0 then [] :: pieces depth none s
    else
      let depth' :=
        if quote.isSome then depth
        else if c = '(' then depth + 1
        else if c = ')' then depth - 1
        else depth
      match pieces depth' (nextQuote quote c) s with
      | p :: ps => (c :: p) :: ps
      | [] => [[c]]

/-- The last piece is dropped when it is blank; the others are kept even then. -/
def dropLastBlank : List (List Char) → List (List Char)
  | [] => []
  | [p] => if p = [] then [] else [p]
  | p :: q :: ps => p :: dropLastBlank (q :: ps)

/-- The arguments in the text between the parentheses of a call. -/
def splitArgs (s : List Char) : List (List Char) := dropLastBlank ((pieces 0 none s).map Text.strip)

end Replatform.Formula
