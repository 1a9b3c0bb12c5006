import Replatform.Text.Basic
/-!
# Blanks

The characters that separate words: the controls from tabulator to carriage return, the four
separators U+001C to U+001F, the space, and the spaces and line ends of other scripts. Text is
stripped of blanks at its ends, and split into words at runs of blanks.
-/

namespace Replatform.Text

/-- Whether a code point lies in one of the closed ranges. -/
def inRanges (ranges : List (Nat × Nat)) (n : Nat) : Bool := ranges.any fun r => r.1 ≤ n && n ≤ r.2

/-- The closed ranges of a table that gives in turn the distance of a range from the one before it
and its length. The first distance is from `start`. -/
def rangesOf (start : Nat) : List Nat → List (Nat × Nat)
  | gap :: length :: table =>
    (start + gap, start + gap + length - 1) :: rangesOf (start + gap + length) table
  | _ => []

/-- The code points that count as blank, as closed ranges. -/
def blankRanges : List (Nat × Nat) :=
  [(9, 13), (28, 32), (133, 133), (160, 160), (5760, 5760), (8192, 8202), (8232, 8233),
   (8239, 8239), (8287, 8287), (12288, 12288)]

def isBlank (c : Char) : Bool := inRanges blankRanges c.toNat

/-- The text without blanks at its ends. -/
def strip (s : List Char) : List Char := trimWhile isBlank s

/-- The maximal runs of characters that are no blanks, in order. -/
def words (s : List Char) : List (List Char) := (splitWhen isBlank s).filter (· ≠ [])

end Replatform.Text
