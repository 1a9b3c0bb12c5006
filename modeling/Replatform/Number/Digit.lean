import Replatform.Text.Blank
/-!
# Decimal digits

A digit of any script stands for its value. The ten digits of a script follow each other, so the
position of its zero is enough.
-/

namespace Replatform.Number

/-- The zeros of the scripts beyond ASCII. -/
def zeros : List Nat :=
  [1632, 1776, 1984, 2406, 2534, 2662, 2790, 2918, 3046, 3174, 3302, 3430, 3558, 3664, 3792, 3872,
   4160, 4240, 6112, 6160, 6470, 6608, 6784, 6800, 6992, 7088, 7232, 7248, 42528, 43216, 43264,
   43472, 43504, 43600, 44016, 65296, 66720, 68912, 69734, 69872, 69942, 70096, 70384, 70736,
   70864, 71248, 71360, 71472, 71904, 72016, 72784, 73040, 73120, 92768, 92864, 93008, 120782,
   120792, 120802, 120812, 120822, 123200, 123632, 125264, 130032]

/-- The value of a digit of any script. -/
def digitValue? (c : Char) : Option Nat :=
  if c.isDigit then some (c.toNat - 48)
  else (zeros.find? fun z => z ≤ c.toNat && c.toNat < z + 10).map (c.toNat - ·)

/-- The value of a hexadecimal digit. -/
def hexValue? (c : Char) : Option Nat :=
  if c.isDigit then some (c.toNat - 48)
  else if 'a' ≤ c ∧ c ≤ 'f' then some (c.toNat - 87)
  else if 'A' ≤ c ∧ c ≤ 'F' then some (c.toNat - 55)
  else none

/-- Whether `c` may stand around a number. -/
def isPadding (c : Char) : Bool :=
  if c.toNat < 128 then c == ' ' || (9 ≤ c.toNat && c.toNat ≤ 13) else Text.isBlank c

/-- The text without padding at its ends. -/
def trim (s : List Char) : List Char := Text.trimWhile isPadding s

/-- The digits that go on behind a digit, and what follows them. A single underscore may part two
digits. -/
def moreDigits : List Char → List Nat × List Char
  | [] => ([], [])
  | c :: s =>
    match digitValue? c with
    | some d =>
      let (ds, rest) := moreDigits s
      (d :: ds, rest)
    | none => if c == '_' && (s.head?.bind digitValue?).isSome then moreDigits s else ([], c :: s)

/-- The digits that come first, and what follows. -/
def digits (s : List Char) : List Nat × List Char :=
  if (s.head?.bind digitValue?).isSome then moreDigits s else ([], s)

/-- The number of a row of digits. -/
def ofDigits (ds : List Nat) : Nat := ds.foldl (fun n d => 10 * n + d) 0

end Replatform.Number
