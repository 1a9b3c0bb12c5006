import Replatform.Number.Integer
import Replatform.Text.Case
/-!
# Binary fractions of double precision

A coordinate or a parameter with a fraction is kept as the nearest number of 53 binary digits,
and shown with the fewest decimal digits that lead back to it. All of it is exact arithmetic on
whole numbers: the nearest number to a quotient, the shortest decimal, a fixed number of places.
-/

namespace Replatform.Number

/-- A number `mantissa * 2 ^ exponent`, or one of the values beyond all numbers. -/
inductive Binary64
  | finite (negative : Bool) (mantissa : Nat) (exponent : Int)
  | infinite (negative : Bool)
  | nan
deriving DecidableEq, Repr

namespace Binary64

def minExponent : Int := -1074

def maxExponent : Int := 971

/-- `n * 2 ^ e`, as numerator and denominator. -/
def scale (n : Nat) (e : Int) : Nat × Nat :=
  if 0 ≤ e then (n * Nat.pow 2 e.toNat, 1) else (n, Nat.pow 2 (-e).toNat)

/-- The quotient, rounded to the nearest whole number; a half goes to the even neighbour. -/
def roundDiv (num den : Nat) : Nat :=
  let q := num / den
  let r := num % den
  if 2 * r < den then q else if den < 2 * r then q + 1 else q + q % 2

/-- The exponent at which the quotient has 53 binary digits before the point. -/
def exponentOf (num den : Nat) : Int :=
  let guess : Int := (num.log2 : Int) - den.log2 - 52
  -- the logarithms are rounded down, so the guess may be one too large
  let (n, d) :=
    if 0 ≤ guess then (num, den * Nat.pow 2 guess.toNat)
    else (num * Nat.pow 2 (-guess).toNat, den)
  let e := if n < d * Nat.pow 2 52 then guess - 1 else guess
  if e < minExponent then minExponent else e

/-- The nearest number to `num / den`, for a positive `den`. -/
def ofRatio (negative : Bool) (num den : Nat) : Binary64 :=
  if num = 0 then .finite negative 0 minExponent
  else
    let e := exponentOf num den
    let m :=
      if 0 ≤ e then roundDiv num (den * Nat.pow 2 e.toNat)
      else roundDiv (num * Nat.pow 2 (-e).toNat) den
    let (m, e) := if m = Nat.pow 2 53 then (Nat.pow 2 52, e + 1) else (m, e)
    if maxExponent < e then .infinite negative else .finite negative m e

/-- The nearest number to `n * 10 ^ e`. -/
def ofDecimal (negative : Bool) (n : Nat) (e : Int) : Binary64 :=
  if n = 0 then .finite negative 0 minExponent
  else
    let size : Int := (Nat.toDigits 10 n).length + e
    if 320 < size then .infinite negative
    else if size < -340 then .finite negative 0 minExponent
    else if 0 ≤ e then ofRatio negative (n * Nat.pow 10 e.toNat) 1
    else ofRatio negative n (Nat.pow 10 (-e).toNat)

/-- A decimal: the digits as a number, and the power of ten of the last digit. -/
structure Decimal where
  digits : Nat
  exponent : Int
deriving DecidableEq, Repr

/-- `n / d` divided by `10 ^ k`, as numerator and denominator. -/
def overTen (n d : Nat) (k : Int) : Nat × Nat :=
  if 0 ≤ k then (n, d * Nat.pow 10 k.toNat) else (n * Nat.pow 10 (-k).toNat, d)

/-- The least `p` from the given one on such that the quotient is below `10 ^ p`. -/
def magnitude (num den : Nat) : Nat → Int → Int
  | 0, p => p
  | fuel + 1, p =>
    let (n, d) := overTen num den p
    if n < d then p else magnitude num den fuel (p + 1)

/-- Of the two neighbours of `m * 2 ^ e` on the grid of `10 ^ k`, the one that rounds to
`m * 2 ^ e`, and of two such the nearer. -/
def onGrid? (m : Nat) (e k : Int) : Option Nat :=
  -- in quarters of `2 ^ e`: the ends of what rounds to `4 * m` quarters
  let low := if m = Nat.pow 2 52 ∧ e ≠ minExponent then 4 * m - 1 else 4 * m - 2
  let high := 4 * m + 2
  let (n, d) := scale (4 * m) (e - 2)
  let (n, d) := overTen n d k
  -- `n / d` is the number on the grid, so a quarter is `n / (4 * m * d)`
  let inside (c : Nat) : Bool :=
    if m % 2 = 0 then low * n ≤ c * d * (4 * m) && c * d * (4 * m) ≤ high * n
    else low * n < c * d * (4 * m) && c * d * (4 * m) < high * n
  let below := n / d
  match inside below, inside (below + 1) with
  | true, true => some (roundDiv n d)
  | true, false => some below
  | false, true => some (below + 1)
  | false, false => none

/-- The shortest decimal that rounds to `m * 2 ^ e`, for a positive `m`. Seventeen digits are
always enough. -/
def shortest (m : Nat) (e : Int) : Decimal :=
  let (n, d) := scale m e
  let top := magnitude n d 40 (((m.log2 : Int) + e) * 3 / 10 - 2)
  let hit? (i : Nat) : Option Decimal := (onGrid? m e (top - (i + 1))).map (⟨·, top - (i + 1)⟩)
  ((List.range 17).findSome? hit?).getD ⟨0, 0⟩

/-- The decimal with no zero at its end. -/
def Decimal.normal : Nat → Decimal → Decimal
  | 0, x => x
  | fuel + 1, x =>
    if x.digits ≠ 0 ∧ x.digits % 10 = 0 then normal fuel ⟨x.digits / 10, x.exponent + 1⟩ else x

/-- A decimal in writing: positional from `0.0001` up to below `10 ^ 16`, always with a point, and
otherwise with an exponent of at least two digits. -/
def Decimal.write (x : Decimal) : List Char :=
  let x := x.normal 20
  let ds := Nat.toDigits 10 x.digits
  -- the position of the point, counted from the first digit
  let point : Int := ds.length + x.exponent
  if point ≤ -4 ∨ 16 < point then
    let e := point - 1
    let es := Nat.toDigits 10 e.natAbs
    let mantissa := if ds.length = 1 then ds else ds.take 1 ++ '.' :: ds.drop 1
    mantissa ++ 'e' :: (if e < 0 then '-' else '+') :: (if es.length < 2 then '0' :: es else es)
  else if point ≤ 0 then '0' :: '.' :: (List.replicate (-point).toNat '0' ++ ds)
  else if ds.length ≤ point.toNat then
    ds ++ List.replicate (point.toNat - ds.length) '0' ++ ['.', '0']
  else ds.take point.toNat ++ '.' :: ds.drop point.toNat

/-- A number in writing, with the fewest digits that lead back to it. -/
def write : Binary64 → String
  | .finite negative m e =>
    let body := if m = 0 then ['0', '.', '0'] else (shortest m e).write
    String.ofList (if negative then '-' :: body else body)
  | .infinite negative => if negative then "-inf" else "inf"
  | .nan => "nan"

/-- The absolute value of a number with one place behind the point; a half goes to the even
neighbour. -/
def onePlace (m : Nat) (e : Int) : List Char :=
  let (n, d) := scale (10 * m) e
  let tenths := roundDiv n d
  Nat.toDigits 10 (tenths / 10) ++ '.' :: Nat.toDigits 10 (tenths % 10)

def writeOnePlace : Binary64 → String
  | .finite negative m e => String.ofList (if negative then '-' :: onePlace m e else onePlace m e)
  | x => x.write

/-- The digits behind the point, and what follows them. -/
def fraction : List Char → List Nat × List Char
  | '.' :: s => digits s
  | s => ([], s)

/-- The exponent at the end of a number. Nothing, if there is one that is malformed. -/
def exponent? : List Char → Option Int
  | [] => some 0
  | c :: s =>
    if c.toLower = 'e' then
      let (negative, body) := sign s
      match digits body with
      | (d :: ds, []) => some (if negative then -(ofDigits (d :: ds) : Int) else ofDigits (d :: ds))
      | _ => none
    else none

/-- The number behind a sign. -/
def readUnsigned? (negative : Bool) (s : List Char) : Option Binary64 :=
  let name := s.map Char.toLower
  if name = "inf".toList ∨ name = "infinity".toList then some (.infinite negative)
  else if name = "nan".toList then some .nan
  else
    let (whole, rest) := digits s
    let (part, rest) := fraction rest
    if whole = [] ∧ part = [] then none
    else (exponent? rest).map fun e =>
      ofDecimal negative (ofDigits (whole ++ part)) (e - part.length)

/-- The number written in a text: padding, a sign, digits with a point and an exponent, or the
name of a value beyond all numbers. -/
def read? (text : String) : Option Binary64 :=
  let (negative, body) := sign (trim text.toList)
  readUnsigned? negative body

end Binary64

end Replatform.Number
