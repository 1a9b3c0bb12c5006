import Replatform.Number.Digit
/-!
# Whole numbers

Reading a whole number from text, and writing one with a comma after every thousand.
-/

namespace Replatform.Number

/-- How many digits are read. -/
def digitLimit : Nat := 4300

/-- Why a text is no whole number. -/
inductive IntegerError
  | malformed
  | tooLong (count : Nat)
deriving DecidableEq, Repr

/-- A sign, if there is one, as whether the number is negative, and the rest. -/
def sign : List Char → Bool × List Char
  | '-' :: s => (true, s)
  | '+' :: s => (false, s)
  | s => (false, s)

/-- The whole number written in a text: padding, a sign, digits. -/
def readInteger (text : String) : Except IntegerError Int :=
  let (negative, body) := sign (trim text.toList)
  match digits body with
  | (d :: ds, []) =>
    if digitLimit < ds.length + 1 then .error (.tooLong (ds.length + 1))
    else
      let n := ofDigits (d :: ds)
      .ok (if negative then -(n : Int) else n)
  | _ => .error .malformed

/-- The digits of a number in groups of three from the right, the last group first. -/
def groups (ds : List Char) : List Char :=
  match ds with
  | a :: b :: c :: d :: rest => a :: b :: c :: ',' :: groups (d :: rest)
  | short => short

/-- A whole number with a comma after every thousand. -/
def grouped (n : Int) : String :=
  let body := String.ofList (groups (toString n.natAbs).toList.reverse).reverse
  if n < 0 then "-" ++ body else body

end Replatform.Number
