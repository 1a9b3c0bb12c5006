import Mathlib.Algebra.BigOperators.Fin
import Replatform.Formula.Convert
/-!
# Expressions

The formulas that are written by the rules, as trees: fields, numbers, operators between two
expressions, and calls of functions of the table with as many arguments as they take. A tree can be
written as a formula (`write`), and it has a translation (`sql`) that follows the tree and knows
nothing of text: the counterpart of a call is filled with the translations of its arguments.

`Proofs.Formula.Conversion` shows that the conversion of the formula is the translation of the
tree. The functions `PI` and `UUID` are left out, for their counterparts are calls of the same
name, and so are `Right` and `RandInt`, whose counterparts hold an argument twice.
-/

namespace Replatform.Formula

/-- Whether `c` can stand in the name of a field: an ASCII letter, a digit, an underscore or a
space. -/
def isFieldChar (c : Char) : Bool := c.isAlphanum || c == '_' || c == ' '

/-- The name of a field. A space can only stand inside. -/
structure FieldName where
  chars : List Char
  filled : chars ≠ []
  plain : ∀ c ∈ chars, isFieldChar c
  first : chars.head? ≠ some ' '
  last : chars.getLast? ≠ some ' '

structure Numeral where
  digits : List Char
  filled : digits ≠ []
  plain : ∀ c ∈ digits, c.isDigit

/-- The operators between two expressions that SQL shares. -/
inductive Operator
  | plus
  | minus
  | times
  | over
  | less
  | greater
deriving DecidableEq, Repr

def Operator.sign : Operator → Char
  | .plus => '+'
  | .minus => '-'
  | .times => '*'
  | .over => '/'
  | .less => '<'
  | .greater => '>'

/-- Whether a function takes `n` arguments. One without an arity takes at least one. -/
def Function.takes (f : Function) (n : Nat) : Prop :=
  match f.arity with
  | some k => n = k
  | none => 1 ≤ n

/-- The functions with a counterpart that expressions do not call. -/
def irregular : List String := ["PI", "UUID", "Right", "RandInt"]

/-- A function of the table that has a counterpart, with a number of arguments that it takes. -/
structure Callee where
  function : Function
  count : Nat
  listed : function ∈ functions
  mapped : function.target ≠ .manual
  regular : function.name ∉ irregular
  fits : function.takes count

inductive Expression
  | field (name : FieldName)
  | number (n : Numeral)
  | binary (op : Operator) (left right : Expression)
  | call (f : Callee) (args : Fin f.count → Expression)

/-- The text of a piece, when the argument at a place is `args` of it. -/
def Piece.fill (args : Nat → List Char) : Piece → List Char
  | .text s => s.toList
  | .arg i => args i

/-- The counterpart of a function with its arguments: a constant as it is, a call of another name
with all of them, a pattern with each in its place. -/
def Target.fill (args : List (List Char)) : Target → List Char
  | .manual => []
  | .constant sql => sql.toList
  | .call sql => writeCall sql.toList args
  | .pattern ps => ps.flatMap (Piece.fill fun i => args.getD i [])

namespace Expression

def write : Expression → List Char
  | field name => '[' :: (name.chars ++ [']'])
  | number n => n.digits
  | binary op left right => left.write ++ ' ' :: op.sign :: ' ' :: right.write
  | call f args => writeCall f.function.name.toList (List.ofFn fun i => (args i).write)

def sql : Expression → List Char
  | field name => '\x22' :: (name.chars ++ ['\x22'])
  | number n => n.digits
  | binary op left right => left.sql ++ ' ' :: op.sign :: ' ' :: right.sql
  | call f args => f.function.target.fill (List.ofFn fun i => (args i).sql)

def calls : Expression → Nat
  | field _ => 0
  | number _ => 0
  | binary _ left right => left.calls + right.calls
  | call _ args => (∑ i, (args i).calls) + 1

end Expression

end Replatform.Formula
