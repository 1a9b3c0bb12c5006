import Replatform.Number.Binary64
import Replatform.Text.Quoted
/-!
# Values

The settings of a tool and the arguments of a macro are values: nothing, a truth value, a number,
a text, a list, or a record whose fields keep their order.
-/

namespace Replatform

open Number

/-- A setting or an argument. -/
inductive Value
  | null
  | bool (b : Bool)
  | int (n : Int)
  | float (x : Binary64)
  | text (s : String)
  | list (items : List Value)
  | record (fields : List (String × Value))
deriving Repr

namespace Value

def text? : Value → Option String
  | .text s => some s
  | _ => none

def items : Value → List Value
  | .list xs => xs
  | _ => []

def fields : Value → List (String × Value)
  | .record fs => fs
  | _ => []

def get? (v : Value) (key : String) : Option Value := v.fields.lookup key

def number : Value → String
  | .int n => toString n
  | .float x => x.write
  | _ => ""

end Value

def fieldText? (fields : List (String × Value)) (key : String) : Option String :=
  (fields.lookup key).bind Value.text?

/-- The fields with `key` set to `v`: in its place, if it is there, and at the end otherwise. -/
def setField {κ α : Type} [DecidableEq κ] (fields : List (κ × α)) (key : κ) (v : α) :
    List (κ × α) :=
  match fields with
  | [] => [(key, v)]
  | (k, w) :: rest => if k = key then (k, v) :: rest else (k, w) :: setField rest key v

end Replatform
