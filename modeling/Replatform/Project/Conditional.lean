import Replatform.Formula.Scan
import Replatform.Text.Case
import Replatform.Text.Word
/-!
# Conditions in formulas

A plain replacement of the three functions that conditions are made of: a choice becomes a `CASE`,
a test for nothing or for an empty text a comparison. Parentheses are matched without regard to
quotes, and each function is replaced a limited number of times.
-/

namespace Replatform.Project

/-- How many calls are replaced. -/
def replacementLimit : Nat := 50

/-- The position of the parenthesis that closes the last of `depth + 1` open ones. -/
def closingParen? (depth : Nat) : List Char → Option Nat
  | [] => none
  | c :: s =>
    if c = '(' then (closingParen? (depth + 1) s).map (· + 1)
    else if c = ')' then
      match depth with
      | 0 => some 0
      | d + 1 => (closingParen? d s).map (· + 1)
    else (closingParen? depth s).map (· + 1)

/-- The position of the closing parenthesis in a text that is read from `start + 1` on, or -1. -/
def matchingParen (s : List Char) (start : Int) : Except Failure Int :=
  (Formula.readFrom s start).map fun rest =>
    match closingParen? 0 rest with
    | some i => start + 1 + i
    | none => -1

/-- A call of a function: the text before it, what stands between its parentheses, and the text
behind it. -/
structure PlainCall where
  before : List Char
  inside : List Char
  behind : List Char
deriving DecidableEq, Repr

/-- The first call of a function behind `front`, which is reversed; nothing if its parenthesis is
never closed. -/
def plainCall? (name : List Char) : List Char → List Char → Option PlainCall
  | _, [] => none
  | front, c :: s =>
    let opened := do
      if Text.atWordStart front.head? then
        let rest ← Text.afterName? name (c :: s)
        Text.after? ['('] (rest.dropWhile Text.isBlank)
      else none
    match opened with
    | some rest => do
      let i ← closingParen? 0 rest
      return ⟨front.reverse, rest.take i, rest.drop (i + 1)⟩
    | none => plainCall? name (c :: front) s

/-- Replaces calls of a function one after the other from the front, at most `n` of them. -/
def replaceCalls (name : List Char) (sql : List Char → List Char) : Nat → List Char → List Char
  | 0, s => s
  | n + 1, s =>
    match plainCall? name [] s with
    | some call =>
      replaceCalls name sql n (call.before ++ sql (Text.strip call.inside) ++ call.behind)
    | none => s

/-- Replaces the tests for nothing. -/
def convertIsNull (s : List Char) : List Char :=
  replaceCalls "IsNull".toList (fun x => ['('] ++ x ++ " IS NULL)".toList) replacementLimit s

/-- Replaces the tests for an empty text. -/
def convertIsEmpty (s : List Char) : List Char :=
  replaceCalls "IsEmpty".toList (fun x => ['('] ++ x ++ " = '')".toList) replacementLimit s

/-- A choice in SQL. -/
def writeCase (condition yes no : List Char) : List Char :=
  "CASE WHEN ".toList ++ condition ++ " THEN ".toList ++ yes ++ " ELSE ".toList ++ no
    ++ " END".toList

/-- Choices in SQL, at most `n` on a level. The arguments of a choice are shorter than the text that
it stands in, which bounds the levels by `depth`. -/
def convertChoicesGo : (depth n : Nat) → List Char → List Char
  | 0, _, s => s
  | _ + 1, 0, s => s
  | depth + 1, n + 1, s =>
    match plainCall? "IIF".toList [] s with
    | none => s
    | some call =>
      match Formula.splitArgs call.inside with
      | condition :: yes :: no :: _ =>
        let inner := convertChoicesGo depth replacementLimit
        convertChoicesGo (depth + 1) n
          (call.before ++ writeCase (inner condition) (inner yes) (inner no) ++ call.behind)
      | _ => s
termination_by depth n => (depth, n)

def convertChoices (s : List Char) : List Char := convertChoicesGo (s.length + 1) replacementLimit s

end Replatform.Project
