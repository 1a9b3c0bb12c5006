import Replatform.Files
import Replatform.Moment
/-!
# Sessions

A run reads and writes files, asks for lines of input and prints. All that it has done so far is a
value: the files as they are now, the lines that are still to be read, and what was printed. A
failure ends a run, and the session stays as it was when it happened.
-/

namespace Replatform

/-- A piece of what was printed: text, or a line that ends in the wording of a failure. -/
inductive Printed
  | text (s : String)
  | failure (front : String) (e : Failure)
deriving DecidableEq, Repr

/-- What a run has done so far, and what it can still read. -/
structure Session where
  files : Files
  /-- The lines to come; nothing in place of a line is an interruption. -/
  input : List (Option String) := []
  /-- What was printed, the last first. -/
  printed : List Printed := []
  /-- How many pieces had been printed when input was first asked for behind its end. -/
  dry : Option Nat := none
  now : Moment := {}
deriving Repr

/-- A line of text. -/
def Printed.line (s : String) : Printed := .text (s ++ "\n")

/-- The text that was printed. -/
def Printed.write : Printed → String
  | .text s => s
  | .failure front e => front ++ e.wording ++ "\n"

def Session.output (s : Session) : String := String.join (s.printed.reverse.map Printed.write)

/-- What was printed up to the first question behind the end of the input, if there was one. -/
def Session.untilDry? (s : Session) : Option String :=
  s.dry.map fun n => String.join ((s.printed.reverse.take n).map Printed.write)

abbrev Run (α : Type) := ExceptT Failure (StateM Session) α

/-- What comes of a question. -/
inductive Reply
  | line (s : String)
  | interrupted
  | ended
deriving DecidableEq, Repr

/-- A path that a user typed: without blanks and then without quotation marks at the ends. -/
def typedPath (s : String) : String :=
  String.ofList (Text.trimWhile (fun c => c == '\x22' || c == '\x27') (Text.strip s.toList))

namespace Run

/-- A line across the page. -/
def rule : String := String.ofList (List.replicate 60 '=')

def print (text : String) : Run Unit :=
  modify fun s => { s with printed := .text text :: s.printed }

def say (line : String) : Run Unit := print (line ++ "\n")

/-- Prints a line that ends in the wording of a failure. -/
def sayFailure (front : String) (e : Failure) : Run Unit :=
  modify fun s => { s with printed := .failure front e :: s.printed }

def printAll (pieces : List Printed) : Run Unit :=
  modify fun s => { s with printed := pieces.reverse ++ s.printed }

def ask (question : String) : Run Reply := do
  print question
  let s ← get
  match s.input with
  | [] => set { s with dry := s.dry.or (some s.printed.length) }; return .ended
  | none :: rest => set { s with input := rest }; return .interrupted
  | some line :: rest => set { s with input := rest }; return .line line

def look {α : Type} (f : Files → Except Failure α) : Run α := do
  match f (← get).files with
  | .ok a => return a
  | .error e => throw e

def change (f : Files → Except Failure Files) : Run Unit := do
  let files ← look f
  modify fun s => { s with files }

end Run

end Replatform
