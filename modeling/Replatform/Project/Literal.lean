import Replatform.Catalog.Sketch
import Replatform.Value
/-!
# Macro calls

A call of a project macro with its arguments by name. The arguments are literals of the template
language; texts that name a relation stand for it and have no quotes.
-/

namespace Replatform.Project

/-- The text means a relation. -/
def isRelation (s : String) : Bool :=
  s == "source" || Text.startsWith "source_".toList s.toList
    || Text.startsWith "ref(".toList s.toList || Text.startsWith "source(".toList s.toList

/-- A text in single quotes, with quotes in it escaped. -/
def quoteText (s : String) : String :=
  "'" ++ String.ofList (Text.replaceAll ['\x27'] ['\\', '\x27'] s.toList) ++ "'"

mutual

/-- A value in the project language. -/
def literal : Value → String
  | .null => "none"
  | .bool b => if b then "true" else "false"
  | .int n => toString n
  | .float x => x.write
  | .text s => if isRelation s then s else quoteText s
  | .list xs => "[" ++ literalItems xs ++ "]"
  | .record fs => "\x7b" ++ literalFields fs ++ "\x7d"

def literalItems : List Value → String
  | [] => ""
  | [v] => literal v
  | v :: w :: vs => literal v ++ ", " ++ literalItems (w :: vs)

def literalFields : List (String × Value) → String
  | [] => ""
  | [(k, v)] => "'" ++ k ++ "': " ++ literal v
  | (k, v) :: f :: fs => "'" ++ k ++ "': " ++ literal v ++ ", " ++ literalFields (f :: fs)

end

/-- A call of a macro, with a comment before it unless that is empty. -/
def macroCall (name : String) (arguments : List (String × Value)) (comment : String) : String :=
  let call :=
    if arguments.isEmpty then Catalog.jinja (name ++ "()")
    else
      let args := arguments.map fun (k, v) => "    " ++ k ++ "=" ++ literal v
      "\x7b\x7b\n    " ++ name ++ "(\n" ++ String.intercalate ",\n" args ++ "\n    )\n\x7d\x7d"
  if comment.isEmpty then call else "-- " ++ comment ++ "\n" ++ call

end Replatform.Project
