import Replatform.Markup.Element
import Replatform.Markup.Namespace
import Replatform.Text.Basic
/-!
# Elements in writing

An element is written with its attributes in their order, an element without content as one tag,
and the text behind the element after it. The outermost tag binds a mark for each namespace that
occurs in the element: the customary mark, or else `ns` with the number of marks bound before.
-/

namespace Replatform.Markup

open Replatform

/-- Text with the characters that would be taken for markup as references. -/
def escapeText (s : String) : String :=
  String.ofList (s.toList.flatMap fun
    | '&' => "&amp;".toList
    | '<' => "&lt;".toList
    | '>' => "&gt;".toList
    | c => [c])

/-- The value of an attribute with the characters that would be taken for markup or not be kept
as references. -/
def escapeValue (s : String) : String :=
  String.ofList (s.toList.flatMap fun
    | '&' => "&amp;".toList
    | '<' => "&lt;".toList
    | '>' => "&gt;".toList
    | '\x22' => "&quot;".toList
    | '\r' => "&#13;".toList
    | '\n' => "&#10;".toList
    | '\t' => "&#09;".toList
    | c => [c])

/-- Adds the mark of a name's namespace to the marks bound so far. -/
def bindSpace (bound : List (String × String)) (name : Name) : List (String × String) :=
  match name.space with
  | none => bound
  | some uri =>
    if (bound.lookup uri).isSome || uri == xmlSpace then bound
    else bound ++ [(uri, (customaryMarks.lookup uri).getD ("ns" ++ toString bound.length))]

def Element.names (e : Element) : List Name := e.name :: e.attributes.map (·.1)

/-- The marks of all namespaces of a tree. -/
def Element.marks (e : Element) : List (String × String) :=
  ((e :: e.descendants).flatMap Element.names).foldl bindSpace []

def Name.write (marks : List (String × String)) (n : Name) : String :=
  match n.space with
  | none => n.label
  | some uri => (if uri == xmlSpace then "xml" else (marks.lookup uri).getD "") ++ ":" ++ n.label

/-- The attributes that bind the marks, in the order of the marks. -/
def writeBindings (marks : List (String × String)) : String :=
  String.join ((marks.mergeSort fun a b => decide (a.2 ≤ b.2)).map fun (uri, mark) =>
    " xmlns:" ++ mark ++ "=\"" ++ escapeValue uri ++ "\"")

mutual

/-- An element and the text behind it, with the given bindings in its tag. -/
def Element.writeWith (marks : List (String × String)) (bindings : String) : Element → String
  | .mk name attributes text children tail =>
    let tag := name.write marks
    let start := "<" ++ tag ++ bindings ++ String.join (attributes.map fun (n, v) =>
      " " ++ n.write marks ++ "=\"" ++ escapeValue v ++ "\"")
    let inner := escapeText text ++ writeAll marks children
    let whole := if text.isEmpty && children.isEmpty then start ++ " />"
      else start ++ ">" ++ inner ++ "</" ++ tag ++ ">"
    whole ++ escapeText tail

/-- Elements side by side. -/
def writeAll (marks : List (String × String)) : List Element → String
  | [] => ""
  | e :: es => e.writeWith marks "" ++ writeAll marks es

end

def Element.write (e : Element) : String := e.writeWith e.marks (writeBindings e.marks)

end Replatform.Markup
