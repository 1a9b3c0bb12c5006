import Replatform.Markup.Element
import Replatform.Markup.Namespace
import Replatform.Markup.Prolog
/-!
# Documents

Reading of a document into its outermost element. A document that is not well formed has none.

The marks of names are resolved on the way: an attribute `xmlns:m` binds the mark `m` to a
namespace, and an attribute `xmlns` binds names of elements without a mark, from the tag that has
the attribute to its end.
-/

namespace Replatform.Markup

/-- Namespaces by their marks, the innermost first; no mark for plain names, and an empty text for
no namespace. -/
abbrev Scope := List (Option String × String)

/-- Adds what one attribute binds, if it binds anything. -/
def bindMark? (scope : Scope) (a : WrittenName × String) : Option Scope :=
  match a with
  | (⟨none, "xmlns"⟩, uri) =>
    if uri = xmlSpace ∨ uri = xmlnsSpace then none else some ((none, uri) :: scope)
  | (⟨some "xmlns", mark⟩, uri) =>
    if mark = "xml" then (if uri = xmlSpace then some scope else none)
    else if mark = "xmlns" ∨ uri.isEmpty ∨ uri = xmlSpace ∨ uri = xmlnsSpace then none
    else some ((some mark, uri) :: scope)
  | _ => some scope

/-- The attribute binds a mark. -/
def isBinding (a : WrittenName × String) : Bool :=
  a.1 == ⟨none, "xmlns"⟩ || a.1.mark == some "xmlns"

def elementName? (scope : Scope) (name : WrittenName) : Option Name :=
  match name.mark, scope.lookup name.mark with
  | none, some uri => some ⟨if uri.isEmpty then none else some uri, name.label⟩
  | none, none => some ⟨none, name.label⟩
  | some _, some uri => some ⟨some uri, name.label⟩
  | some mark, none => if mark = "xml" then some ⟨some xmlSpace, name.label⟩ else none

/-- The name of an attribute in a scope: without a mark it lies in no namespace. -/
def attributeName? (scope : Scope) (name : WrittenName) : Option Name :=
  if name.mark = none then some ⟨none, name.label⟩ else elementName? scope name

/-- An element that is not yet closed: its children so far are in reverse order. -/
structure OpenElement where
  written : WrittenName
  scope : Scope
  name : Name
  attributes : List (Name × String)
  text : String
  children : List Element

/-- The elements that are open, the innermost first, and the outermost element once it is closed. -/
structure Builder where
  stack : List OpenElement
  root : Option Element

/-- The element that a tag opens. -/
def openElement? (scope : Scope) (written : WrittenName)
    (attributes : List (WrittenName × String)) : Option OpenElement := do
  let scope ← attributes.foldlM bindMark? scope
  let name ← elementName? scope written
  let attributes ← (attributes.filter (!isBinding ·)).mapM fun (n, v) =>
    (attributeName? scope n).map (·, v)
  if (attributes.map (·.1)).eraseDups.length ≠ attributes.length then none
  else some ⟨written, scope, name, attributes, "", []⟩

/-- Text inside an open element goes behind its last child, or to its front if it has none. -/
def OpenElement.addText (e : OpenElement) (s : String) : OpenElement :=
  match e.children with
  | [] => { e with text := e.text ++ s }
  | .mk n a t c tail :: rest => { e with children := .mk n a t c (tail ++ s) :: rest }

/-- The element when its end has come. -/
def OpenElement.close (e : OpenElement) : Element :=
  .mk e.name e.attributes e.text e.children.reverse ""

/-- Adds a token. Outside the outermost element there is room for separators alone. -/
def Builder.add? (b : Builder) : Token → Option Builder
  | .opening name attributes =>
    match b.stack with
    | [] => if b.root.isSome then none else do
      return { b with stack := [← openElement? [] name attributes] }
    | parent :: _ => do
      return { b with stack := (← openElement? parent.scope name attributes) :: b.stack }
  | .closing name =>
    match b.stack with
    | [] => none
    | [e] => if e.written = name then some ⟨[], some e.close⟩ else none
    | e :: parent :: rest =>
      if e.written = name then
        some { b with stack := { parent with children := e.close :: parent.children } :: rest }
      else none
  | .text s =>
    match b.stack with
    | [] => if s.all isSpace then some b else none
    | e :: rest => some { b with stack := e.addText (String.ofList s) :: rest }
  | .quoted s =>
    match b.stack with
    | [] => none
    | e :: rest => some { b with stack := e.addText (String.ofList s) :: rest }

/-- The outermost element of a document, if the document is well formed. -/
def readDocument? (source : List Char) : Option Element := do
  if !source.all isChar then none
  else
    let (_, s) ← takeHeading? (Text.unifyLineEnds source)
    let s ← skipMisc? (s.length + 1) s
    let (entities, s) ← takeDoctype? s
    let tokens ← tokens? entities (entities.bound s) s
    let built ← tokens.foldlM Builder.add? ⟨[], none⟩
    if built.stack.isEmpty then built.root else none

end Replatform.Markup
