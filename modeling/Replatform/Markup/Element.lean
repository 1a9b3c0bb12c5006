/-!
# Elements of documents

A document is a tree of elements. An element has a name, attributes in the order of the document,
the text before its first child, its children, and the text behind its end, up to the next sibling.
Comments and instructions to other programs are no part of the tree, and the texts on both sides of
them are one.

Elements are sought by the plain names of their children and descendants, in the order of the
document.
-/

namespace Replatform.Markup

/-- A name, with the namespace that it lies in. -/
structure Name where
  space : Option String
  label : String
deriving DecidableEq, Repr

/-- A name without a namespace. -/
def Name.plain (label : String) : Name := ⟨none, label⟩

/-- An element with all that it holds, and the text behind it. -/
inductive Element
  | mk (name : Name) (attributes : List (Name × String)) (text : String)
      (children : List Element) (tail : String)
deriving Repr

namespace Element

def name : Element → Name
  | .mk n _ _ _ _ => n

/-- The attributes, in the order of the document. -/
def attributes : Element → List (Name × String)
  | .mk _ a _ _ _ => a

/-- The text before the first child. -/
def text : Element → String
  | .mk _ _ t _ _ => t

def children : Element → List Element
  | .mk _ _ _ c _ => c

/-- The text behind the end. -/
def tail : Element → String
  | .mk _ _ _ _ t => t

def text? (e : Element) : Option String := if e.text.isEmpty then none else some e.text

/-- The value of an attribute. -/
def get? (e : Element) (key : String) : Option String := e.attributes.lookup (.plain key)

/-- The value of an attribute, or a default. -/
def getD (e : Element) (key default : String) : String := (e.get? key).getD default

/-- The element has the plain name. -/
def isNamed (label : String) (e : Element) : Bool := e.name == .plain label

def findAll (e : Element) (label : String) : List Element := e.children.filter (isNamed label)

/-- The first child of a name. -/
def find? (e : Element) (label : String) : Option Element := e.children.find? (isNamed label)

end Element

mutual

/-- All elements inside an element, each before those inside it. -/
def Element.descendants : Element → List Element
  | .mk _ _ _ children _ => descendantsOf children

/-- All that lies in a list of elements. -/
def descendantsOf : List Element → List Element
  | [] => []
  | e :: es => e :: (e.descendants ++ descendantsOf es)

end

namespace Element

/-- The descendants of a name. -/
def findAllBelow (e : Element) (label : String) : List Element :=
  e.descendants.filter (isNamed label)

/-- The first descendant of a name. -/
def findBelow? (e : Element) (label : String) : Option Element :=
  e.descendants.find? (isNamed label)

/-- The first element `label` that is a child of an element `parent` inside an element. -/
def findBelowIn? (e : Element) (parent label : String) : Option Element :=
  ((e.findAllBelow parent).flatMap (·.findAll label)).head?

end Element

end Replatform.Markup
