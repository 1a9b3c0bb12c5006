/-!
# The parts of a sample document

Texts of elements, tools and connections, as the designer writes them into a document. A name or
an annotation is put in as it is given, so a sample can also be a document that does not read.
-/

namespace Replatform.Sample

private def quote : String := "\""

def attributes (xs : List (String × String)) : String :=
  String.join (xs.map fun (name, value) => " " ++ name ++ "=" ++ quote ++ value ++ quote)

def leaf (name : String) (xs : List (String × String)) : String :=
  "<" ++ name ++ attributes xs ++ "/>"

/-- An element with content, which may be empty. -/
def element (name : String) (xs : List (String × String)) (content : String) : String :=
  "<" ++ name ++ attributes xs ++ ">" ++ content ++ "</" ++ name ++ ">"

def plain (name content : String) : String := element name [] content

/-- A tool to be written: it has no plugin if it stands for a macro. -/
structure Part where
  id : Int
  plugin : Option String
  label : Option String := none
  settings : String := ""
  extra : String := ""
deriving Repr

/-- A tool in writing. Tools stand on a line through the canvas, by their numbers. -/
def Part.write (p : Part) : String :=
  let place := leaf "Position" [("x", toString (p.id * 10)), ("y", toString (p.id * 5))]
  let label := (p.label.map fun a =>
    plain "Annotation" (plain "Name" a ++ plain "DefaultAnnotationText" (a ++ " default"))).getD ""
  element "Node" [("ToolID", toString p.id)]
    (element "GuiSettings" (p.plugin.map fun n => ("Plugin", n)).toList place
      ++ plain "Properties" (label ++ plain "Configuration" p.settings) ++ p.extra)

/-- A connection of a sample. -/
structure Wire where
  source : Int
  target : Int
  leaving : String := "Output"
  entering : String := "Input"
deriving Repr

def Wire.write (w : Wire) : String :=
  plain "Connection"
    (leaf "Origin" [("ToolID", toString w.source), ("Connection", w.leaving)]
      ++ leaf "Destination" [("ToolID", toString w.target), ("Connection", w.entering)])

def wires : List Int → List Wire
  | a :: b :: rest => ⟨a, b, "Output", "Input"⟩ :: wires (b :: rest)
  | _ => []

def document (properties : String) (parts : List Part) (ws : List Wire) : String :=
  "<?xml version=\"1.0\"?>"
    ++ element "AlteryxDocument" [("yxmdVer", "2023.1")]
      (plain "Properties" properties ++ plain "Nodes" (String.join (parts.map Part.write))
        ++ plain "Connections" (String.join (ws.map Wire.write)))

end Replatform.Sample
