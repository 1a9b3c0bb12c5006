/-!
# Namespaces with a name of their own

A namespace is an address. Two are bound in every document, and a few others have a mark that is
the custom for them.
-/

namespace Replatform.Markup

def address (host page : String) : String := String.join ["http:", "/", "/", host, "/", page]

/-- The namespace that the mark `xml` is bound to in every document. -/
def xmlSpace : String := address "www.w3.org" "XML/1998/namespace"

/-- The namespace of the attributes that bind marks, which no mark can be bound to. -/
def xmlnsSpace : String := address "www.w3.org" "2000/xmlns/"

/-- The namespaces with a customary mark. -/
def customaryMarks : List (String × String) :=
  [(xmlSpace, "xml"),
   (address "www.w3.org" "1999/xhtml", "html"),
   (address "www.w3.org" "1999/02/22-rdf-syntax-ns#", "rdf"),
   (address "schemas.xmlsoap.org" "wsdl/", "wsdl"),
   (address "www.w3.org" "2001/XMLSchema", "xs"),
   (address "www.w3.org" "2001/XMLSchema-instance", "xsi"),
   (address "purl.org" "dc/elements/1.1/", "dc")]

end Replatform.Markup
