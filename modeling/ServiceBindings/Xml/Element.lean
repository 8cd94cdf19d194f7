import ServiceBindings.Fields
import ServiceBindings.Xml.Escape

/-! Trees of elements and the documents that they are written as. -/
namespace ServiceBindings.Xml

inductive Node where
  | element (name : String) (attributes : List (String × String)) (children : List Node)
  | text (s : String)

structure Element where
  /-- The name, with its namespace's short name if it has one. -/
  name : String
  attributes : Fields String := []
  children : List Node := []
deriving Inhabited

namespace Element

def toNode (e : Element) : Node :=
  .element e.name e.attributes e.children

def ofText (name text : String) : Element :=
  { name, children := [.text text] }

/-- Sets an attribute; a present one keeps its place. -/
def setAttribute (e : Element) (name value : String) : Element :=
  { e with attributes := Fields.set name value e.attributes }

def attribute? (e : Element) (name : String) : Option String :=
  Fields.get? e.attributes name

def push (e child : Element) : Element :=
  { e with children := e.children ++ [child.toNode] }

def pushText (e : Element) (text : String) : Element :=
  { e with children := e.children ++ [.text text] }

end Element

def attributeChars (entry : String × String) : List Char :=
  ' ' :: (entry.1.toList ++ '=' :: '"' :: (entry.2.toList.flatMap escapeChar ++ ['"']))

mutual

/-- The characters of content; an element without content is one tag. -/
def Node.chars : Node → List Char
  | .element name attributes [] =>
    '<' :: (name.toList ++ (attributes.flatMap attributeChars ++ ['/', '>']))
  | .element name attributes (child :: rest) =>
    '<' :: (name.toList ++ (attributes.flatMap attributeChars ++
      '>' :: (child.chars ++ (nodesChars rest ++ '<' :: '/' :: (name.toList ++ ['>'])))))
  | .text s => s.toList.flatMap escapeChar

def nodesChars : List Node → List Char
  | [] => []
  | node :: rest => node.chars ++ nodesChars rest

end

def declaration : String :=
  "<?xml version=\"1.0\" encoding=\"UTF-8\"?>\n"

def documentText : Option Element → String
  | none => ""
  | some root => String.ofList (declaration.toList ++ root.toNode.chars)

end ServiceBindings.Xml
