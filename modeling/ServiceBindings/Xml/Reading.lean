import ServiceBindings.Document
import ServiceBindings.Text.Blank
import ServiceBindings.Text.Utf8
import ServiceBindings.Xml.Escape
import ServiceBindings.Xml.Token

/-! XML payloads read as documents, without knowledge of their shape. -/
namespace ServiceBindings.Xml

/-- How tags can fail to form one element. -/
inductive Malformed where
  /-- A second element follows the root. -/
  | contentAfterRoot
  | attributeOutsideElement
  | unbalancedClosingTag
  /-- A closing tag names another element than the open one. -/
  | mismatchedClosingTag
  | unclosedElement
  | noRootElement
deriving DecidableEq

def Malformed.message : Malformed → String
  | contentAfterRoot => "content after the root element"
  | attributeOutsideElement => "attribute outside of an element"
  | unbalancedClosingTag => "unbalanced closing tag"
  | mismatchedClosingTag => "mismatched closing tag"
  | unclosedElement => "unclosed element"
  | noRootElement => "no root element"

inductive ReadError where
  | invalidUtf8
  | invalidXml
  | invalidEscape (cause : EscapeError)
  | malformed (fault : Malformed)
deriving DecidableEq

def ReadError.message : ReadError → String
  | invalidUtf8 => "XML payload is not valid UTF-8"
  | invalidXml => "invalid XML"
  | invalidEscape _ => "invalid XML escape"
  | malformed fault => "malformed XML: " ++ fault.message

structure Root where
  name : String
  value : Document

structure Frame where
  name : String
  /-- The attributes so far, without declarations of namespaces. -/
  attributes : List (String × String) := []
  children : Fields Document := []
  text : String := ""

/-- Enters an element under its name. The second element of a name makes an array of both, to which
further ones are added. -/
def enterChild (name : String) (value : Document) (children : Fields Document) : Fields Document :=
  match Fields.get? children name with
  | none => Fields.set name value children
  | some (.array items) => Fields.set name (.array (items ++ [value])) children
  | some first => Fields.set name (.array [first, value]) children

/-- What an element stands for: its text if it has neither elements nor attributes, and otherwise
its attributes and the elements inside it by their names, of which the elements win. -/
def Frame.document (frame : Frame) : Document :=
  if frame.children = [] ∧ frame.attributes = [] then .string frame.text
  else
    .object (Fields.ofList
      (frame.attributes.map (fun entry => (entry.1, .string entry.2)) ++ frame.children))

/-- The open elements, the innermost first, and the root once it is closed. -/
structure Reader where
  stack : List Frame := []
  root : Option Root := none

namespace Reader

/-- A closed element goes to the element around it, or becomes the root. -/
def deliver (reader : Reader) (stack : List Frame) (name : String) (value : Document) : Reader :=
  match stack with
  | [] => { reader with stack := [], root := some ⟨name, value⟩ }
  | parent :: rest =>
    { reader with
      stack := { parent with children := enterChild name value parent.children } :: rest }

/-- Closes the innermost element; a closing tag must name it. -/
def close (reader : Reader) (tag : Option Name) : Except ReadError Reader :=
  match reader.stack with
  | [] => .error (.malformed .unbalancedClosingTag)
  | frame :: rest =>
    if tag.all (fun name => frame.name = name.text) then
      .ok (reader.deliver rest frame.name frame.document)
    else .error (.malformed .mismatchedClosingTag)

/-- Adds a text to the innermost element; text outside of every element is dropped. -/
def addText (reader : Reader) (text : Except EscapeError String) : Except ReadError Reader :=
  match reader.stack with
  | [] => .ok reader
  | frame :: rest =>
    match text with
    | .ok s => .ok { reader with stack := { frame with text := frame.text ++ s } :: rest }
    | .error cause => .error (.invalidEscape cause)

def step (reader : Reader) : Token → Except ReadError Reader
  | .elementStart name =>
    if reader.root.isSome then .error (.malformed .contentAfterRoot)
    else .ok { reader with stack := { name := name.text } :: reader.stack }
  | .attribute name value =>
    match reader.stack with
    | [] => .error (.malformed .attributeOutsideElement)
    | frame :: rest =>
      if name.declaresNamespace then .ok reader
      else
        match unescape value with
        | .ok s =>
          .ok { reader with
            stack := { frame with attributes := frame.attributes ++ [(name.text, s)] } :: rest }
        | .error cause => .error (.invalidEscape cause)
  | .tagEnd => .ok reader
  | .emptyEnd => reader.close none
  | .elementEnd name => reader.close (some name)
  | .text s => reader.addText (unescape s)
  | .cdata s => reader.addText (.ok s)

def run : Reader → List Token → Except ReadError Reader
  | reader, [] => .ok reader
  | reader, token :: rest =>
    match reader.step token with
    | .ok next => next.run rest
    | .error e => .error e

def finish (reader : Reader) : Except ReadError Root :=
  if reader.stack.isEmpty then
    match reader.root with
    | some root => .ok root
    | none => .error (.malformed .noRootElement)
  else .error (.malformed .unclosedElement)

end Reader

/-- The root element that tokens form; `whole` tells whether they make up a whole document. -/
def readTokens (tokens : List Token) (whole : Bool) : Except ReadError Root :=
  match Reader.run {} tokens with
  | .error e => .error e
  | .ok reader => if whole then reader.finish else .error .invalidXml

def read (payload : Bytes) : Except ReadError (Option Root) :=
  match Text.ofUtf8? payload with
  | none => .error .invalidUtf8
  | some s =>
    if s.toList.all Text.isBlank then .ok none
    else (readTokens (Token.scan s).1 (Token.scan s).2).map some

end ServiceBindings.Xml
