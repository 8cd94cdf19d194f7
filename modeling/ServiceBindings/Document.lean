import ServiceBindings.Fields
import ServiceBindings.Number

/-! Documents: open content, as payloads and untyped input carry it. -/
namespace ServiceBindings

inductive Document where
  | object (members : List (String × Document))
  /-- Items in order. -/
  | array (items : List Document)
  | number (n : Number)
  | string (s : String)
  | bool (b : Bool)
  | null
deriving Inhabited

namespace Document

def kind : Document → String
  | object _ => "object"
  | array _ => "array"
  | number _ => "number"
  | string _ => "string"
  | bool _ => "boolean"
  | null => "null"

def string? : Document → Option String
  | string s => some s
  | _ => none

def members? : Document → Option (List (String × Document))
  | object members => some members
  | _ => none

def items? : Document → Option (List Document)
  | array items => some items
  | _ => none

/-- The member of an object called `name`. -/
def get? (doc : Document) (name : String) : Option Document :=
  doc.members?.bind (Fields.get? · name)

def isNull : Document → Bool
  | null => true
  | _ => false

end Document
end ServiceBindings
