import ServiceBindings.Plan.Enumeration

/-! Plans: shapes with all their references followed, as readers and writers of messages use them.
-/
namespace ServiceBindings.Plan
open Naming (Identifier)

/-- The place of a member in source and in messages. -/
structure Binding where
  name : String
  /-- The name of its field in generated source. -/
  field : String
  wireName : String
  required : Bool
  location : Location
  xmlAttribute : Bool
  xmlNamespace : Option Namespace
deriving DecidableEq

/-- What holds for a structure as a whole. -/
structure Heading where
  shape : String
  ident : Identifier
  /-- The name of its element at the root of a document. -/
  locationName : Option String
  xmlNamespace : Option Namespace
deriving DecidableEq

inductive Target where
  | scalar (kind : Scalar) (format : Option Time.Format) (streaming : Bool)
  | enumeration (e : Enumeration)
  | list (shape : String) (item : Target) (itemName : Option String) (flattened : Bool)
  | map (shape : String) (key value : Target) (keyName valueName : Option String)
    (flattened : Bool)
  | structure (heading : Heading) (members : List (Binding × Target))

def Target.expected : Target → String
  | .scalar kind _ _ => kind.text
  | .enumeration _ => "enum string"
  | .list _ _ _ _ => "list"
  | .map _ _ _ _ _ _ => "map"
  | .structure _ _ => "structure"

def itemElement (itemName : Option String) : String :=
  itemName.getD "member"

def keyElement (keyName : Option String) : String :=
  keyName.getD "key"

def valueElement (valueName : Option String) : String :=
  valueName.getD "value"

/-- A structure with its members in the order of their declaration. -/
structure Layout where
  heading : Heading
  members : List (Binding × Target)

namespace Layout

def toTarget (plan : Layout) : Target :=
  .structure plan.heading plan.members

def member? (plan : Layout) (name : String) : Option (Binding × Target) :=
  plan.members.find? (·.1.name = name)

def membersAt (plan : Layout) (location : Location) : List (Binding × Target) :=
  plan.members.filter (·.1.location = location)

def payload? (plan : Layout) : Option (Binding × Target) :=
  plan.members.find? (·.1.location = .payload)

end Layout
end ServiceBindings.Plan
