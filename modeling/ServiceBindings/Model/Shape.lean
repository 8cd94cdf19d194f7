import ServiceBindings.Fields
import ServiceBindings.Time.Format

/-! Services, their operations and the shapes of the data that they exchange. -/
namespace ServiceBindings

inductive Protocol where
  /-- Requests as forms, responses in XML. -/
  | query
  | xml
  | json
deriving DecidableEq

/-- A kind of data without parts. -/
inductive Scalar where
  | string | boolean | integer | float | timestamp | blob
deriving DecidableEq

def Scalar.text : Scalar → String
  | string => "string"
  | boolean => "boolean"
  | integer => "integer"
  | float => "float"
  | timestamp => "timestamp"
  | blob => "blob"

/-- The part of a message that carries a member. -/
inductive Location where
  /-- A label of the path. -/
  | uri
  | queryString
  | header
  /-- All headers whose names begin alike. -/
  | headerPrefix
  | statusCode
  /-- A named part of the body. -/
  | body
  /-- The whole body. -/
  | payload
deriving DecidableEq

structure Namespace where
  uri : String
  /-- The short name that stands for it; without one it is the default. -/
  short : Option String
deriving DecidableEq

def Namespace.attributeName (ns : Namespace) : String :=
  match ns.short with
  | some short => "xmlns:" ++ short
  | none => "xmlns"

/-- A reference from a list or map to the shape of its entries. -/
structure Ref where
  target : String
  locationName : Option String
deriving DecidableEq

structure Member where
  name : String
  target : String
  required : Bool
  location : Location
  /-- Its name in messages, if that is another one. -/
  locationName : Option String
  xmlAttribute : Bool
  xmlNamespace : Option Namespace
  /-- Whether its entries stand without an element around them. -/
  flattened : Bool
  timestampFormat : Option Time.Format
deriving DecidableEq

def Member.wireName (m : Member) : String :=
  m.locationName.getD m.name

/-- The members of a structure in order, and the one that makes up the whole body. -/
structure Structure where
  members : List Member
  /-- The name of the member that makes up the whole body. -/
  payload : Option String
deriving DecidableEq

def Structure.member? (s : Structure) (name : String) : Option Member :=
  s.members.find? (·.name = name)

inductive ShapeKind where
  | scalar (kind : Scalar)
  /-- One of several texts, which are declared in this order. -/
  | enumeration (values : List String)
  | list (item : Ref) (flattened : Bool)
  | map (key value : Ref) (flattened : Bool)
  | structure (s : Structure)
deriving DecidableEq

def ShapeKind.text : ShapeKind → String
  | .scalar kind => kind.text
  | .enumeration _ => "enum"
  | .list _ _ => "list"
  | .map _ _ _ => "map"
  | .structure _ => "structure"

structure Shape where
  name : String
  kind : ShapeKind
  locationName : Option String
  xmlNamespace : Option Namespace
  timestampFormat : Option Time.Format
  /-- Whether its bytes are sent from a source. -/
  streaming : Bool
deriving DecidableEq

/-- How the pages of an operation follow one another. -/
structure Pagination where
  inputToken : String
  outputToken : String
  /-- The input member that sets the size of a page. -/
  pageSize : Option String
deriving DecidableEq

structure Operation where
  name : String
  input : String
  output : Option String
  httpMethod : String
  requestUri : String
  /-- The element around its results. -/
  resultWrapper : Option String
  pagination : Option Pagination
deriving DecidableEq

/-- What holds for all operations of a service. -/
structure Service where
  name : String
  apiVersion : String
  protocol : Protocol
  xmlNamespace : Option String
  /-- What stands before the operation's name in the target of a request. -/
  targetPrefix : Option String
  /-- The version in the type of JSON content. -/
  jsonVersion : Option String
deriving DecidableEq

/-- A service with its shapes and operations, each in the order of declaration. -/
structure ServiceModel where
  service : Service
  shapes : Fields Shape
  operations : Fields Operation

def timestampFormat? : String → Option Time.Format
  | "iso8601" => some .dateTime
  | "rfc822" => some .httpDate
  | "unixTimestamp" => some .epochSeconds
  | _ => none

end ServiceBindings
