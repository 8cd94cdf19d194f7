import ServiceBindings.Json.Record

/-! Descriptions of services as they are written, before kinds and references are looked at. -/
namespace ServiceBindings.Description
open Json

/-- What is written of a namespace. -/
structure Namespace where
  uri : String
  short : Option String

/-- What is written of a reference to a shape. -/
structure Ref where
  shape : String
  location : Option String
  locationName : Option String
  xmlAttribute : Bool
  xmlNamespace : Option Namespace
  /-- Whether entries stand by themselves. -/
  flattened : Bool
  timestampFormat : Option String
  /-- The element around results. -/
  resultWrapper : Option String

/-- What is written of a shape. -/
structure Shape where
  kind : String
  members : Fields Ref
  required : List String
  enumeration : Option (List String)
  member : Option Ref
  key : Option Ref
  value : Option Ref
  flattened : Bool
  locationName : Option String
  xmlNamespace : Option Namespace
  timestampFormat : Option String
  /-- The member that makes up the whole body. -/
  payload : Option String
  /-- Whether bytes are sent from a source. -/
  streaming : Bool

/-- What is written of an operation's requests. -/
structure Http where
  method : String := "POST"
  requestUri : String := "/"

/-- What is written of an operation. -/
structure Operation where
  http : Http
  input : Option Ref
  output : Option Ref

/-- What is written of the service as a whole. -/
structure Metadata where
  protocol : String
  apiVersion : String
  serviceId : Option String
  endpointPrefix : Option String
  xmlNamespace : Option String
  /-- What stands before the operation's name in the target of a request. -/
  targetPrefix : Option String
  /-- The version in the type of JSON content. -/
  jsonVersion : Option String

structure Whole where
  metadata : Metadata
  operations : Fields Operation
  shapes : Fields Shape

/-- What is written of an operation's pages. A token may be a text or a list of texts. -/
structure Paginator where
  inputToken : Option (List String)
  outputToken : Option (List String)
  /-- The input member that sets the size of a page. -/
  limitKey : Option String

def namespace? (tree : Tree) : Option Namespace := do
  let r ← tree.record? ["uri", "prefix"]
  some { uri := ← r.need? "uri" Tree.text?, short := ← r.optional? "prefix" Tree.text? }

def ref? (tree : Tree) : Option Ref := do
  let r ← tree.record? ["shape", "location", "locationName", "xmlAttribute", "xmlNamespace",
    "flattened", "timestampFormat", "resultWrapper"]
  some {
    shape := ← r.need? "shape" Tree.text?
    location := ← r.optional? "location" Tree.text?
    locationName := ← r.optional? "locationName" Tree.text?
    xmlAttribute := ← r.default? "xmlAttribute" false Tree.bool?
    xmlNamespace := ← r.optional? "xmlNamespace" namespace?
    flattened := ← r.default? "flattened" false Tree.bool?
    timestampFormat := ← r.optional? "timestampFormat" Tree.text?
    resultWrapper := ← r.optional? "resultWrapper" Tree.text? }

def shape? (tree : Tree) : Option Shape := do
  let r ← tree.record? ["type", "members", "required", "enum", "member", "key", "value",
    "flattened", "locationName", "xmlNamespace", "timestampFormat", "payload", "streaming"]
  some {
    kind := ← r.need? "type" Tree.text?
    members := ← r.default? "members" [] (Tree.fields? ref?)
    required := ← r.default? "required" [] (Tree.list? Tree.text?)
    enumeration := ← r.optional? "enum" (Tree.list? Tree.text?)
    member := ← r.optional? "member" ref?
    key := ← r.optional? "key" ref?
    value := ← r.optional? "value" ref?
    flattened := ← r.default? "flattened" false Tree.bool?
    locationName := ← r.optional? "locationName" Tree.text?
    xmlNamespace := ← r.optional? "xmlNamespace" namespace?
    timestampFormat := ← r.optional? "timestampFormat" Tree.text?
    payload := ← r.optional? "payload" Tree.text?
    streaming := ← r.default? "streaming" false Tree.bool? }

def http? (tree : Tree) : Option Http := do
  let r ← tree.record? ["method", "requestUri"]
  some {
    method := ← r.default? "method" "POST" Tree.text?
    requestUri := ← r.default? "requestUri" "/" Tree.text? }

def operation? (tree : Tree) : Option Operation := do
  let r ← tree.record? ["http", "input", "output"]
  some {
    http := ← r.default? "http" {} http?
    input := ← r.optional? "input" ref?
    output := ← r.optional? "output" ref? }

def metadata? (tree : Tree) : Option Metadata := do
  let r ← tree.record? ["protocol", "apiVersion", "serviceId", "endpointPrefix", "xmlNamespace",
    "targetPrefix", "jsonVersion"]
  some {
    protocol := ← r.need? "protocol" Tree.text?
    apiVersion := ← r.need? "apiVersion" Tree.text?
    serviceId := ← r.optional? "serviceId" Tree.text?
    endpointPrefix := ← r.optional? "endpointPrefix" Tree.text?
    xmlNamespace := ← r.optional? "xmlNamespace" Tree.text?
    targetPrefix := ← r.optional? "targetPrefix" Tree.text?
    jsonVersion := ← r.optional? "jsonVersion" Tree.text? }

def whole? (tree : Tree) : Option Whole := do
  let r ← tree.record? ["metadata", "operations", "shapes"]
  some {
    metadata := ← r.need? "metadata" metadata?
    operations := ← r.default? "operations" [] (Tree.fields? operation?)
    shapes := ← r.default? "shapes" [] (Tree.fields? shape?) }

/-- Reads one token or a list of tokens. -/
def tokens? : Tree → Option (List String)
  | .string s => s.map fun token => [token]
  | tree => tree.list? Tree.text?

def paginator? (tree : Tree) : Option Paginator := do
  let r ← tree.record? ["input_token", "output_token", "limit_key"]
  some {
    inputToken := ← r.optional? "input_token" tokens?
    outputToken := ← r.optional? "output_token" tokens?
    limitKey := ← r.optional? "limit_key" Tree.text? }

def paginators? (tree : Tree) : Option (Fields Paginator) := do
  let r ← tree.record? ["pagination"]
  r.default? "pagination" [] (Tree.fields? paginator?)

end ServiceBindings.Description
