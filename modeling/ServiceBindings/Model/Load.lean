import ServiceBindings.Model.Description
import ServiceBindings.Model.Error

/-! Service models from their descriptions. -/
namespace ServiceBindings.ServiceModel
open Description (Paginator)

def protocolOf : String → Except ModelError Protocol
  | "rest-xml" => .ok .xml
  | "rest-json" => .ok .json
  | "json" => .ok .json
  | "query" => .ok .query
  | "ec2" => .ok .query
  | other => .error (.unsupportedProtocol other)

/-- The location that a description names; without a name it is the body. -/
def locationOf (structureName member : String) : Option String → Except ModelError Location
  | none => .ok .body
  | some "uri" => .ok .uri
  | some "querystring" => .ok .queryString
  | some "header" => .ok .header
  | some "headers" => .ok .headerPrefix
  | some "statusCode" => .ok .statusCode
  | some other => .error (.unsupportedLocation structureName member other)

def namespaceOf (ns : Description.Namespace) : Namespace :=
  ⟨ns.uri, ns.short⟩

def refOf (ref : Description.Ref) : Ref :=
  ⟨ref.shape, ref.locationName⟩

def neededRef (shape field : String) : Option Description.Ref → Except ModelError Ref
  | some ref => .ok (refOf ref)
  | none => .error (.missingReference shape field)

/-- A described member. The one that makes up the whole body has no location of its own. -/
def memberOf (shape : String) (described : Description.Shape) (name : String)
    (ref : Description.Ref) : Except ModelError Member := do
  let location ←
    if described.payload = some name then .ok .payload else locationOf shape name ref.location
  return {
    name
    target := ref.shape
    required := described.required.contains name
    location
    locationName := ref.locationName
    xmlAttribute := ref.xmlAttribute
    xmlNamespace := ref.xmlNamespace.map namespaceOf
    flattened := ref.flattened
    timestampFormat := ref.timestampFormat.bind timestampFormat? }

def structureOf (shape : String) (described : Description.Shape) :
    Except ModelError Structure := do
  if let some payload := described.payload then
    if (Fields.get? described.members payload).isNone then
      throw (.unknownMember shape payload)
  let members ← described.members.mapM fun entry => memberOf shape described entry.1 entry.2
  return { members, payload := described.payload }

/-- What a described shape is made of. A repeated value of an enumeration counts once. -/
def kindOf (shape : String) (described : Description.Shape) : Except ModelError ShapeKind :=
  match described.kind with
  | "structure" => (structureOf shape described).map .structure
  | "list" => do
    return .list (← neededRef shape "member" described.member) described.flattened
  | "map" => do
    return .map (← neededRef shape "key" described.key) (← neededRef shape "value" described.value)
      described.flattened
  | "string" =>
    match described.enumeration with
    | some values => .ok (.enumeration values.eraseDups)
    | none => .ok (.scalar .string)
  | "boolean" => .ok (.scalar .boolean)
  | "integer" => .ok (.scalar .integer)
  | "long" => .ok (.scalar .integer)
  | "float" => .ok (.scalar .float)
  | "double" => .ok (.scalar .float)
  | "timestamp" => .ok (.scalar .timestamp)
  | "blob" => .ok (.scalar .blob)
  | other => .error (.unsupportedShapeType shape other)

def shapeOf (name : String) (described : Description.Shape) : Except ModelError Shape := do
  let kind ← kindOf name described
  return {
    name
    kind
    locationName := described.locationName
    xmlNamespace := described.xmlNamespace.map namespaceOf
    timestampFormat := described.timestampFormat.bind timestampFormat?
    streaming := described.streaming }

def emptyStructure (name : String) : Shape where
  name
  kind := .structure ⟨[], none⟩
  locationName := none
  xmlNamespace := none
  timestampFormat := none
  streaming := false

def inputName (operation : String) : String :=
  operation ++ "Request"

def operationOf (name : String) (described : Description.Operation) : Operation where
  name
  input := (described.input.map (·.shape)).getD (inputName name)
  output := described.output.map (·.shape)
  httpMethod := described.http.method
  requestUri := described.http.requestUri
  resultWrapper := described.output.bind (·.resultWrapper)
  pagination := none

/-- Every operation takes a structure: one that declares no input is given an empty one, unless a
shape of that name is there. -/
def withInputs (shapes : Fields Shape) : Fields Description.Operation → Fields Shape
  | [] => shapes
  | (name, described) :: rest =>
    let input := inputName name
    if described.input.isNone ∧ (Fields.get? shapes input).isNone then
      withInputs (Fields.set input (emptyStructure input) shapes) rest
    else withInputs shapes rest

def ofDescription (described : Description.Whole) : Except ModelError ServiceModel := do
  let metadata := described.metadata
  let protocol ← protocolOf metadata.protocol
  let shapes ← described.shapes.mapM fun entry => do
    return (entry.1, ← shapeOf entry.1 entry.2)
  return {
    service := {
      name := (metadata.serviceId.or metadata.endpointPrefix).getD "Service"
      apiVersion := metadata.apiVersion
      protocol
      xmlNamespace := metadata.xmlNamespace
      targetPrefix := metadata.targetPrefix
      jsonVersion := metadata.jsonVersion }
    shapes := withInputs shapes described.operations
    operations := described.operations.map fun entry => (entry.1, operationOf entry.1 entry.2) }

def load (text : String) : Except ModelError ServiceModel :=
  match (Json.Tree.ofChars? text.toList).bind Description.whole? with
  | some described => ofDescription described
  | none => .error .invalidDescription

/-- A character of the name of a member that a token may name. -/
def isTokenChar (c : Char) : Bool :=
  c.isAlphanum || c == '_'

/-- The member that a token names; a path of members is not supported. -/
def tokenOf (operation : String) (tokens : List String) : Except ModelError String :=
  match tokens with
  | [token] =>
    if token ≠ "" ∧ token.toList.all isTokenChar then .ok token
    else .error (.unsupportedPaginator operation token)
  | tokens => .error (.unsupportedPaginator operation (", ".intercalate tokens))

/-- How the pages of an operation follow one another, if it has tokens on both sides. -/
def paginationOf (operation : String) (described : Paginator) :
    Except ModelError (Option Pagination) :=
  match described.inputToken, described.outputToken with
  | some input, some output => do
    return some {
      inputToken := ← tokenOf operation input
      outputToken := ← tokenOf operation output
      pageSize := described.limitKey }
  | _, _ => .ok none

/-- Attaches the rules of pages in order. Rules for unknown operations are passed over. -/
def attach (model : ServiceModel) : Fields Paginator → Except ModelError ServiceModel
  | [] => .ok model
  | (name, described) :: rest =>
    match Fields.get? model.operations name with
    | none => model.attach rest
    | some operation => do
      match ← paginationOf name described with
      | none => model.attach rest
      | some pagination =>
        let operation := { operation with pagination := some pagination }
        { model with operations := Fields.set name operation model.operations }.attach rest

def withPaginators (model : ServiceModel) (text : String) : Except ModelError ServiceModel :=
  match (Json.Tree.ofChars? text.toList).bind Description.paginators? with
  | some described => model.attach described
  | none => .error .invalidDescription

end ServiceBindings.ServiceModel
