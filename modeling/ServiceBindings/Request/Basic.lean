import ServiceBindings.Http.Message
import ServiceBindings.Request.Address
import ServiceBindings.Request.Headers
import ServiceBindings.Request.Tree

/-! Requests for operations. -/
namespace ServiceBindings.Request
open Http (Body)
open Plan (Binding Call Layout Target)

def hasBodyContent (members : List (Binding × Target)) (fields : Fields Value) : Bool :=
  members.any fun member =>
    member.1.location = .body && (Fields.get? fields member.1.name).isSome

/-- The bytes of a member that makes up the whole body without being a structure. -/
def rawBody (binding : Binding) (target : Target) (value : Value) : Except Error Body :=
  match value with
  | .blob bytes => .ok (.bytes bytes)
  | .string s => .ok (.bytes (Text.utf8 s))
  | .stream source => .ok (.stream source)
  | _ => wrongKind binding.name target value

def formBody (call : Call) (record : Record) : Except Error Body := do
  let members := call.input.members.filter (·.1.location = .body)
  let fields ← formFields "" record.fields members
  return .ofText (Form.body call.name call.service.apiVersion fields)

/-- The root element with its namespace: its own, or else the service's. -/
def rootElement (call : Call) (name : String) (ns : Option Namespace) : Xml.Element :=
  match ns, call.service.xmlNamespace with
  | some ns, _ => declare (some ns) { name }
  | none, some uri => ({ name : Xml.Element }).setAttribute "xmlns" uri
  | none, none => { name }

/-- The name of the root element for a member that makes up the whole body. -/
def payloadName (binding : Binding) (heading : Plan.Heading) : String :=
  if binding.wireName ≠ binding.name then binding.wireName
  else heading.locationName.getD binding.name

def xmlDocument (path : String) (root : Xml.Element) (fields : Fields Value)
    (members : List (Binding × Target)) : Except Error Body :=
  if hasBodyContent members fields then do
    return .ofText (Xml.documentText (some (← xmlMembers path fields root members)))
  else .ok .empty

def xmlBody (call : Call) (record : Record) : Except Error Body :=
  match call.input.payload? with
  | some (binding, target) =>
    match record.get? binding.name with
    | none => .ok .empty
    | some value =>
      match target, value with
      | .structure heading members, .structure _ fields =>
        let root := rootElement call (payloadName binding heading)
          (binding.xmlNamespace.or heading.xmlNamespace)
        xmlDocument binding.name root fields members
      | .structure heading members, _ =>
        wrongKind binding.name (.structure heading members) value
      | _, _ => rawBody binding target value
  | none =>
    let heading := call.input.heading
    let root := rootElement call (heading.locationName.getD heading.shape) heading.xmlNamespace
    xmlDocument "" root record.fields call.input.members

/-- The body of a JSON text. Services that name targets are always sent an object. -/
def jsonBody (call : Call) (record : Record) : Except Error Body :=
  match call.input.payload? with
  | some (binding, target) =>
    match record.get? binding.name with
    | none => .ok .empty
    | some value =>
      match target with
      | .structure _ _ =>
        (jsonNode binding.name value target).map fun node => .ofText node.text
      | _ => rawBody binding target value
  | none =>
    let members := call.input.members
    if (call.service.target? call.name).isNone ∧ ¬hasBodyContent members record.fields then
      .ok .empty
    else
      (jsonMembers "" record.fields members).map fun nodes =>
        .ofText (Json.Node.object nodes).text

def body (call : Call) (record : Record) : Except Error Body :=
  match call.service.protocol with
  | .query => formBody call record
  | .xml => xmlBody call record
  | .json => jsonBody call record

/-- An endpoint without the slashes at its end. -/
def trimEndpoint (endpoint : String) : String :=
  String.ofList (endpoint.toList.reverse.dropWhile (· = '/')).reverse

/-- The request of a record. A body is sent with the type of its content, unless a member gives
one. -/
def build (call : Call) (endpoint : String) (record : Record) : Except Error Http.Request := do
  let uri := trimEndpoint endpoint ++ (← address call record)
  let headers ← headers call record
  let body ← body call record
  let headers ←
    if body.isPresent ∧ ¬headers.contains "content-type" then
      setHeader headers "Content-Type" call.service.contentType
    else pure headers
  match Http.requestUri? uri with
  | some uri => return { method := call.operation.httpMethod, uri, headers, body }
  | none => throw .invalidAddress

end ServiceBindings.Request
