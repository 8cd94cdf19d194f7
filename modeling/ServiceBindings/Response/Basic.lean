import ServiceBindings.Http.Message
import ServiceBindings.Plan.Call
import ServiceBindings.Response.Error

/-! Responses read as records. -/
namespace ServiceBindings.Response
open Http (Response)
open Plan (Binding Call Layout Target)

def originOf : Protocol → Origin
  | .query => .xml
  | .xml => .xml
  | .json => .json

/-- The document of a payload. An XML payload without a root is an object without members. -/
def decode (origin : Origin) (payload : Bytes) : Except PayloadError Document :=
  match origin with
  | .xml =>
    match Xml.read payload with
    | .ok (some root) => .ok root.value
    | .ok none => .ok (.object [])
    | .error cause => .error (.xml cause)
  | _ =>
    match Json.read payload with
    | .ok doc => .ok doc
    | .error cause => .error (.json cause)

def decodeBody (origin : Origin) (response : Response) : Except Error Document :=
  (decode origin response.body).mapError .payload

def emptyRecord (output : Option Layout) : Record where
  shape := (output.map (·.heading.shape)).getD ""

/-- Reads a document as the output. An output that stands in an element of its own is empty without
it. -/
def ofDocument (call : Call) (doc : Document) : Except Error Record :=
  let origin := originOf call.service.protocol
  match call.output, call.operation.resultWrapper with
  | none, _ => .ok (emptyRecord none)
  | some layout, none => (readRecord origin "" layout doc).mapError .misfit
  | some layout, some wrapper =>
    match doc.get? wrapper with
    | some inner => (readRecord origin "" layout inner).mapError .misfit
    | none => .ok (emptyRecord (some layout))

/-- The value of the member that makes up the whole body. A structure without a body is absent, and
what is neither a structure nor a string is read as bytes. -/
def payloadValue (origin : Origin) (binding : Binding) (target : Target) (response : Response) :
    Except Error (Option Value) :=
  match target with
  | .structure heading members =>
    if response.body = [] then .ok none
    else do
      let doc ← decodeBody origin response
      let record ← (readRecord origin binding.name ⟨heading, members⟩ doc).mapError Error.misfit
      return some record.toValue
  | .scalar .string _ _ => .ok (some (.string (Text.ofUtf8Lossy response.body)))
  | _ => .ok (some (.blob response.body))

def bodyRecord (call : Call) (layout : Layout) (response : Response) : Except Error Record :=
  let origin := originOf call.service.protocol
  let empty := emptyRecord (some layout)
  match layout.payload? with
  | some (binding, target) => do
    match ← payloadValue origin binding target response with
    | some value => return empty.set binding.name value
    | none => return empty
  | none =>
    if layout.members.any (·.1.location = .body) then do
      ofDocument call (← decodeBody origin response)
    else .ok empty

/-- The document of a header; a list's items stand between commas. -/
def headerDocument (target : Target) (text : String) : Document :=
  match target with
  | .list _ _ _ _ =>
    .array ((text.toList.splitOnP (· = ',')).map fun item =>
      .string (String.ofList (Text.trimmed item)))
  | _ => .string text

/-- The headers whose names begin with a text, under the rest of their names. Values that cannot be
read as text are passed over. -/
def headersBeginning (start : String) (headers : Http.Headers) : Fields Document :=
  Fields.ofList (headers.entries.filterMap fun header =>
    match Text.expect? (start.toList.map Char.toLower) header.1.toList with
    | some rest =>
      if Http.isVisible header.2 then some (String.ofList rest, .string header.2) else none
    | none => none)

/-- The document of a member that headers carry, if there are any for it. -/
def memberDocument? (binding : Binding) (target : Target) (headers : Http.Headers) :
    Option Document :=
  match binding.location with
  | .header => (headers.text? binding.wireName).map (headerDocument target)
  | .headerPrefix =>
    match headersBeginning binding.wireName headers with
    | [] => none
    | entries => some (.object entries)
  | _ => none

/-- Adds the members that status and headers carry, in the order of their declaration. -/
def addMembers (response : Response) : Record → List (Binding × Target) → Except Error Record
  | record, [] => .ok record
  | record, (binding, target) :: rest => do
    if binding.location = .statusCode then
      addMembers response (record.set binding.name (.integer response.status)) rest
    else
      match memberDocument? binding target response.headers with
      | none => addMembers response record rest
      | some doc =>
        match ← (readValue .json binding.name target doc).mapError Error.misfit with
        | some value => addMembers response (record.set binding.name value) rest
        | none => addMembers response record rest

def read (call : Call) (response : Response) : Except Error Record :=
  match call.output with
  | none => .ok (emptyRecord none)
  | some layout => do
    addMembers response (← bodyRecord call layout response) layout.members

/-- The outcome of a call. An answer with a status from 300 on is an error of the service. -/
def outcome (call : Call) : Except TransportError Response → Except CallError Record
  | .error cause => .error (.dispatch cause)
  | .ok response =>
    if 300 ≤ response.status then .error (.service response.status response.body)
    else (read call response).mapError (.unreadable response.status)

end ServiceBindings.Response
