import ServiceBindings.Http.Headers
import ServiceBindings.Plan.Call
import ServiceBindings.Request.Scalar

/-! Headers of requests. -/
namespace ServiceBindings.Request
open Http (Headers)
open Plan (Binding Call Target)

def setHeader (headers : Headers) (name value : String) : Except Error Headers :=
  match Http.headerName? name with
  | some _ =>
    if Http.isHeaderValue value then .ok (headers.insert name value)
    else .error (.invalidHeader name)
  | none => .error (.invalidHeader name)

/-- The text of a header; items of a list stand behind commas. -/
def headerText (binding : Binding) (target : Target) (value : Value) : Except Error String :=
  let text := scalarText .httpDate binding.name
  match target, value with
  | .list _ item _ _, .list items => do
    return ", ".intercalate (← items.mapM fun value => text item value)
  | _, _ => text target value

/-- Sets a header for each entry of a map, under names that begin alike. -/
def setEntries (start : String) (target : Target) :
    Headers → List (String × Value) → Except Error Headers
  | headers, [] => .ok headers
  | headers, (key, value) :: rest => do
    let name := start ++ key
    let text ← scalarText .httpDate name target value
    setEntries start target (← setHeader headers name text) rest

def setMember (headers : Headers) (binding : Binding) (target : Target) (value : Value) :
    Except Error Headers :=
  match binding.location with
  | .header => do setHeader headers binding.wireName (← headerText binding target value)
  | .headerPrefix =>
    match target, value with
    | .map _ _ target _ _ _, .map entries => setEntries binding.wireName target headers entries
    | _, _ => wrongKind binding.name target value
  | _ => .ok headers

/-- Sets the headers of the members that are present, in the order of their declaration. -/
def setMembers (record : Record) :
    Headers → List (Binding × Target) → Except Error Headers
  | headers, [] => .ok headers
  | headers, (binding, target) :: rest => do
    match record.get? binding.name with
    | some value => setMembers record (← setMember headers binding target value) rest
    | none => setMembers record headers rest

/-- The headers of a request: the target of the operation, if the service has one, and the members'.
-/
def headers (call : Call) (record : Record) : Except Error Headers := do
  let start ←
    match call.service.target? call.name with
    | some target => setHeader [] "X-Amz-Target" target
    | none => .ok []
  setMembers record start call.input.members

end ServiceBindings.Request
