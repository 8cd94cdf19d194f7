import ServiceBindings.Http.Headers
import ServiceBindings.Plan.Template

/-! Planned operations: what a client needs to send requests and to read responses. -/
namespace ServiceBindings

namespace Service

def contentType (service : Service) : String :=
  match service.protocol, service.targetPrefix with
  | .query, _ => "application/x-www-form-urlencoded"
  | .xml, _ => "application/xml"
  | .json, some _ => "application/x-amz-json-" ++ service.jsonVersion.getD "1.0"
  | .json, none => "application/json"

def target? (service : Service) (operation : String) : Option String :=
  service.targetPrefix.map fun target => target ++ "." ++ operation

end Service

namespace Plan
open Naming (Identifier)

structure Call where
  service : Service
  operation : Operation
  ident : Identifier
  input : Layout
  output : Option Layout
  template : Template

def Call.name (call : Call) : String :=
  call.operation.name

def templateOf (operation : Operation) (input : Layout) : Except ModelError Template :=
  if Http.isToken operation.httpMethod then input.template operation.requestUri
  else .error (.invalidMethod operation.name operation.httpMethod)

/-- A member that a structure must have. -/
def needMember (layout : Layout) (name : String) : Except ModelError Unit :=
  if (layout.member? name).isSome then .ok ()
  else .error (.unknownMember layout.heading.shape name)

/-- The rules of pages name members: the input takes the token and the size of a page, and the
output holds the next token. -/
def checkPagination (operation : Operation) (input : Layout) (output : Option Layout) :
    Except ModelError Unit :=
  match operation.pagination with
  | none => .ok ()
  | some pagination => do
    needMember input pagination.inputToken
    if let some pageSize := pagination.pageSize then needMember input pageSize
    match output with
    | some output => needMember output pagination.outputToken
    | none => throw (.unsupportedPaginator operation.name pagination.outputToken)

end Plan
end ServiceBindings
