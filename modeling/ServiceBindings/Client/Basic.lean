import ServiceBindings.Generate.Run
import ServiceBindings.Http.Lazy
import ServiceBindings.Request.Basic
import ServiceBindings.Response.Basic
import ServiceBindings.Value.Validity

/-! Clients: they send a request when an operation is invoked, and read its response when the output
is first asked for. -/
namespace ServiceBindings
open Plan (Call)
open Response (CallError TransportError)

/-- A transport that records the requests it is handed and replays answers in order. -/
structure Replay where
  answers : List (Except TransportError Http.Response)
  requests : List Http.Request := []

def Replay.send (request : Http.Request) (transport : Replay) :
    Except TransportError Http.Response × Replay :=
  let requests := transport.requests ++ [request]
  match transport.answers with
  | [] => (.error { message := "no more responses" }, { answers := [], requests })
  | answer :: rest => (answer, { answers := rest, requests })

inductive InvocationError where
  | validation (fault : ValidationError)
  | request (cause : Request.Error)
  | unknownOperation (name : String)
  | notPaginated (name : String)
deriving DecidableEq

def InvocationError.message : InvocationError → String
  | validation fault => fault.message
  | request cause => cause.message
  | unknownOperation name => "client has no operation `" ++ name ++ "`"
  | notPaginated name => "operation `" ++ name ++ "` is not paginated"

structure Output where
  /-- Its outcome, which is worked out when it is first asked for. -/
  result : Http.Lazy CallError Record
  /-- The member that holds the token of the next page. -/
  tokenMember : Option String

namespace Output

def outcome (output : Output) : Except CallError Record :=
  output.result.resolve.1

def resolved (output : Output) : Output :=
  { output with result := output.result.resolved }

/-- The token of the next page, if the operation has pages. Without pages nothing is read. -/
def token? (output : Output) : Except CallError (Option Value) × Output :=
  match output.tokenMember with
  | none => (.ok none, output)
  | some member => (output.outcome.map (·.get? member), output.resolved)

end Output

namespace Plan.Call

def request (call : Call) (endpoint : String) (input : Input) :
    Except InvocationError Http.Request := do
  let record ← (prepareInput call.input input).mapError .validation
  (Request.build call endpoint record).mapError .request

def dispatch (call : Call) (endpoint : String) (record : Record) (transport : Replay) :
    Except InvocationError Output × Replay :=
  match Request.build call endpoint record with
  | .error cause => (.error (.request cause), transport)
  | .ok request =>
    let (answer, transport) := transport.send request
    let result := .waiting 0 (Response.outcome call answer)
    (.ok { result, tokenMember := call.operation.pagination.map (·.outputToken) }, transport)

end Plan.Call

/-- A client: its operations, and the address at which the service is reached. -/
structure Client where
  calls : Fields Call
  endpoint : String

namespace Client

def call (client : Client) (name : String) : Except InvocationError Call :=
  match Fields.get? client.calls name with
  | some call => .ok call
  | none => .error (.unknownOperation name)

/-- Invokes an operation. Nothing is sent for an input with a fault. -/
def invoke (client : Client) (name : String) (input : Input) (transport : Replay) :
    Except InvocationError Output × Replay :=
  let prepared := do
    let call ← client.call name
    return (call, ← (prepareInput call.input input).mapError .validation)
  match prepared with
  | .error error => (.error error, transport)
  | .ok (call, record) => call.dispatch client.endpoint record transport

end Client
end ServiceBindings
