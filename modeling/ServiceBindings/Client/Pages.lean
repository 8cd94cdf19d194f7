import ServiceBindings.Client.Basic

/-! Pages of an operation, each asked for with the token of the one before it. -/
namespace ServiceBindings
open Plan (Call)
open Response (CallError)

/-- Why a page could not be had. -/
inductive PageError where
  | invocation (cause : InvocationError)
  | call (cause : CallError)

/-- The pages that are still to come. -/
structure Pages where
  call : Call
  pagination : Pagination
  endpoint : String
  input : Record
  /-- The texts of the tokens that requests have held. -/
  seen : List String
  /-- The number of pages that were asked for. -/
  count : Nat := 0
  done : Bool := false

/-- The text by which tokens are compared; only integers and strings that are not empty are tokens.
-/
def tokenText? : Value → Option String
  | .string s => if s = "" then none else some s
  | .integer i => some (Text.integer i)
  | _ => none

namespace Pages

/-- The pages from an input on. -/
def start (call : Call) (pagination : Pagination) (endpoint : String) (input : Record) :
    Pages where
  call
  pagination
  endpoint
  input
  seen := ((input.get? pagination.inputToken).bind tokenText?).toList

/-- Sets the size of the pages, if the operation has a member for it. -/
def withPageSize (pages : Pages) (size : Int) : Pages :=
  match pages.pagination.pageSize with
  | some member => { pages with input := pages.input.set member (.integer size) }
  | none => pages

/-- The pages behind one that was received. A page without a token, or with one that was used
before, is the last. -/
def after (pages : Pages) (page : Record) : Pages :=
  let token? := do
    let value ← page.get? pages.pagination.outputToken
    return (value, ← tokenText? value)
  match token? with
  | none => { pages with done := true }
  | some (value, text) =>
    if text ∈ pages.seen then { pages with done := true }
    else
      { pages with
        seen := text :: pages.seen
        input := pages.input.set pages.pagination.inputToken value }

def fetch (pages : Pages) (transport : Replay) : Except PageError Record × Replay :=
  match pages.call.dispatch pages.endpoint pages.input transport with
  | (.error cause, transport) => (.error (.invocation cause), transport)
  | (.ok output, transport) => (output.outcome.mapError .call, transport)

/-- Asks for the next page. An error is the last thing that comes. -/
def next (pages : Pages) (transport : Replay) :
    Option (Except PageError Record) × Pages × Replay :=
  if pages.done then (none, pages, transport)
  else
    let pages := { pages with count := pages.count + 1 }
    match pages.fetch transport with
    | (.error error, transport) => (some (.error error), { pages with done := true }, transport)
    | (.ok page, transport) => (some (.ok page), pages.after page, transport)

/-- At most so many further pages. -/
def takePages : Nat → Pages → Replay → Except PageError (List Record) × Replay
  | 0, _, transport => (.ok [], transport)
  | fuel + 1, pages, transport =>
    match pages.next transport with
    | (none, _, transport) => (.ok [], transport)
    | (some (.error error), _, transport) => (.error error, transport)
    | (some (.ok page), pages, transport) =>
      let (rest, transport) := takePages fuel pages transport
      (rest.map (page :: ·), transport)

/-- All further pages. Each takes one answer, and there is none behind the last one. -/
def collect (pages : Pages) (transport : Replay) : Except PageError (List Record) × Replay :=
  takePages (transport.answers.length + 1) pages transport

end Pages

def Client.paginate (client : Client) (name : String) (input : Input) :
    Except InvocationError Pages := do
  let call ← client.call name
  let some pagination := call.operation.pagination | throw (.notPaginated name)
  let record ← (prepareInput call.input input).mapError .validation
  return .start call pagination client.endpoint record

end ServiceBindings
