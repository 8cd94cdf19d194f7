import ServiceBindings.Http.Headers
import ServiceBindings.Http.Source

/-! Requests and responses. -/
namespace ServiceBindings.Http

inductive Body where
  | empty
  | bytes (content : Bytes)
  | stream (source : Source)

namespace Body

/-- A text as a body; an empty text is none. -/
def ofText (s : String) : Body :=
  if s = "" then .empty else .bytes (Text.utf8 s)

/-- Whether there is a body, be it one of no bytes. -/
def isPresent : Body → Bool
  | empty => false
  | _ => true

def bytes? : Body → Option Bytes
  | empty => some []
  | bytes content => some content
  | stream _ => none

def sent : Body → Bytes
  | empty => []
  | bytes content => content
  | stream source => source.content

end Body

structure Request where
  method : String
  uri : String
  headers : Headers
  body : Body

structure Response where
  status : Nat
  headers : Headers
  body : Bytes

end ServiceBindings.Http
