import ServiceBindings.Http.Status
import ServiceBindings.Json.Reading
import ServiceBindings.Value.Reading
import ServiceBindings.Xml.Reading

/-! What can go wrong between a request and the record of its response. -/
namespace ServiceBindings.Response

inductive PayloadError where
  | json (cause : Json.ReadError)
  | xml (cause : Xml.ReadError)

def PayloadError.message : PayloadError → String
  | json cause => cause.message
  | xml cause => cause.message

inductive Error where
  | payload (cause : PayloadError)
  /-- A part of it is no value of its target. -/
  | misfit (cause : Misfit)

def Error.message : Error → String
  | payload _ => "failed to decode response payload"
  | misfit (.kind path expected found) =>
    "`" ++ path ++ "` expected " ++ expected ++ ", found " ++ found
  | misfit (.timestamp path) => "`" ++ path ++ "` is not a valid timestamp"
  | misfit (.base64 path) => "`" ++ path ++ "` is not valid base64"

structure TransportError where
  message : String
  cause : Option String := none
deriving DecidableEq

inductive CallError where
  | dispatch (cause : TransportError)
  | unreadable (status : Nat) (cause : Error)
  | service (status : Nat) (body : Bytes)

namespace CallError

def status? : CallError → Option Nat
  | dispatch _ => none
  | unreadable status _ => some status
  | service status _ => some status

def message : CallError → String
  | dispatch cause => "dispatch failure: " ++ cause.message
  | unreadable status cause =>
    "failed to parse response (" ++ Http.statusText status ++ "): " ++ cause.message
  | service status body =>
    "service error (" ++ Http.statusText status ++ "): " ++ Text.ofUtf8Lossy body

/-- The text of the error and of each error that caused it. Below an unreadable answer only the
first cause is told, which is all there is for a misfit. -/
def chain (error : CallError) : List String :=
  error.message ::
    match error with
    | dispatch cause => cause.message :: cause.cause.toList
    | unreadable _ (.payload cause) => [(Error.payload cause).message, cause.message]
    | unreadable _ cause => [cause.message]
    | service _ _ => []

end CallError
end ServiceBindings.Response
