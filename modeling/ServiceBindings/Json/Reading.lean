import ServiceBindings.Document
import ServiceBindings.Json.Tree

/-! JSON payloads read as documents. -/
namespace ServiceBindings.Json

/-- The greatest depth of nesting that is read. -/
def maxDepth : Nat := 127

mutual

def document? : Tree → Option Document
  | .null => some .null
  | .bool b => some (.bool b)
  | .numeral n => n.number?.map .number
  | .string s => s.map .string
  | .array items => (documents? items).map .array
  | .object members => (documentMembers? members).map fun members =>
      .object (Fields.ofList members)

def documents? : List Tree → Option (List Document)
  | [] => some []
  | item :: rest => do some ((← document? item) :: (← documents? rest))

def documentMembers? : List (Option String × Tree) → Option (List (String × Document))
  | [] => some []
  | (key, value) :: rest => do some ((← key, ← document? value) :: (← documentMembers? rest))

end

/-- A payload that is no JSON text. -/
structure ReadError where
deriving DecidableEq

def ReadError.message (_ : ReadError) : String :=
  "failed to parse JSON payload"

/-- White space that alone makes up an empty payload. -/
def isPayloadSpace (b : UInt8) : Bool :=
  b = 9 || b = 10 || b = 12 || b = 13 || b = 32

/-- The document of a payload. An empty one, as services send it for an answer without members, is
an object without members. -/
def read (payload : Bytes) : Except ReadError Document :=
  if payload.all isPayloadSpace then .ok (.object [])
  else
    match (Text.ofUtf8? payload).bind fun s => Tree.ofChars? s.toList with
    | some tree =>
      if tree.depth ≤ maxDepth then
        match document? tree with
        | some doc => .ok doc
        | none => .error ⟨⟩
      else .error ⟨⟩
    | none => .error ⟨⟩

end ServiceBindings.Json
