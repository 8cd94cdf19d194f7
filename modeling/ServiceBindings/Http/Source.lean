import ServiceBindings.Text.Utf8

/-! Content that can be read again: a source, the one cursor at which it is read, and iterators over
its chunks. -/
namespace ServiceBindings.Http

/-- A handle on content in memory. Copies of a handle share the cursor at which the content is read,
whatever the size of their chunks. -/
structure Source where
  /-- What tells the content apart from that of every other source. -/
  id : Nat
  content : Bytes
  chunkSize : Nat := 65536

/-- An iterator over the chunks of a source. -/
structure Chunks where
  content : Bytes
  chunkSize : Nat
  done : Bool := false

/-- The place at which all handles and iterators read their content. -/
structure Cursor where
  /-- The number of bytes in front of it. -/
  position : Nat := 0
  /-- Whether a reader broke off while it held the content. Nobody gets hold of it then any more. -/
  poisoned : Bool := false

inductive ReadError where
  /-- The reader breaks off: its buffer is larger than any buffer can be. -/
  | capacity
  /-- An earlier reader broke off. -/
  | poisoned
deriving DecidableEq

def ReadError.message : ReadError → String
  | capacity => "capacity overflow"
  | poisoned => "content source lock poisoned"

/-- Steps at the cursor of some content. -/
abbrev Access := ExceptT ReadError (StateM Cursor)

namespace Access

/-- The size of the largest buffer. There is memory for buffers up to it. -/
def maxCapacity : Nat := 0x7FFFFFFFFFFFFFFF

def lock : Access Unit := do
  if (← get).poisoned then throw .poisoned

/-- Makes an empty buffer with room for so many bytes. -/
def reserve (size : Nat) : Access Unit := do
  if maxCapacity < size then
    modify fun cursor => { cursor with poisoned := true }
    throw .capacity

def seek (position : Nat) : Access Unit :=
  modify fun cursor => { cursor with position }

/-- Takes the bytes that follow the cursor, at most so many where there is a limit. -/
def take (content : Bytes) (limit : Option Nat) : Access Bytes := do
  let left := content.drop (← get).position
  let bytes := limit.elim left left.take
  modify fun cursor => { cursor with position := cursor.position + bytes.length }
  return bytes

end Access

namespace Source

def same (a b : Source) : Bool :=
  a.id = b.id

/-- A copy of the handle whose chunks have another size, of at least one byte. -/
def withChunkSize (source : Source) (size : Nat) : Source :=
  { source with chunkSize := max size 1 }

/-- The number of bytes, which is the place of the cursor at the end. It goes back to the start. -/
def length (source : Source) : Access Nat := do
  Access.lock
  Access.seek source.content.length
  let last := (← get).position
  Access.seek 0
  return last

/-- The whole content. The cursor comes to lie behind it. -/
def readAll (source : Source) : Access Bytes := do
  Access.lock
  Access.seek 0
  Access.take source.content none

/-- A new iterator. The cursor goes back to the start. -/
def chunks (source : Source) : Access Chunks := do
  Access.lock
  Access.seek 0
  return { content := source.content, chunkSize := source.chunkSize }

end Source

namespace Chunks

def read (chunks : Chunks) : Access Bytes := do
  Access.lock
  Access.reserve chunks.chunkSize
  Access.take chunks.content (some chunks.chunkSize)

/-- The next chunk. The iterator ends where no bytes follow, and with content that cannot be got
hold of. One that breaks off is left as it is. -/
def next (chunks : Chunks) : StateM Cursor (Except ReadError (Option Bytes) × Chunks) := do
  if chunks.done then return (.ok none, chunks)
  else
    match ← chunks.read.run with
    | .ok [] => return (.ok none, { chunks with done := true })
    | .ok chunk => return (.ok (some chunk), chunks)
    | .error .capacity => return (.error .capacity, chunks)
    | .error .poisoned => return (.error .poisoned, { chunks with done := true })

def takeChunks : Nat → Chunks → StateM Cursor (Except ReadError (List Bytes) × Chunks)
  | 0, chunks => return (.ok [], chunks)
  | count + 1, chunks => do
    match ← chunks.next with
    | (.error error, chunks) => return (.error error, chunks)
    | (.ok none, chunks) => return (.ok [], chunks)
    | (.ok (some chunk), chunks) =>
      let (rest, chunks) ← takeChunks count chunks
      return (rest.map (chunk :: ·), chunks)

/-- All further chunks. None of them is empty, so there are at most as many as there are bytes. -/
def drain (chunks : Chunks) : StateM Cursor (Except ReadError (List Bytes) × Chunks) :=
  takeChunks (chunks.content.length + 1) chunks

end Chunks
end ServiceBindings.Http
