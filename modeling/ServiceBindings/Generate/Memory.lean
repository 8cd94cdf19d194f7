import ServiceBindings.Generate.Artifact

/-! Items kept in memory, in the order in which they were first written. -/
namespace ServiceBindings.Generate
open Naming (Area Identifier)

/-- The items, and how often each was handed over. -/
structure Memory where
  artifacts : List Artifact := []
  /-- The identifiers of all items that were handed over, taken or not. -/
  attempted : List Identifier := []

namespace Memory

def get? (memory : Memory) (ident : Identifier) : Option Artifact :=
  memory.artifacts.find? (·.ident = ident)

def attempts (memory : Memory) (ident : Identifier) : Nat :=
  memory.attempted.count ident

def size (memory : Memory) : Nat :=
  memory.artifacts.length

def inArea (memory : Memory) (area : Area) : List Artifact :=
  memory.artifacts.filter (·.ident.area = area)

/-- Takes an item unless another one has its identifier. -/
def write (artifact : Artifact) (memory : Memory) : Except EmitError Outcome × Memory :=
  let memory := { memory with attempted := artifact.ident :: memory.attempted }
  match memory.get? artifact.ident with
  | some present =>
    if present.source = artifact.source then (.ok .unchanged, memory)
    else (.error (.conflict artifact.ident), memory)
  | none => (.ok .written, { memory with artifacts := memory.artifacts ++ [artifact] })

instance : Sink Memory where
  write := write

end Memory
end ServiceBindings.Generate
