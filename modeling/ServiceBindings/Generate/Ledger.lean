import ServiceBindings.Generate.Artifact
import ServiceBindings.Naming.Names
import ServiceBindings.Plan.Call

/-! What a run has compiled so far, and the state in which its steps work. -/
namespace ServiceBindings.Generate
open Naming (Names)
open Plan (Call Enumeration Layout)

/-- What a run has compiled so far. -/
structure Ledger where
  names : Names
  enumerations : Fields Enumeration := []
  structures : Fields Layout := []
  calls : Fields Call := []
  /-- The shapes that are being compiled, the innermost first. -/
  visiting : List String := []
  /-- How often something was asked for that was compiled before. -/
  hits : Nat := 0

/-- Nothing compiled yet for a model. -/
def Ledger.ofModel (model : ServiceModel) : Ledger where
  names := .ofModel model

def Ledger.shapeCount (ledger : Ledger) : Nat :=
  ledger.enumerations.length + ledger.structures.length

inductive CompileError where
  | model (fault : ModelError)
  | emit (fault : EmitError)
deriving DecidableEq

/-- Steps that change the ledger and the place for items. A step that fails keeps its changes. -/
abbrev Work (σ : Type) := ExceptT CompileError (StateM (Ledger × σ))

namespace Work
variable {σ α : Type}

def ofModel (answer : Except ModelError α) : Work σ α :=
  match answer with
  | .ok value => pure value
  | .error fault => throw (.model fault)

def update (change : Ledger → Ledger) : Work σ Unit :=
  modify fun state => (change state.1, state.2)

def lookUp (table : Ledger → Fields α) (name : String) : Work σ (Option α) := do
  let found := Fields.get? (table (← get).1) name
  if found.isSome then update fun ledger => { ledger with hits := ledger.hits + 1 }
  return found

/-- Begins with a shape, unless it is being compiled already. -/
def enter (name : String) : Work σ Unit := do
  if name ∈ (← get).1.visiting then throw (.model (.recursiveShape name))
  update fun ledger => { ledger with visiting := name :: ledger.visiting }

def leave (name : String) : Work σ Unit :=
  update fun ledger => { ledger with visiting := ledger.visiting.erase name }

/-- Works inside a shape, and ends with it whatever comes of the work. -/
def inside (name : String) (work : Work σ α) : Work σ α := do
  enter name
  let result ← ExceptT.lift work.run
  leave name
  ExceptT.mk (pure result)

def nameShape (shape : Shape) : Work σ Naming.Identifier := do
  let (ident, names) := (← get).1.names.shape shape
  update fun ledger => { ledger with names }
  return ident

def nameOperation (name : String) : Work σ Naming.Identifier := do
  let (ident, names) := (← get).1.names.operation name
  update fun ledger => { ledger with names }
  return ident

def emit [Sink σ] (artifact : Artifact) : Work σ Unit := do
  let (ledger, sink) ← get
  let (result, sink) := Sink.write artifact sink
  set (ledger, sink)
  match result with
  | .ok _ => return
  | .error fault => throw (.emit fault)

end Work
end ServiceBindings.Generate
