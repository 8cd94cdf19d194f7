import ServiceBindings.Generate.Ledger
import ServiceBindings.Generate.Source

/-! Compiling shapes and operations. Each is compiled once and handed over before it is entered in
the ledger. -/
namespace ServiceBindings.Generate
open Plan (Binding Call Enumeration Layout Target)

structure Job where
  model : ServiceModel
  settings : Settings

def Job.artifact (job : Job) (ident : Naming.Identifier) (source : String) : Artifact where
  serviceModule := job.settings.serviceModule
  ident
  source

/-- The name of a member in messages. The entries of a flattened list stand for the member, so they
name it unless it has a name of its own. -/
def wireName (member : Member) : Target → String
  | .list _ _ itemName true => (member.locationName.or itemName).getD member.name
  | _ => member.wireName

def bindingOf (member : Member) (target : Target) : Binding where
  name := member.name
  field := Naming.memberName member.name
  wireName := wireName member target
  required := member.required
  location := member.location
  xmlAttribute := member.xmlAttribute
  xmlNamespace := member.xmlNamespace

variable {σ : Type} [Sink σ]

/-- Compiles an enumeration, or recalls it. -/
def compileEnumeration (job : Job) (shape : Shape) : Work σ Enumeration := do
  match shape.kind with
  | .enumeration values =>
    if let some found ← Work.lookUp (·.enumerations) shape.name then return found
    let constants ← .ofModel (Plan.constantsOf job.settings.enumCollision shape.name values)
    let ident ← .nameShape shape
    let e := { ident, shape := shape.name, constants : Enumeration }
    .emit (job.artifact ident (enumerationSource e))
    .update fun ledger =>
      { ledger with enumerations := Fields.set e.shape e ledger.enumerations }
    return e
  | kind => throw (.model (.wrongShapeKind shape.name "enum" kind.text))

/-- Compiles the members of a structure in order, each with the given step for its shape. -/
def compileMembers (job : Job) (step : Shape → Option Time.Format → Bool → Work σ Target) :
    List Member → Work σ (List (Binding × Target))
  | [] => return []
  | member :: rest => do
    let shape ← .ofModel (job.model.shape member.target)
    let target ← step shape member.timestampFormat member.flattened
    return (bindingOf member target, target) :: (← compileMembers job step rest)

/-- Compiles a structure with the given step for the shapes of its members, or recalls it. -/
def compileStructureWith (job : Job) (step : Shape → Option Time.Format → Bool → Work σ Target)
    (name : String) : Work σ Layout := do
  if let some found ← Work.lookUp (·.structures) name then return found
  let shape ← .ofModel (job.model.shape name)
  let described ← .ofModel shape.members
  let layout ← Work.inside name do
    let ident ← Work.nameShape shape
    let members ← compileMembers job step described.members
    let heading := {
      shape := shape.name
      ident
      locationName := shape.locationName
      xmlNamespace := shape.xmlNamespace : Plan.Heading }
    return { heading, members : Layout }
  .emit (job.artifact layout.heading.ident (structureSource layout))
  .update fun ledger =>
    { ledger with structures := Fields.set layout.heading.shape layout ledger.structures }
  return layout

/-- Compiles a shape as the target of a member, with the form of instants and the flattening that
the member asks for. Shapes inside one another all differ, so there is fuel for one level per shape.
-/
def compileTarget (job : Job) :
    Nat → Shape → Option Time.Format → Bool → Work σ Target
  | fuel, shape, format, flattened => do
    match shape.kind, fuel with
    | .scalar kind, _ => return .scalar kind (format.or shape.timestampFormat) shape.streaming
    | .enumeration _, _ => return .enumeration (← compileEnumeration job shape)
    | _, 0 => throw (.model (.recursiveShape shape.name))
    | .structure _, fuel + 1 =>
      return (← compileStructureWith job (compileTarget job fuel) shape.name).toTarget
    | .list item listFlattened, fuel + 1 =>
      let itemTarget ← Work.inside shape.name do
        compileTarget job fuel (← .ofModel (job.model.shape item.target)) none false
      return .list shape.name itemTarget item.locationName (flattened || listFlattened)
    | .map key value mapFlattened, fuel + 1 =>
      let (keyTarget, valueTarget) ← Work.inside shape.name do
        let keyTarget ← compileTarget job fuel (← .ofModel (job.model.shape key.target)) none false
        let valueTarget ←
          compileTarget job fuel (← .ofModel (job.model.shape value.target)) none false
        return (keyTarget, valueTarget)
      return .map shape.name keyTarget valueTarget key.locationName value.locationName
        (flattened || mapFlattened)

def compileStructure (job : Job) (name : String) : Work σ Layout :=
  compileStructureWith job (compileTarget job (job.model.shapes.length + 1)) name

def compileCall (job : Job) (name : String) : Work σ Call := do
  if let some found ← Work.lookUp (·.calls) name then return found
  let operation ← .ofModel (job.model.operation name)
  let input ← compileStructure job operation.input
  let output ← operation.output.mapM (compileStructure job)
  let template ← .ofModel (Plan.templateOf operation input)
  .ofModel (Plan.checkPagination operation input output)
  let ident ← .nameOperation name
  let call := { service := job.model.service, operation, ident, input, output, template : Call }
  .emit (job.artifact ident (callSource call))
  .update fun ledger => { ledger with calls := Fields.set name call ledger.calls }
  return call

end ServiceBindings.Generate
