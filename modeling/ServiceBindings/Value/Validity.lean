import ServiceBindings.Plan.Target
import ServiceBindings.Value.Reading

/-! Inputs: making them from documents, and the faults for which they are refused. -/
namespace ServiceBindings
open Plan (Binding Layout Target)

inductive ValidationError where
  | missing (structureName field : String)
  | notInEnumeration (field value enumeration : String)
  | kind (path expected found : String)
  | wrongShape (expected found : String)
deriving DecidableEq

def ValidationError.message : ValidationError → String
  | missing structureName field =>
    "missing required field `" ++ field ++ "` of `" ++ structureName ++ "`"
  | notInEnumeration field value enumeration =>
    "invalid value `" ++ value ++ "` for field `" ++ field ++ "`: not a member of enum `" ++
      enumeration ++ "`"
  | kind path expected found => "`" ++ path ++ "` expected " ++ expected ++ ", found " ++ found
  | wrongShape expected found =>
    "input of type `" ++ found ++ "` cannot be used as `" ++ expected ++ "`"

/-- A misfit as a fault of an input: a text that is no instant or not in base 64 is of a wrong kind.
-/
def ValidationError.ofMisfit : Misfit → ValidationError
  | .kind path expected found => .kind path expected found
  | .timestamp path => .kind path "timestamp" "string"
  | .base64 path => .kind path "blob" "string"

mutual

/-- Looks for the first fault in the value of a member. A value of another kind is none here. -/
def validateValue (field : String) (value : Value) : Target → Except ValidationError Unit
  | .scalar _ _ _ => .ok ()
  | .enumeration e =>
    match value with
    | .string s =>
      if e.contains s then .ok () else .error (.notInEnumeration field s e.shape)
    | _ => .ok ()
  | .list _ item _ _ =>
    match value with
    | .list items => items.forM fun value => validateValue field value item
    | _ => .ok ()
  | .map _ key target _ _ _ =>
    match value with
    | .map entries => entries.forM fun entry => do
      validateValue field (.string entry.1) key
      validateValue field entry.2 target
    | _ => .ok ()
  | .structure heading members =>
    match value with
    | .structure _ fields => validateMembers heading.shape fields members
    | _ => .ok ()

def validateMembers (shape : String) (fields : Fields Value) :
    List (Binding × Target) → Except ValidationError Unit
  | [] => .ok ()
  | (binding, target) :: rest => do
    match Fields.get? fields binding.name with
    | none => if binding.required then throw (.missing shape binding.name)
    | some value => validateValue binding.name value target
    validateMembers shape fields rest

end

def validate (layout : Layout) (record : Record) : Except ValidationError Unit :=
  validateMembers layout.heading.shape record.fields layout.members

inductive Input where
  | typed (record : Record)
  /-- A document whose members have the names of the structure's. -/
  | raw (doc : Document)

def createInput (layout : Layout) : Input → Except ValidationError Record
  | .typed record =>
    if record.shape = layout.heading.shape then .ok record
    else .error (.wrongShape layout.heading.shape record.shape)
  | .raw doc => (readRecord .caller "" layout doc).mapError .ofMisfit

def prepareInput (layout : Layout) (input : Input) : Except ValidationError Record := do
  let record ← createInput layout input
  validate layout record
  return record

end ServiceBindings
