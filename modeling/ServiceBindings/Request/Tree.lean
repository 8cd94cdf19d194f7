import ServiceBindings.Form
import ServiceBindings.Json.Node
import ServiceBindings.Request.Scalar
import ServiceBindings.Xml.Element

/-! Values as parts of bodies: fields of forms, JSON texts and XML elements. -/
namespace ServiceBindings.Request
open Plan (Binding Target)

mutual

def formNode (path : String) (value : Value) : Target → Except Error Form.Node
  | .structure heading members =>
    match value with
    | .structure _ fields => (formFields path fields members).map .fields
    | _ => wrongKind path (.structure heading members) value
  | .list shape item itemName flattened =>
    match value with
    | .list items => do
      let nodes ← eachItem (fun path value => return [← formNode path value item]) path 0 items
      return .list (if flattened then none else some (Plan.itemElement itemName)) nodes
    | _ => wrongKind path (.list shape item itemName flattened) value
  | .map shape key target keyName valueName flattened =>
    match value with
    | .map entries => do
      let step := fun key path value => return [(key, ← formNode path value target)]
      let nodes ← eachEntry step path entries
      return .map (if flattened then none else some "entry") (Plan.keyElement keyName)
        (Plan.valueElement valueName) nodes
    | _ => wrongKind path (.map shape key target keyName valueName flattened) value
  | target => (scalarText .dateTime path target value).map .text

/-- The members that are present as fields of a form, wherever else they could be carried. -/
def formFields (path : String) (fields : Fields Value) :
    List (Binding × Target) → Except Error (List (String × Form.Node))
  | [] => .ok []
  | (binding, target) :: rest => do
    match Fields.get? fields binding.name with
    | none => formFields path fields rest
    | some value =>
      let node ← formNode (partPath path binding.name) value target
      return (binding.wireName, node) :: (← formFields path fields rest)

end

def jsonScalar (path : String) (target : Target) (value : Value) : Except Error Json.Node :=
  match target, value with
  | .scalar .boolean _ _, .boolean b => .ok (.bool b)
  | .scalar .integer _ _, .integer i => .ok (.ofNumber (.ofInt i))
  | .scalar .float _ _, .float x => .ok (.ofNumber (.float x))
  | .scalar .float _ _, .integer i => .ok (.ofNumber (.ofInt i))
  | .scalar .timestamp format _, .timestamp t =>
    match Json.Node.ofInstant? t (format.getD .epochSeconds) with
    | some node => .ok node
    | none => .error .unwritableInstant
  | _, _ => (scalarText .epochSeconds path target value).map .string

mutual

def jsonNode (path : String) (value : Value) : Target → Except Error Json.Node
  | .structure heading members =>
    match value with
    | .structure _ fields => (jsonMembers path fields members).map .object
    | _ => wrongKind path (.structure heading members) value
  | .list shape item itemName flattened =>
    match value with
    | .list items =>
      (eachItem (fun path value => return [← jsonNode path value item]) path 0 items).map .array
    | _ => wrongKind path (.list shape item itemName flattened) value
  | .map shape key target keyName valueName flattened =>
    match value with
    | .map entries =>
      let step := fun key path value => return [(key, ← jsonNode path value target)]
      (eachEntry step path entries).map .object
    | _ => wrongKind path (.map shape key target keyName valueName flattened) value
  | target => jsonScalar path target value

/-- The members of the body that are present, in the order of their declaration. -/
def jsonMembers (path : String) (fields : Fields Value) :
    List (Binding × Target) → Except Error (List (String × Json.Node))
  | [] => .ok []
  | (binding, target) :: rest => do
    match binding.location, Fields.get? fields binding.name with
    | .body, some value =>
      let node ← jsonNode (partPath path binding.name) value target
      return (binding.wireName, node) :: (← jsonMembers path fields rest)
    | _, _ => jsonMembers path fields rest

end

def declare (ns : Option Namespace) (element : Xml.Element) : Xml.Element :=
  match ns with
  | some ns => element.setAttribute ns.attributeName ns.uri
  | none => element

mutual

/-- The content that a value becomes under a name. The entries of what is flattened stand by
themselves. -/
def xmlNodes (name : String) (ns : Option Namespace) (path : String) (value : Value) :
    Target → Except Error (List Xml.Node)
  | .structure heading members =>
    match value with
    | .structure _ fields => do
      let element ←
        xmlMembers path fields (declare (ns.or heading.xmlNamespace) { name }) members
      return [element.toNode]
    | _ => wrongKind path (.structure heading members) value
  | .list shape item itemName flattened =>
    match value with
    | .list items =>
      if flattened then
        eachItem (fun path value => xmlNodes name ns path value item) path 0 items
      else do
        let itemName := Plan.itemElement itemName
        let nodes ←
          eachItem (fun path value => xmlNodes itemName none path value item) path 0 items
        return [.element name [] nodes]
    | _ => wrongKind path (.list shape item itemName flattened) value
  | .map shape key target keyName valueName flattened =>
    match value with
    | .map entries => do
      let step := fun key path value => do
        let keyNode := (Xml.Element.ofText (Plan.keyElement keyName) key).toNode
        let nodes ← xmlNodes (Plan.valueElement valueName) none path value target
        return [Xml.Node.element (if flattened then name else "entry") [] (keyNode :: nodes)]
      let nodes ← eachEntry step path entries
      return if flattened then nodes else [.element name [] nodes]
    | _ => wrongKind path (.map shape key target keyName valueName flattened) value
  | target => do
    let text ← scalarText .dateTime path target value
    return [((declare ns { name }).pushText text).toNode]

/-- Adds the members of the body that are present to an element, as attributes or content. -/
def xmlMembers (path : String) (fields : Fields Value) (element : Xml.Element) :
    List (Binding × Target) → Except Error Xml.Element
  | [] => .ok element
  | (binding, target) :: rest => do
    match binding.location, Fields.get? fields binding.name with
    | .body, some value =>
      let path' := partPath path binding.name
      if binding.xmlAttribute then
        let text ← scalarText .dateTime path' target value
        xmlMembers path fields (element.setAttribute binding.wireName text) rest
      else
        let nodes ← xmlNodes binding.wireName binding.xmlNamespace path' value target
        xmlMembers path fields { element with children := element.children ++ nodes } rest
    | _, _ => xmlMembers path fields element rest

end

end ServiceBindings.Request
