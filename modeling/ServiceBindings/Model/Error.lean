import ServiceBindings.Model.Shape

/-! Faults of service models. -/
namespace ServiceBindings

inductive ModelError where
  | invalidDescription
  /-- A list or map does not tell the shape of its entries. -/
  | missingReference (shape field : String)
  | invalidMethod (operation method : String)
  | unsupportedProtocol (protocol : String)
  | unsupportedShapeType (shape kind : String)
  | unsupportedLocation (structureName member location : String)
  | unknownShape (name : String)
  | wrongShapeKind (shape expected found : String)
  | unknownOperation (name : String)
  /-- A payload, label or token names no member of its structure. -/
  | unknownMember (structureName member : String)
  | recursiveShape (name : String)
  | enumCollision (shape constant first second : String)
  /-- The braces of a template are not balanced, or a label is empty. -/
  | invalidUriTemplate (template : String)
  /-- A token of a page is no member without parts. -/
  | unsupportedPaginator (operation token : String)
deriving DecidableEq

def ModelError.message : ModelError → String
  | invalidDescription => "failed to parse service model"
  | missingReference shape field =>
    "failed to parse service model: shape `" ++ shape ++ "` is missing its `" ++ field ++
      "` reference"
  | invalidMethod operation method =>
    "failed to parse service model: operation `" ++ operation ++ "` has invalid HTTP method `" ++
      method ++ "`"
  | unsupportedProtocol protocol => "unsupported protocol `" ++ protocol ++ "`"
  | unsupportedShapeType shape kind =>
    "shape `" ++ shape ++ "` has unsupported type `" ++ kind ++ "`"
  | unsupportedLocation structureName member location =>
    "member `" ++ member ++ "` of `" ++ structureName ++ "` has unsupported location `" ++
      location ++ "`"
  | unknownShape name => "unknown shape `" ++ name ++ "`"
  | wrongShapeKind shape expected found =>
    "shape `" ++ shape ++ "` must be a " ++ expected ++ ", found " ++ found
  | unknownOperation name => "unknown operation `" ++ name ++ "`"
  | unknownMember structureName member =>
    "structure `" ++ structureName ++ "` has no member `" ++ member ++ "`"
  | recursiveShape name => "shape `" ++ name ++ "` references itself"
  | enumCollision shape constant first second =>
    "enum `" ++ shape ++ "`: values `" ++ first ++ "` and `" ++ second ++
      "` both canonicalize to `" ++ constant ++ "`"
  | invalidUriTemplate template => "invalid URI template `" ++ template ++ "`"
  | unsupportedPaginator operation token =>
    "operation `" ++ operation ++ "` has an unsupported pagination token `" ++ token ++ "`"

namespace ServiceModel

def shape (model : ServiceModel) (name : String) : Except ModelError Shape :=
  match Fields.get? model.shapes name with
  | some found => .ok found
  | none => .error (.unknownShape name)

def operation (model : ServiceModel) (name : String) : Except ModelError Operation :=
  match Fields.get? model.operations name with
  | some found => .ok found
  | none => .error (.unknownOperation name)

end ServiceModel

def Shape.members (s : Shape) : Except ModelError Structure :=
  match s.kind with
  | .structure found => .ok found
  | kind => .error (.wrongShapeKind s.name "structure" kind.text)

end ServiceBindings
