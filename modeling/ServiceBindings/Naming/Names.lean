import ServiceBindings.Model.Shape
import ServiceBindings.Naming.Identifier
import ServiceBindings.Text.Digits

/-! Names given to shapes and operations: the same one each time, and never one file for two. -/
namespace ServiceBindings.Naming

structure Names where
  /-- The module of each shape that an operation takes or returns. -/
  roles : Fields Area
  shapes : Fields Identifier := []
  operations : Fields Identifier := []
  /-- The files that hold the named items. -/
  taken : List (Area × String) := []

/-- A name by itself and then with numbers from two on. -/
def candidates (base : String) (count : Nat) : List String :=
  base :: (List.range count).map fun k => base ++ Text.natural (k + 2)

/-- The first candidate whose file is free. One more number than there are files is enough. -/
def freeName (taken : List (Area × String)) (area : Area) (base : String) : String :=
  ((candidates base (taken.length + 1)).find? fun name => (area, fileStem name) ∉ taken).getD base

/-- The module of each shape that an operation takes; then of those that one returns. -/
def rolesOf (operations : List Operation) : Fields Area :=
  let inputs := Fields.ofList (operations.map fun operation => (operation.input, Area.input))
  (operations.filterMap (·.output)).foldl (fun roles output =>
    if (Fields.get? roles output).isSome then roles else Fields.set output .output roles) inputs

namespace Names

def ofModel (model : ServiceModel) : Names where
  roles := rolesOf (model.operations.map Prod.snd)

/-- Takes a free name close to `base`. -/
def claim (names : Names) (area : Area) (base : String) : Identifier × Names :=
  let name := freeName names.taken area base
  (⟨area, name⟩, { names with taken := (area, fileStem name) :: names.taken })

/-- The module of a shape. -/
def areaOf (names : Names) (shape : Shape) : Area :=
  match shape.kind with
  | .enumeration _ => .enums
  | _ => (Fields.get? names.roles shape.name).getD .types

def shape (names : Names) (s : Shape) : Identifier × Names :=
  match Fields.get? names.shapes s.name with
  | some ident => (ident, names)
  | none =>
    let (ident, names) := names.claim (names.areaOf s) (typeName s.name)
    (ident, { names with shapes := Fields.set s.name ident names.shapes })

def operation (names : Names) (name : String) : Identifier × Names :=
  match Fields.get? names.operations name with
  | some ident => (ident, names)
  | none =>
    let (ident, names) := names.claim .client (memberName name)
    (ident, { names with operations := Fields.set name ident names.operations })

end Names
end ServiceBindings.Naming
