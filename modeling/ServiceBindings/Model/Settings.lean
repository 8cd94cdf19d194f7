import ServiceBindings.Json.Record

/-! Settings of a run. -/
namespace ServiceBindings

/-- What to do when two values of an enumeration share a constant. -/
inductive CollisionPolicy where
  | reject
  /-- The value that is declared last wins. -/
  | overwrite
deriving DecidableEq

structure Settings where
  serviceModule : String := "service"
  enumCollision : CollisionPolicy := .reject
deriving DecidableEq

structure SettingsError where
deriving DecidableEq

def CollisionPolicy.named? : String → Option CollisionPolicy
  | "reject" => some .reject
  | "overwrite" => some .overwrite
  | _ => none

/-- Reads a policy: its name, or an object whose only member has that name and is null. -/
def CollisionPolicy.read? : Json.Tree → Option CollisionPolicy
  | .string s => s.bind named?
  | .object [(key, .null)] => key.bind named?
  | _ => none

/-- Reads settings from a JSON text; what is missing has its default. -/
def Settings.load (text : String) : Except SettingsError Settings :=
  let settings? := do
    let tree ← Json.Tree.ofChars? text.toList
    let r ← tree.record? ["service_module", "enum_collision"]
    let serviceModule ← r.default? "service_module" "service" Json.Tree.text?
    let enumCollision ← r.default? "enum_collision" .reject CollisionPolicy.read?
    some { serviceModule, enumCollision : Settings }
  match settings? with
  | some settings => .ok settings
  | none => .error ⟨⟩

end ServiceBindings
