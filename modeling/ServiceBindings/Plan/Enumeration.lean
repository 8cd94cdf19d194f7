import ServiceBindings.Model.Error
import ServiceBindings.Model.Settings
import ServiceBindings.Naming.Identifier

/-! Enumerations with a named constant for each value. -/
namespace ServiceBindings.Plan
open Naming (Identifier)

structure Constant where
  name : String
  value : String
deriving DecidableEq

structure Enumeration where
  ident : Identifier
  shape : String
  constants : List Constant
deriving DecidableEq

def Enumeration.contains (e : Enumeration) (value : String) : Bool :=
  e.constants.any (·.value = value)

/-- Enters a value under its name. A name that is taken keeps or changes its value as the policy
says. -/
def enterConstant (policy : CollisionPolicy) (shape name value : String) :
    List Constant → Except ModelError (List Constant)
  | [] => .ok [⟨name, value⟩]
  | constant :: rest =>
    if name = constant.name then
      match policy with
      | .reject => .error (.enumCollision shape name constant.value value)
      | .overwrite => .ok (⟨name, value⟩ :: rest)
    else if name < constant.name then .ok (⟨name, value⟩ :: constant :: rest)
    else (enterConstant policy shape name value rest).map (constant :: ·)

def constantsOf (policy : CollisionPolicy) (shape : String) (values : List String) :
    Except ModelError (List Constant) :=
  values.foldlM (fun constants value =>
    enterConstant policy shape (Naming.constantCase value) value constants) []

end ServiceBindings.Plan
