import ServiceBindings.Text.Digits

/-! Paths to parts of values, as the words of errors show them. -/
namespace ServiceBindings

def partPath (path name : String) : String :=
  if path = "" then name else path ++ "." ++ name

def itemPath (path : String) (position : Nat) : String :=
  path ++ "[" ++ Text.natural position ++ "]"

end ServiceBindings
