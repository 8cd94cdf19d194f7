import ServiceBindings.Http.Uri
import ServiceBindings.Plan.Call
import ServiceBindings.Request.Scalar

/-! Addresses of requests: the template with its labels filled in, and the members of the query. -/
namespace ServiceBindings.Request
open Plan (Binding Call Layout Segment Target)

def segmentText (layout : Layout) (record : Record) : Segment → Except Error String
  | .literal s => .ok s
  | .label member name greedy =>
    match layout.member? member, record.get? member with
    | some (_, target), some value =>
      (scalarText .dateTime member target value).map (Text.Percent.label greedy)
    | _, _ => .error (.missingLabel name)

/-- The pairs of a member: one per item of a list, and a map's entries under their own keys. -/
def memberPairs (binding : Binding) (target : Target) (value : Value) :
    Except Error (List (String × String)) :=
  let text := scalarText .dateTime binding.name
  match target, value with
  | .list _ item _ _, .list items =>
    items.mapM fun value => return (binding.wireName, ← text item value)
  | .map _ _ target _ _ _, .map entries =>
    entries.mapM fun entry => return (entry.1, ← text target entry.2)
  | _, _ => return [(binding.wireName, ← text target value)]

/-- The pairs of the query, in the order in which the members are declared. -/
def queryPairs (layout : Layout) (record : Record) : Except Error (List (String × String)) := do
  let pairs ← (layout.membersAt .queryString).mapM fun member =>
    match record.get? member.1.name with
    | some value => memberPairs member.1 member.2 value
    | none => .ok []
  return pairs.flatten

def address (call : Call) (record : Record) : Except Error String := do
  let path := String.join (← call.template.path.mapM (segmentText call.input record))
  let path :=
    match call.template.fixedQuery with
    | some fixed => path ++ "?" ++ fixed
    | none => path
  return Http.withQuery path (← queryPairs call.input record)

end ServiceBindings.Request
