import Mathlib.Tactic.Common
import ServiceBindings.Proofs.Value.Typing

/-! The parts of messages that can carry members of each kind. -/
namespace ServiceBindings.Plan

/-- Data without parts. -/
def Target.IsSimple : Target → Prop
  | .scalar _ _ _ => True
  | .enumeration _ => True
  | _ => False

mutual

/-- No bytes are taken from sources. -/
def Target.IsStored : Target → Prop
  | .scalar kind _ streaming => kind = .blob → streaming = false
  | .enumeration _ => True
  | .list _ item _ _ => item.IsStored
  | .map _ _ value _ _ _ => value.IsStored
  | .structure _ members => AreStored members

/-- No bytes of members are taken from sources. -/
def AreStored : List (Binding × Target) → Prop
  | [] => True
  | (_, target) :: rest => target.IsStored ∧ AreStored rest

end

theorem areStored_iff {members : List (Binding × Target)} :
    AreStored members ↔ ∀ member ∈ members, member.2.IsStored := by
  induction members with
  | nil => simp [AreStored]
  | cons member rest ih => rw [AreStored, ih, List.forall_mem_cons]

/-- What a part of a message can carry: texts, several texts in queries and headers, and a structure
or a text or bytes as a whole body. -/
def Location.Admits : Location → Target → Prop
  | .uri, target => target.IsSimple
  | .queryString, .list _ item _ _ => item.IsSimple
  | .queryString, .map _ _ value _ _ _ => value.IsSimple
  | .queryString, target => target.IsSimple
  | .header, .list _ item _ _ => item.IsSimple
  | .header, target => target.IsSimple
  | .headerPrefix, .map _ _ value _ _ _ => value.IsSimple
  | .headerPrefix, _ => False
  | .payload, .structure _ members => AreStored members
  | .payload, .enumeration _ => True
  | .payload, .scalar kind _ _ => kind = .string ∨ kind = .blob
  | .payload, _ => False
  | .statusCode, _ => True
  | .body, _ => True

/-- The attributes of elements are texts. -/
def AttributesAreSimple (members : List (Binding × Target)) : Prop :=
  ∀ member ∈ members, member.1.xmlAttribute = true → member.2.IsSimple

/-- Members are carried where they can be, and only a whole body is taken from a source. -/
structure Layout.HasLegalBindings (layout : Layout) : Prop where
  places : ∀ member ∈ layout.members, Location.Admits member.1.location member.2
  attributes : layout.toTarget.EachStructure AttributesAreSimple
  stored : ∀ member ∈ layout.members, member.1.location ≠ .payload → member.2.IsStored

end ServiceBindings.Plan
