import Mathlib.Tactic.Common
import ServiceBindings.Plan.Target
import ServiceBindings.Proofs.Fields
import ServiceBindings.Value.Basic

/-! What the parts of targets have in common, and which values fit a target. -/
namespace ServiceBindings
open Plan (Binding Heading Layout Target)

mutual

/-- A property holds of the members of every structure within a target. The keys of maps are texts
in messages, so their targets do not count. -/
def Plan.Target.EachStructure (p : List (Binding × Target) → Prop) : Target → Prop
  | .scalar _ _ _ => True
  | .enumeration _ => True
  | .list _ item _ _ => item.EachStructure p
  | .map _ _ value _ _ _ => value.EachStructure p
  | .structure _ members => p members ∧ EachMember p members

/-- A property holds of the members of every structure within the targets of members. -/
def Plan.Target.EachMember (p : List (Binding × Target) → Prop) : List (Binding × Target) → Prop
  | [] => True
  | (_, target) :: rest => target.EachStructure p ∧ EachMember p rest

end

/-- All members are carried by the body, and their names in it differ. -/
structure Plan.CarriedByBody (members : List (Binding × Target)) : Prop where
  body : ∀ member ∈ members, member.1.location = .body
  wireNames : (members.map (·.1.wireName)).Nodup

/-- The members of a structure have names of their own. -/
def Plan.HaveOwnNames (members : List (Binding × Target)) : Prop :=
  (members.map (·.1.name)).Nodup

/-- All members are carried by the body, each under names of its own. -/
structure Plan.InBody (members : List (Binding × Target)) : Prop extends
    Plan.CarriedByBody members where
  names : Plan.HaveOwnNames members

theorem Plan.InBody.tail {member : Binding × Target} {rest : List (Binding × Target)}
    (h : Plan.InBody (member :: rest)) :
    Plan.InBody rest ∧ member.1.wireName ∉ rest.map (·.1.wireName) := by
  obtain ⟨⟨hbody, hwireNames⟩, hnames⟩ := h
  rw [HaveOwnNames] at hnames
  rw [List.map_cons, List.nodup_cons] at hnames hwireNames
  exact ⟨⟨⟨fun member hmem => hbody member (List.mem_cons_of_mem _ hmem), hwireNames.2⟩, hnames.2⟩,
    hwireNames.1⟩

section
variable {p q r : List (Binding × Target) → Prop}

theorem Plan.Target.EachMember.of_mem {members : List (Binding × Target)}
    {member : Binding × Target} (h : EachMember p members) (hmem : member ∈ members) :
    member.2.EachStructure p := by
  induction members with
  | nil => simp at hmem
  | cons first rest ih =>
    rcases List.mem_cons.1 hmem with rfl | hmem
    · exact h.1
    · exact ih h.2 hmem

mutual

/-- What follows from two properties of the members of a structure holds throughout with them. -/
theorem Plan.Target.EachStructure.and (h : ∀ members, p members → q members → r members)
    (target : Target) (hp : target.EachStructure p) (hq : target.EachStructure q) :
    target.EachStructure r := by
  cases target with
  | scalar | enumeration => trivial
  | list shape item itemName flattened =>
    exact Plan.Target.EachStructure.and h item hp hq
  | map shape key value keyName valueName flattened =>
    exact Plan.Target.EachStructure.and h value hp hq
  | «structure» heading members =>
    exact ⟨h members hp.1 hq.1, Plan.Target.EachMember.and h hp.2 hq.2⟩

theorem Plan.Target.EachMember.and (h : ∀ members, p members → q members → r members)
    {members : List (Binding × Target)} (hp : EachMember p members) (hq : EachMember q members) :
    EachMember r members := by
  match members with
  | [] => trivial
  | (_, _) :: _ =>
    exact ⟨Plan.Target.EachStructure.and h _ hp.1 hq.1, Plan.Target.EachMember.and h hp.2 hq.2⟩

end

end

namespace Value

mutual

/-- A value has the kinds and names of a target throughout, and its data without parts are as `leaf`
says. Structures hold no members but those of their targets. -/
def Fits (leaf : Scalar → Option Time.Format → Bool → Value → Prop) (value : Value) : Target → Prop
  | .scalar kind format streaming => leaf kind format streaming value
  | .enumeration _ => ∃ s, value = .string s
  | .list _ item _ _ => ∃ items, value = .list items ∧ ∀ v ∈ items, v.Fits leaf item
  | .map _ _ target _ _ _ =>
    ∃ entries, value = .map entries ∧ (Fields.names entries).Nodup ∧
      ∀ entry ∈ entries, entry.2.Fits leaf target
  | .structure heading members =>
    ∃ fields, value = .structure heading.shape fields ∧ (Fields.names fields).Nodup ∧
      (∀ name ∈ Fields.names fields, ∃ member ∈ members, member.1.name = name) ∧
      FitMembers leaf fields members

/-- The members that are present fit their targets. -/
def FitMembers (leaf : Scalar → Option Time.Format → Bool → Value → Prop) (fields : Fields Value) :
    List (Binding × Target) → Prop
  | [] => True
  | (binding, target) :: rest =>
    (∀ value ∈ Fields.get? fields binding.name, value.Fits leaf target) ∧
      FitMembers leaf fields rest

end

theorem fitMembers_iff {leaf : Scalar → Option Time.Format → Bool → Value → Prop}
    {fields : Fields Value} {members : List (Binding × Target)} :
    FitMembers leaf fields members ↔ ∀ member ∈ members,
      ∀ value ∈ Fields.get? fields member.1.name, value.Fits leaf member.2 := by
  induction members with
  | nil => simp [FitMembers]
  | cons member rest ih => rw [FitMembers, ih, List.forall_mem_cons]

mutual

def depth : Value → Nat
  | list items => depthOfItems items + 1
  | map entries => depthOfEntries entries + 1
  | .structure _ fields => depthOfEntries fields + 1
  | _ => 0

def depthOfItems : List Value → Nat
  | [] => 0
  | item :: rest => max item.depth (depthOfItems rest)

def depthOfEntries : List (String × Value) → Nat
  | [] => 0
  | (_, value) :: rest => max value.depth (depthOfEntries rest)

end

theorem depth_le_depthOfEntries {entries : List (String × Value)} {entry : String × Value}
    (h : entry ∈ entries) : entry.2.depth ≤ depthOfEntries entries := by
  induction entries with
  | nil => simp at h
  | cons first rest ih =>
    rw [depthOfEntries]
    rcases List.mem_cons.1 h with rfl | h
    · exact Nat.le_max_left _ _
    · exact Nat.le_trans (ih h) (Nat.le_max_right _ _)

/-- Entries of the same names in the same order whose values are the same. -/
abbrev SameInOrder : List (String × Value) → List (String × Value) → Prop :=
  List.Forall₂ fun a b => a.1 = b.1 ∧ a.2.same b.2 = true

theorem SameInOrder.exists_of_mem {entries others : List (String × Value)}
    (h : SameInOrder entries others) {entry : String × Value} (hmem : entry ∈ entries) :
    ∃ other ∈ others, entry.1 = other.1 ∧ entry.2.same other.2 = true := by
  induction h with
  | nil => simp at hmem
  | cons hentry _ ih =>
    rcases List.mem_cons.1 hmem with rfl | hmem
    · exact ⟨_, List.mem_cons_self, hentry⟩
    · obtain ⟨other, hother, hsame⟩ := ih hmem
      exact ⟨other, List.mem_cons_of_mem _ hother, hsame⟩

theorem sameItems_of_forall₂ {items others : List Value}
    (h : List.Forall₂ (fun a b => a.same b = true) items others) :
    sameItems items others = true := by
  induction h with
  | nil => rfl
  | cons hitem _ ih => simp [sameItems, hitem, ih]

theorem sameEntries_of_forall {entries : List (String × Value)} {others : Fields Value}
    (h : ∀ entry ∈ entries, ∃ value, Fields.get? others entry.1 = some value ∧
      entry.2.same value = true) : sameEntries entries others = true := by
  induction entries with
  | nil => rfl
  | cons entry rest ih =>
    obtain ⟨value, hfound, hsame⟩ := h entry List.mem_cons_self
    rw [sameEntries, hfound, ih fun entry hmem => h entry (List.mem_cons_of_mem _ hmem)]
    simp [hsame]

theorem SameInOrder.sameEntries {entries others : List (String × Value)}
    (h : SameInOrder entries others) (hnodup : (Fields.names others).Nodup) :
    sameEntries entries others = true := by
  refine sameEntries_of_forall fun entry hmem => ?_
  obtain ⟨other, hother, hname, hsame⟩ := h.exists_of_mem hmem
  exact ⟨other.2, Fields.get?_of_mem hnodup (hname ▸ hother), hsame⟩

/-- What is found for the members of a structure has the names of those that are present. -/
theorem mem_names_iff_of_present {members : List (Binding × Target)} {fields found : Fields Value}
    (hknown : ∀ name ∈ Fields.names fields, ∃ member ∈ members, member.1.name = name)
    (hnames : Fields.names found =
      (members.map (·.1.name)).filter fun name => (Fields.get? fields name).isSome)
    (name : String) : name ∈ Fields.names found ↔ name ∈ Fields.names fields := by
  rw [hnames, List.mem_filter, ← Fields.isSome_get?]
  refine ⟨fun h => h.2, fun h => ⟨?_, h⟩⟩
  obtain ⟨member, hmember, rfl⟩ := hknown name ((Fields.isSome_get? fields name).1 h)
  exact List.mem_map_of_mem hmember

/-- Structures are the same when they have the same names and the same value under each. -/
theorem same_structure_of_names {fields found : Fields Value}
    (hnodup : (Fields.names fields).Nodup) (hfound : (Fields.names found).Nodup)
    (hmem : ∀ name, name ∈ Fields.names found ↔ name ∈ Fields.names fields)
    (hsame : ∀ entry ∈ found, ∃ value, Fields.get? fields entry.1 = some value ∧
      entry.2.same value = true) (shape : String) :
    (Value.structure shape found).same (.structure shape fields) = true := by
  have hlength : found.length = fields.length := by
    have hperm := (List.perm_ext_iff_of_nodup hfound hnodup).2 hmem
    simpa [Fields.names] using hperm.length_eq
  simp [Value.same, hlength, sameEntries_of_forall hsame]

/-- The members found make up the same structure when they have the names of those present. -/
theorem same_structure {members : List (Binding × Target)} {fields found : Fields Value}
    (hin : Plan.InBody members) (hnodup : (Fields.names fields).Nodup)
    (hknown : ∀ name ∈ Fields.names fields, ∃ member ∈ members, member.1.name = name)
    (hnames : Fields.names found =
      (members.map (·.1.name)).filter fun name => (Fields.get? fields name).isSome)
    (hsame : ∀ entry ∈ found, ∃ value, Fields.get? fields entry.1 = some value ∧
      entry.2.same value = true) (shape : String) :
    (Value.structure shape found).same (.structure shape fields) = true :=
  same_structure_of_names hnodup (hnames ▸ List.Nodup.filter _ hin.names)
    (mem_names_iff_of_present hknown hnames) hsame shape

end Value
end ServiceBindings
