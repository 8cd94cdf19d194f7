import Mathlib.Data.List.Nodup
import ServiceBindings.Proofs.Fields
import ServiceBindings.Proofs.Steps
import ServiceBindings.Value.Basic

/-! Values whose structures have the same members, in whatever order these were set. -/
namespace ServiceBindings.Value

/-- Two values are the same but for the order of the members of structures. Items and entries have
the same order. -/
inductive Reordered : Value → Value → Prop
  | refl (value : Value) : Reordered value value
  | list {items others : List Value} (hitems : List.Forall₂ Reordered items others) :
    Reordered (.list items) (.list others)
  | map {entries others : List (String × Value)}
    (hkeys : entries.map Prod.fst = others.map Prod.fst)
    (hvalues : List.Forall₂ Reordered (entries.map Prod.snd) (others.map Prod.snd)) :
    Reordered (.map entries) (.map others)
  | structure (shape : String) {fields others : List (String × Value)}
    (hfields : ∀ name,
      Option.Rel Reordered (Fields.get? fields name) (Fields.get? others name)) :
    Reordered (.structure shape fields) (.structure shape others)

/-- Entries under the same keys in the same order, with values that differ in the order of members
alone. -/
def SameEntries : List (String × Value) → List (String × Value) → Prop :=
  List.Forall₂ fun a b => a.1 = b.1 ∧ Reordered a.2 b.2

/-- Each member is absent from both, or has values that differ in the order of members alone. -/
def SameMembers (fields others : Fields Value) : Prop :=
  ∀ name, Option.Rel Reordered (Fields.get? fields name) (Fields.get? others name)

theorem sameEntries_of_map {entries others : List (String × Value)}
    (hkeys : entries.map Prod.fst = others.map Prod.fst)
    (hvalues : List.Forall₂ Reordered (entries.map Prod.snd) (others.map Prod.snd)) :
    SameEntries entries others := by
  induction entries generalizing others with
  | nil =>
    obtain rfl := List.map_eq_nil_iff.1 hkeys.symm
    exact .nil
  | cons entry rest ih =>
    cases others with
    | nil => cases hkeys
    | cons other others =>
      obtain ⟨hkey, hkeys⟩ := List.cons.inj hkeys
      obtain ⟨hvalue, hvalues⟩ := List.forall₂_cons.1 hvalues
      exact .cons ⟨hkey, hvalue⟩ (ih hkeys hvalues)

theorem SameMembers.refl (fields : Fields Value) : SameMembers fields fields := by
  intro name
  cases Fields.get? fields name with
  | none => exact .none
  | some value => exact .some (.refl value)

theorem SameMembers.cases {fields others : Fields Value} (h : SameMembers fields others)
    (name : String) :
    (Fields.get? fields name = none ∧ Fields.get? others name = none) ∨
    ∃ value other, Fields.get? fields name = some value ∧ Fields.get? others name = some other ∧
      Reordered value other := by
  have hname := h name
  revert hname
  cases Fields.get? fields name <;> cases Fields.get? others name <;> intro hname <;> cases hname
  · exact .inl ⟨rfl, rfl⟩
  · next hvalue => exact .inr ⟨_, _, rfl, rfl, hvalue⟩

theorem SameEntries.sameMembers {fields others : Fields Value} (h : SameEntries fields others) :
    SameMembers fields others :=
  Fields.rel_get?_of_forall₂ (r := fun _ => Reordered) h

theorem SameMembers.exists_perm {fields others : Fields Value} (h : SameMembers fields others)
    (hfields : (Fields.names fields).Nodup) (hothers : (Fields.names others).Nodup) :
    ∃ middle, SameEntries fields middle ∧ middle.Perm others := by
  have hmatch (entry : String × Value) (hmem : entry ∈ fields) :
      ∃ other, Fields.get? others entry.1 = some other ∧ Reordered entry.2 other := by
    have hvalue := Fields.get?_of_mem hfields hmem
    rcases h.cases entry.1 with ⟨hnone, -⟩ | ⟨value, other, hvalue', hother, hsame⟩
    · cases hnone.symm.trans hvalue
    · obtain rfl := Option.some.inj (hvalue.symm.trans hvalue')
      exact ⟨other, hother, hsame⟩
  -- Each entry goes with the other entry of its name.
  obtain ⟨middle, hmiddle⟩ := exists_forall₂
    (r := fun (a b : String × Value) => Fields.get? others a.1 = some b.2 ∧ a.1 = b.1 ∧
      Reordered a.2 b.2) fun a hmem => by
    obtain ⟨other, hother, hsame⟩ := hmatch a hmem
    exact ⟨(a.1, other), hother, rfl, hsame⟩
  have hnames : Fields.names middle = Fields.names fields :=
    map_eq_map_of_forall₂ hmiddle fun a b hab => hab.2.1.symm
  refine ⟨middle, hmiddle.imp fun _ _ hab => hab.2, ?_⟩
  have hnodup : (Fields.names middle).Nodup := hnames ▸ hfields
  refine (List.perm_ext_iff_of_nodup hnodup.of_map hothers.of_map).2 fun entry => ?_
  constructor
  · intro hmem
    obtain ⟨a, -, hget, hname, -⟩ := exists_of_mem_forall₂_right hmiddle hmem
    exact Fields.mem_of_get? (hname ▸ hget)
  · intro hmem
    have hget := Fields.get?_of_mem hothers hmem
    have hname : entry.1 ∈ Fields.names middle := by
      rw [hnames, ← Fields.isSome_get?]
      rcases h.cases entry.1 with ⟨-, hnone⟩ | ⟨value, other, hvalue, -, -⟩
      · cases hnone.symm.trans hget
      · rw [hvalue, Option.isSome_some]
    obtain ⟨found, hfound, hkey⟩ := List.mem_map.1 hname
    obtain ⟨a, -, hget', hname', -⟩ := exists_of_mem_forall₂_right hmiddle hfound
    rw [hname', hkey, hget, Option.some_inj] at hget'
    rwa [Prod.ext hkey.symm hget']

/-- Having the same members is having them in any order, with values whose members in turn may be in
any order. -/
theorem sameMembers_iff {fields others : Fields Value} (hfields : (Fields.names fields).Nodup)
    (hothers : (Fields.names others).Nodup) :
    SameMembers fields others ↔ ∃ middle, SameEntries fields middle ∧ middle.Perm others := by
  constructor
  · exact fun h => h.exists_perm hfields hothers
  · rintro ⟨middle, hentries, hperm⟩ name
    rw [← Fields.get?_eq_of_perm hperm hothers]
    exact hentries.sameMembers name

namespace Reordered

theorem kind {value other : Value} (h : Reordered value other) : value.kind = other.kind := by
  cases h <;> rfl

theorem ofRecord {record other : Record} (h : Reordered record.toValue other.toValue) :
    record.shape = other.shape ∧ SameMembers record.fields other.fields := by
  obtain ⟨shape, fields⟩ := record
  obtain ⟨shape', fields'⟩ := other
  cases h with
  | refl => exact ⟨rfl, SameMembers.refl fields⟩
  | «structure» _ hfields => exact ⟨rfl, hfields⟩

end Reordered
end ServiceBindings.Value
