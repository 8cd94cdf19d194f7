import Mathlib.Data.List.Forall2
import ServiceBindings.Proofs.Steps
import ServiceBindings.Proofs.Value.Typing
import ServiceBindings.Value.Reading

/-! Values that are read back from payloads: parts first, then what they make up. -/
namespace ServiceBindings
open Plan (Binding Heading Layout Target)

/-- A value is read back from a document. -/
structure Reads (origin : Origin) (target : Target) (value : Value) (doc : Document) : Prop where
  present : doc.isNull = false
  read : ∀ path, ∃ found, readPresent origin path doc target = .ok found ∧ found.same value = true

theorem Reads.readValue {origin : Origin} {target : Target} {value : Value} {doc : Document}
    (h : Reads origin target value doc) (path : String) :
    ∃ found, readValue origin path target doc = .ok (some found) ∧ found.same value = true := by
  obtain ⟨found, hfound, hsame⟩ := h.read path
  refine ⟨found, ?_, hsame⟩
  rw [ServiceBindings.readValue, h.present, hfound]
  rfl

/-- Items are read back one after the other. -/
theorem exists_readItems {origin : Origin} {item : Target} {items : List Value}
    {docs : List Document} (h : List.Forall₂ (Reads origin item) items docs) (path : String)
    (position : Nat) :
    ∃ found, readItems (fun path doc => readValue origin path item doc) path position docs =
        .ok found ∧
      List.Forall₂ (fun a b => a.same b = true) found items := by
  induction h generalizing position with
  | nil => exact ⟨[], rfl, .nil⟩
  | cons hdoc _ ih =>
    obtain ⟨first, hfirst, hsame⟩ := hdoc.readValue (itemPath path position)
    obtain ⟨found, hfound, hsames⟩ := ih (position + 1)
    refine ⟨first :: found, ?_, .cons hsame hsames⟩
    rw [readItems, hfirst, ok_bind, hfound]
    rfl

/-- Items are read one after the other. -/
theorem readItems_of_forall₂ {step : String → Document → Except Misfit (Option Value)}
    {items : List Value} {docs : List Document}
    (h : List.Forall₂ (fun item doc => ∀ path, step path doc = .ok (some item)) items docs)
    (path : String) (position : Nat) : readItems step path position docs = .ok items := by
  induction h generalizing position with
  | nil => rfl
  | cons hitem _ ih =>
    rw [readItems, hitem, ok_bind, ih]
    rfl

/-- Entries under new keys are read one behind the other. -/
theorem readEntries_of_forall₂ {step : String → Document → Except Misfit (Option Value)}
    {entries : List (String × Value)} {docs : List (String × Document)}
    (h : List.Forall₂ (fun entry doc => doc.1 = entry.1 ∧
      ∀ path, step path doc.2 = .ok (some entry.2)) entries docs)
    {before : Fields Value} (hnodup : (Fields.names (before ++ entries)).Nodup) (path : String) :
    readEntries step path before docs = .ok (before ++ entries) := by
  induction h generalizing before with
  | nil => rw [readEntries, List.append_nil]
  | @cons entry doc entries docs hentry _ ih =>
    obtain ⟨key, value⟩ := entry
    obtain ⟨name, doc⟩ := doc
    obtain ⟨rfl, hstep⟩ := hentry
    have hnew : name ∉ Fields.names before := by
      rw [Fields.names_append, List.nodup_append'] at hnodup
      exact fun hmem => hnodup.2.2 hmem List.mem_cons_self
    rw [List.append_cons] at hnodup ⊢
    rw [readEntries, hstep, ok_bind]
    dsimp only
    rw [Fields.set_of_notMem hnew, ih hnodup]

/-- A list is read as its items are. -/
theorem readPresent_list {origin : Origin} {path shape : String} {doc : Document} {item : Target}
    {itemName : Option String} {flattened : Bool} {docs : List Document} {found : List Value}
    (hdocs : itemDocuments origin path itemName flattened doc = .ok docs)
    (hfound : readItems (fun path doc => readValue origin path item doc) path 0 docs = .ok found) :
    readPresent origin path doc (.list shape item itemName flattened) = .ok (.list found) := by
  rw [readPresent, hdocs, ok_bind]
  simp only [readValue] at hfound
  dsimp only
  rw [hfound]
  rfl

/-- A map of an XML payload is read as the elements of its entries are. -/
theorem readPresent_map {path shape : String} {doc : Document} {key target : Target}
    {keyName valueName : Option String} {flattened : Bool} {elements : List Document}
    {found : Fields Value}
    (helements : entryDocuments path "map" "entry" flattened doc = .ok elements)
    (hfound : readElements (fun path doc => readValue .xml path target doc) path keyName valueName
      [] elements = .ok found) :
    readPresent .xml path doc (.map shape key target keyName valueName flattened) =
      .ok (.map found) := by
  simp only [readValue] at hfound
  rw [readPresent, helements, ok_bind, hfound]
  rfl

/-- A map of any other origin is read as the entries of an object are. -/
theorem readPresent_map_of_object {origin : Origin} (horigin : origin ≠ .xml)
    {path shape : String} {docs : Fields Document} {key target : Target}
    {keyName valueName : Option String} {flattened : Bool} {found : Fields Value}
    (hfound : readEntries (fun path doc => readValue origin path target doc) path [] docs =
      .ok found) :
    readPresent origin path (.object docs) (.map shape key target keyName valueName flattened) =
      .ok (.map found) := by
  simp only [readValue] at hfound
  rw [readPresent]
  · rw [hfound]
    rfl
  · exact horigin

/-- A structure is read as its members are. -/
theorem readPresent_structure {origin : Origin} {path : String} {doc : Document} {heading : Heading}
    {members : List (Binding × Target)} {docs : Fields Document} {found : Fields Value}
    (hdocs : membersOf origin path doc = .ok docs)
    (hfound : readMembers origin path docs members = .ok found) :
    readPresent origin path doc (.structure heading members) =
      .ok (.structure heading.shape found) := by
  rw [readPresent, hdocs, ok_bind, hfound]
  rfl

theorem readPresent_toTarget (origin : Origin) (path : String) (layout : Layout) (doc : Document) :
    readPresent origin path doc layout.toTarget =
      (readRecord origin path layout doc).map Record.toValue := by
  rw [Layout.toTarget, readPresent, readRecord]
  cases membersOf origin path doc with
  | error e => rfl
  | ok docs =>
    show (readMembers origin path docs layout.members >>= _) =
      (readMembers origin path docs layout.members >>= _).map _
    cases readMembers origin path docs layout.members <;> rfl

theorem Record.toValue_inj {record other : Record} (h : record.toValue = other.toValue) :
    record = other := by
  obtain ⟨hshape, hfields⟩ := Value.structure.inj h
  cases record
  cases other
  exact congrArg₂ _ hshape hfields

/-- One more entry is read back behind the others. -/
theorem exists_readEntries_cons {origin : Origin} {target : Target} {value : Value}
    {doc : Document} (h : Reads origin target value doc) {key : String} {before : Fields Value}
    (hnew : key ∉ Fields.names before) (path : String) (rest : List (String × Document)) :
    ∃ found, readEntries (fun path doc => readValue origin path target doc) path before
          ((key, doc) :: rest) =
        readEntries (fun path doc => readValue origin path target doc) path
          (before ++ [(key, found)]) rest ∧
      found.same value = true := by
  obtain ⟨found, hfound, hsame⟩ := h.readValue (partPath path key)
  refine ⟨found, ?_, hsame⟩
  rw [readEntries, hfound, ok_bind]
  dsimp only
  rw [Fields.set_of_notMem hnew]

/-- From documents under their names in messages, members are read back as those that are present.
-/
def ReadMembers (origin : Origin) (members : List (Binding × Target)) (fields : Fields Value)
    (docs : Fields Document) : Prop :=
  ∀ path (all : Fields Document),
    (∀ member ∈ members, Fields.get? all member.1.wireName = Fields.get? docs member.1.wireName) →
    ∃ found, readMembers origin path all members = .ok found ∧
      Fields.names found =
        (members.map (·.1.name)).filter (fun name => (Fields.get? fields name).isSome) ∧
      ∀ entry ∈ found, ∃ value, Fields.get? fields entry.1 = some value ∧
        entry.2.same value = true

section
variable {origin : Origin} {binding : Binding} {target : Target} {rest : List (Binding × Target)}
  {fields : Fields Value} {docs : Fields Document}

theorem readMembers_nil (origin : Origin) (fields : Fields Value) (docs : Fields Document) :
    ReadMembers origin [] fields docs :=
  fun _ _ _ => ⟨[], rfl, rfl, by simp⟩

theorem ReadMembers.congr {members : List (Binding × Target)} {others : Fields Document}
    (h : ReadMembers origin members fields docs)
    (heq : ∀ name, Fields.get? others name = Fields.get? docs name) :
    ReadMembers origin members fields others :=
  fun path all hall => h path all fun member hmem => (hall member hmem).trans (heq _)

theorem memberKey?_of_body (horigin : origin ≠ .caller) (hbody : binding.location = .body) :
    memberKey? origin binding = some binding.wireName := by
  cases origin with
  | caller => exact absurd rfl horigin
  | json | xml => exact if_pos hbody

theorem ReadMembers.absent (h : ReadMembers origin rest fields docs) (horigin : origin ≠ .caller)
    (hbody : binding.location = .body) (habsent : Fields.get? fields binding.name = none)
    (hnone : Fields.get? docs binding.wireName = none) :
    ReadMembers origin ((binding, target) :: rest) fields docs := by
  intro path all hall
  have hkey : (memberKey? origin binding).bind (Fields.get? all) = none := by
    rw [memberKey?_of_body horigin hbody, Option.bind_some, hall _ List.mem_cons_self, hnone]
  obtain ⟨found, hfound, hnames, hsame⟩ :=
    h path all fun member hmem => hall member (List.mem_cons_of_mem _ hmem)
  refine ⟨found, ?_, ?_, hsame⟩
  · rw [readMembers, hkey]
    exact hfound
  · rw [hnames, List.map_cons, List.filter_cons_of_neg (by simp [habsent])]

theorem ReadMembers.present {value : Value} {doc : Document}
    (h : ReadMembers origin rest fields docs) (horigin : origin ≠ .caller)
    (hbody : binding.location = .body) (hnew : binding.wireName ∉ rest.map (·.1.wireName))
    (hvalue : Fields.get? fields binding.name = some value)
    (hdoc : Reads origin target value doc) :
    ReadMembers origin ((binding, target) :: rest) fields ((binding.wireName, doc) :: docs) := by
  intro path all hall
  have hkey : (memberKey? origin binding).bind (Fields.get? all) = some doc := by
    rw [memberKey?_of_body horigin hbody, Option.bind_some, hall _ List.mem_cons_self,
      Fields.get?_cons, if_pos rfl]
  obtain ⟨found, hfound, hnames, hsame⟩ := h path all fun member hmem => by
    have hne : member.1.wireName ≠ binding.wireName := fun heq =>
      hnew (heq ▸ List.mem_map_of_mem hmem)
    rw [hall member (List.mem_cons_of_mem _ hmem), Fields.get?_cons, if_neg hne]
  obtain ⟨first, hfirst, hsameFirst⟩ := hdoc.read (partPath path binding.name)
  refine ⟨(binding.name, first) :: found, ?_, ?_, ?_⟩
  · rw [readMembers, hkey]
    simp only [hdoc.present, hfirst, hfound]
    rfl
  · rw [List.map_cons, List.filter_cons_of_pos (by simp [hvalue]), ← hnames]
    rfl
  · intro entry hmem
    rcases List.mem_cons.1 hmem with rfl | hmem
    · exact ⟨value, hvalue, hsameFirst⟩
    · exact hsame entry hmem

end

end ServiceBindings
