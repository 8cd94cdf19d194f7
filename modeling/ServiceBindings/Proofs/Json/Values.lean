import Mathlib.Data.List.Forall2
import ServiceBindings.Proofs.Json.Documents
import ServiceBindings.Proofs.Text.Base64
import ServiceBindings.Proofs.Time.DateTime
import ServiceBindings.Proofs.Value.ReadBack
import ServiceBindings.Request.Tree

/-! Values are read back from the documents as which they are written in JSON texts. -/
namespace ServiceBindings.Json
open Plan (Binding Heading InBody Layout Target)
open Request (jsonNode jsonMembers)

/-- Data without parts that JSON texts tell exactly: no floats and no sources, and instants as date
and time. -/
def IsExact (kind : Scalar) (format : Option Time.Format) (_ : Bool) : Value → Prop
  | .string _ => kind = .string
  | .boolean _ => kind = .boolean
  | .integer i => kind = .integer ∧ -Text.int64Bound ≤ i ∧ i < Text.int64Bound
  | .timestamp t => kind = .timestamp ∧ format = some .dateTime ∧ Time.HasPlainYear t
  | .blob _ => kind = .blob
  | _ => False

/-- A document as which a value is written, and from which the value is read. -/
structure Carries (target : Target) (value : Value) (doc : Document) : Prop
    extends Reads .json target value doc where
  written : ∀ path, jsonNode path value target = .ok (Node.ofDocument doc)
  plain : doc.IsPlain
  depth : doc.depth ≤ value.depth

theorem carries_text {target : Target} {value : Value} {s : String}
    (hwritten : ∀ path, jsonNode path value target = .ok (.string s))
    (hread : ∀ path, readPresent .json path (.string s) target = .ok value)
    (hsame : value.same value = true) : Carries target value (.string s) :=
  ⟨⟨rfl, fun path => ⟨value, hread path, hsame⟩⟩, hwritten, trivial, Nat.zero_le _⟩

theorem carries_boolean (b : Bool) (format : Option Time.Format) (streaming : Bool) :
    Carries (.scalar .boolean format streaming) (.boolean b) (.bool b) :=
  ⟨⟨rfl, fun _ => ⟨.boolean b, rfl, by simp [Value.same]⟩⟩, fun _ => rfl, trivial, Nat.zero_le _⟩

theorem int64?_ofInt {i : Int} (h : i < Text.int64Bound) : (Number.ofInt i).int64? = some i := by
  unfold Number.ofInt
  split_ifs with hneg
  · rfl
  · have hi : (i.toNat : Int) = i := by omega
    simp [Number.int64?, hi, h]

theorem carries_integer {i : Int} (hlow : -Text.int64Bound ≤ i) (hhigh : i < Text.int64Bound)
    (format : Option Time.Format) (streaming : Bool) :
    Carries (.scalar .integer format streaming) (.integer i) (.number (.ofInt i)) := by
  have hbound : Text.int64Bound = 9223372036854775808 := rfl
  refine ⟨⟨rfl, fun path => ⟨.integer i, ?_, by simp [Value.same]⟩⟩, fun _ => rfl, ?_,
    Nat.zero_le _⟩
  · simp [readPresent, readScalar, int64?_ofInt hhigh]
  · rw [Document.IsPlain, Number.ofInt]
    split_ifs with hneg
    · exact ⟨hlow, hneg⟩
    · show i.toNat < 18446744073709551616
      omega

theorem exists_carries_timestamp {t : Instant} (h : Time.HasPlainYear t) (streaming : Bool) :
    ∃ doc, Carries (.scalar .timestamp (some .dateTime) streaming) (.timestamp t) doc := by
  obtain ⟨s, hformat, hread⟩ := Time.exists_format?_dateTime h
  refine ⟨.string s, carries_text (fun path => ?_) (fun path => ?_) (by simp [Value.same])⟩
  · simp [jsonNode, Request.jsonScalar, Node.ofInstant?, hformat]
  · simp [readPresent, readScalar, readInstant, hread]

theorem carries_blob (bytes : Bytes) (format : Option Time.Format) (streaming : Bool) :
    Carries (.scalar .blob format streaming) (.blob bytes)
      (.string (Text.Base64.encode bytes)) := by
  refine carries_text (fun _ => rfl) (fun path => ?_) (by simp [Value.same])
  simp [readPresent, readScalar, readBlob, Text.Base64.decode?_encode]

theorem exists_carries_scalar {kind : Scalar} {format : Option Time.Format} {value : Value}
    {streaming : Bool} (h : IsExact kind format streaming value) :
    ∃ doc, Carries (.scalar kind format streaming) value doc := by
  cases value with
  | string s =>
    obtain rfl : kind = .string := h
    exact ⟨_, carries_text (fun _ => rfl) (fun _ => rfl) (by simp [Value.same])⟩
  | boolean b =>
    obtain rfl : kind = .boolean := h
    exact ⟨_, carries_boolean b format streaming⟩
  | integer i =>
    obtain ⟨rfl, hlow, hhigh⟩ : kind = .integer ∧ _ := h
    exact ⟨_, carries_integer hlow hhigh format streaming⟩
  | timestamp t =>
    obtain ⟨rfl, rfl, ht⟩ : kind = .timestamp ∧ format = some .dateTime ∧ _ := h
    exact exists_carries_timestamp ht streaming
  | blob bytes =>
    obtain rfl : kind = .blob := h
    exact ⟨_, carries_blob bytes format streaming⟩
  | float _ | stream _ | list _ | map _ | «structure» _ _ => exact h.elim

theorem carries_enumeration (e : Plan.Enumeration) (s : String) :
    Carries (.enumeration e) (.string s) (.string s) :=
  carries_text (fun _ => rfl) (fun _ => rfl) (by simp [Value.same])

/-- Items are written one after the other. -/
theorem items_written {item : Target} {items : List Value} {docs : List Document}
    (h : List.Forall₂ (Carries item) items docs) (path : String) (position : Nat) :
    Request.eachItem (fun path value => return [← jsonNode path value item]) path position items =
      .ok (nodesOfItems docs) := by
  induction h generalizing position with
  | nil => rfl
  | cons hdoc _ ih =>
    rw [Request.eachItem, ih, hdoc.written]
    rfl

theorem items_plain {item : Target} {items : List Value} {docs : List Document}
    (h : List.Forall₂ (Carries item) items docs) :
    Document.ArePlainItems docs ∧ Document.depthOfItems docs ≤ Value.depthOfItems items := by
  induction h with
  | nil => exact ⟨trivial, Nat.le_refl _⟩
  | cons hdoc _ ih =>
    refine ⟨⟨hdoc.plain, ih.1⟩, ?_⟩
    have := hdoc.depth
    have := ih.2
    simp only [Document.depthOfItems, Value.depthOfItems]
    omega

/-- A document under the key of an entry is one as which the entry's value is written. -/
abbrev CarriesEntry (target : Target) (entry : String × Value) (member : String × Document) :
    Prop :=
  entry.1 = member.1 ∧ Carries target entry.2 member.2

/-- Entries are written one after the other, under their keys. -/
theorem entries_written {target : Target} {entries : List (String × Value)}
    {docs : List (String × Document)} (h : List.Forall₂ (CarriesEntry target) entries docs)
    (path : String) :
    Request.eachEntry (fun key path value => return [(key, ← jsonNode path value target)]) path
      entries = .ok (nodesOfMembers docs) := by
  induction h with
  | nil => rfl
  | @cons entry member _ _ hdoc _ ih =>
    obtain ⟨hkey, hdoc⟩ := hdoc
    rw [Request.eachEntry, ih, hdoc.written, hkey]
    rfl

theorem entries_plain {target : Target} {entries : List (String × Value)}
    {docs : List (String × Document)} (h : List.Forall₂ (CarriesEntry target) entries docs) :
    Document.ArePlainMembers docs ∧
      Document.depthOfMembers docs ≤ Value.depthOfEntries entries ∧
      Fields.names docs = Fields.names entries := by
  induction h with
  | nil => exact ⟨trivial, Nat.le_refl _, rfl⟩
  | cons hdoc _ ih =>
    obtain ⟨hplain, hdepth, hnames⟩ := ih
    have := hdoc.2.depth
    refine ⟨⟨hdoc.2.plain, hplain⟩, ?_, ?_⟩
    · simp only [Document.depthOfMembers, Value.depthOfEntries]
      omega
    · simp only [Fields.names, List.map_cons, hdoc.1] at hnames ⊢
      rw [hnames]

/-- Entries are read back one after the other, and keep their keys. -/
theorem entries_read {target : Target} {entries : List (String × Value)}
    {docs : List (String × Document)} (h : List.Forall₂ (CarriesEntry target) entries docs)
    (path : String) (before : Fields Value)
    (hnodup : (Fields.names before ++ Fields.names entries).Nodup) :
    ∃ found, readEntries (fun path doc => readValue .json path target doc) path before docs =
        .ok (before ++ found) ∧
      Value.SameInOrder found entries := by
  induction h generalizing before with
  | nil =>
    refine ⟨[], ?_, .nil⟩
    rw [readEntries, List.append_nil]
  | @cons entry member _ _ hdoc _ ih =>
    obtain ⟨hkey, hdoc⟩ := hdoc
    have hnew : member.1 ∉ Fields.names before := by
      intro hmem
      exact (List.nodup_append.1 hnodup).2.2 _ hmem member.1 (by simp [Fields.names, hkey]) rfl
    obtain ⟨first, hfirst, hsame⟩ :=
      exists_readEntries_cons hdoc.toReads hnew path _
    obtain ⟨found, hfound, hsames⟩ := ih (before ++ [(member.1, first)])
      (by simpa [Fields.names, hkey] using hnodup)
    refine ⟨(member.1, first) :: found, ?_, .cons ⟨hkey.symm, hsame⟩ hsames⟩
    rw [hfirst, hfound, List.append_assoc]
    rfl

/-- The documents as which the members of a structure are written, and the members read from them.
-/
structure CarryMembers (members : List (Binding × Target)) (fields : Fields Value)
    (docs : Fields Document) : Prop where
  written : ∀ path, jsonMembers path fields members = .ok (nodesOfMembers docs)
  plain : Document.ArePlainMembers docs
  depth : Document.depthOfMembers docs ≤ Value.depthOfEntries fields
  names : (Fields.names docs).Sublist (members.map (·.1.wireName))
  read : ReadMembers .json members fields docs

theorem carryMembers_cons_absent {binding : Binding} {target : Target}
    {rest : List (Binding × Target)} {fields : Fields Value} {docs : Fields Document}
    (hbody : binding.location = .body) (hnew : binding.wireName ∉ rest.map (·.1.wireName))
    (habsent : Fields.get? fields binding.name = none) (h : CarryMembers rest fields docs) :
    CarryMembers ((binding, target) :: rest) fields docs := by
  have hnone : Fields.get? docs binding.wireName = none :=
    Fields.get?_eq_none.2 fun hmem => hnew (h.names.subset hmem)
  refine ⟨fun path => ?_, h.plain, h.depth, h.names.cons _,
    h.read.absent (by simp) hbody habsent hnone⟩
  rw [jsonMembers, hbody, habsent]
  exact h.written path

theorem carryMembers_cons_present {binding : Binding} {target : Target}
    {rest : List (Binding × Target)} {fields : Fields Value} {docs : Fields Document}
    {value : Value} {doc : Document}
    (hbody : binding.location = .body) (hnew : binding.wireName ∉ rest.map (·.1.wireName))
    (hvalue : Fields.get? fields binding.name = some value) (hdoc : Carries target value doc)
    (h : CarryMembers rest fields docs) :
    CarryMembers ((binding, target) :: rest) fields ((binding.wireName, doc) :: docs) := by
  refine ⟨fun path => ?_, ⟨hdoc.plain, h.plain⟩, ?_, h.names.cons_cons _,
    h.read.present (by simp) hbody hnew hvalue hdoc.toReads⟩
  · rw [jsonMembers, hbody, hvalue]
    simp only [hdoc.written, h.written]
    rfl
  · have hle := Value.depth_le_depthOfEntries (Fields.mem_of_get? hvalue)
    have := hdoc.depth
    have := h.depth
    simp only [Document.depthOfMembers]
    dsimp only at hle
    omega

theorem exists_carries_list {shape : String} {item : Target} {itemName : Option String}
    {flattened : Bool} {items : List Value} (h : ∀ value ∈ items, ∃ doc, Carries item value doc) :
    ∃ doc, Carries (.list shape item itemName flattened) (.list items) doc := by
  obtain ⟨docs, hdocs⟩ := exists_forall₂ h
  obtain ⟨hplain, hdepth⟩ := items_plain hdocs
  refine ⟨.array docs, ⟨rfl, fun path => ?_⟩, fun path => ?_, hplain, ?_⟩
  · obtain ⟨found, hfound, hsame⟩ := exists_readItems (hdocs.imp fun _ _ h => h.toReads) path 0
    exact ⟨.list found, readPresent_list rfl hfound, by
      rw [Value.same, Value.sameItems_of_forall₂ hsame]⟩
  · rw [jsonNode, items_written hdocs]
    rfl
  · simpa [Document.depth, Value.depth] using hdepth

theorem exists_carries_map {shape : String} {key target : Target}
    {keyName valueName : Option String} {flattened : Bool} {entries : List (String × Value)}
    (hnodup : (Fields.names entries).Nodup)
    (h : ∀ entry ∈ entries, ∃ doc, Carries target entry.2 doc) :
    ∃ doc, Carries (.map shape key target keyName valueName flattened) (.map entries) doc := by
  obtain ⟨docs, hdocs⟩ : ∃ docs, List.Forall₂ (CarriesEntry target) entries docs := by
    refine exists_forall₂ fun entry hmem => ?_
    obtain ⟨doc, hdoc⟩ := h entry hmem
    exact ⟨(entry.1, doc), rfl, hdoc⟩
  obtain ⟨hplain, hdepth, hnames⟩ := entries_plain hdocs
  refine ⟨.object docs, ⟨rfl, fun path => ?_⟩, fun path => ?_, ⟨hnames ▸ hnodup, hplain⟩, ?_⟩
  · obtain ⟨found, hfound, hsame⟩ :=
      entries_read hdocs path [] (by simpa [Fields.names] using hnodup)
    refine ⟨.map found, readPresent_map_of_object (by decide) hfound, ?_⟩
    · simp [Value.same, hsame.sameEntries hnodup, List.Forall₂.length_eq hsame]
  · rw [jsonNode, entries_written hdocs]
    rfl
  · simpa [Document.depth, Value.depth] using hdepth

theorem carries_structure {heading : Heading} {members : List (Binding × Target)}
    {fields docs : Fields _} (hin : InBody members) (hnodup : (Fields.names fields).Nodup)
    (hknown : ∀ name ∈ Fields.names fields, ∃ member ∈ members, member.1.name = name)
    (h : CarryMembers members fields docs) :
    Carries (.structure heading members) (.structure heading.shape fields) (.object docs) := by
  refine ⟨⟨rfl, fun path => ?_⟩, fun path => ?_, ⟨h.names.nodup hin.wireNames, h.plain⟩, ?_⟩
  · obtain ⟨found, hfound, hnames, hsame⟩ := h.read path docs fun _ _ => rfl
    exact ⟨.structure heading.shape found, readPresent_structure rfl hfound,
      Value.same_structure hin hnodup hknown hnames hsame heading.shape⟩
  · rw [jsonNode, h.written]
    rfl
  · simpa [Document.depth, Value.depth] using h.depth

mutual

/-- Every value that fits a target is read back from a document as which it is written. -/
theorem exists_carries (target : Target) (value : Value) (hplace : target.EachStructure InBody)
    (hfits : value.Fits IsExact target) : ∃ doc, Carries target value doc := by
  cases target with
  | scalar kind format streaming => exact exists_carries_scalar hfits
  | enumeration e =>
    obtain ⟨s, rfl⟩ := hfits
    exact ⟨_, carries_enumeration e s⟩
  | list shape item itemName flattened =>
    obtain ⟨items, rfl, hitems⟩ := hfits
    exact exists_carries_list fun value hmem => exists_carries item value hplace (hitems value hmem)
  | map shape key target keyName valueName flattened =>
    obtain ⟨entries, rfl, hnodup, hentries⟩ := hfits
    exact exists_carries_map hnodup fun entry hmem =>
      exists_carries target entry.2 hplace (hentries entry hmem)
  | «structure» heading members =>
    obtain ⟨fields, rfl, hnodup, hknown, hmembers⟩ := hfits
    obtain ⟨docs, hdocs⟩ := exists_carryMembers members fields hplace.1 hplace.2 hmembers
    exact ⟨.object docs, carries_structure hplace.1 hnodup hknown hdocs⟩

/-- The members that are present are read back from the documents as which they are written. -/
theorem exists_carryMembers (members : List (Binding × Target)) (fields : Fields Value)
    (hin : InBody members) (hplace : Target.EachMember InBody members)
    (hfits : Value.FitMembers IsExact fields members) :
    ∃ docs, CarryMembers members fields docs := by
  match members with
  | [] =>
    exact ⟨[], fun _ => rfl, trivial, Nat.zero_le _, .slnil, readMembers_nil _ _ _⟩
  | (binding, target) :: rest =>
    obtain ⟨hinRest, hnew⟩ := hin.tail
    have hbody : binding.location = .body := hin.body (binding, target) List.mem_cons_self
    obtain ⟨docs, hdocs⟩ := exists_carryMembers rest fields hinRest hplace.2 hfits.2
    cases hvalue : Fields.get? fields binding.name with
    | none => exact ⟨docs, carryMembers_cons_absent hbody hnew hvalue hdocs⟩
    | some value =>
      obtain ⟨doc, hdoc⟩ := exists_carries target value hplace.1 (hfits.1 value hvalue)
      exact ⟨_, carryMembers_cons_present hbody hnew hvalue hdoc hdocs⟩

end

end ServiceBindings.Json
