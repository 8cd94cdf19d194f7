import ServiceBindings.Generate.Memory
import ServiceBindings.Proofs.Generate.Compiled
import ServiceBindings.Proofs.Model.Texts
import ServiceBindings.Proofs.Response.Members
import ServiceBindings.Proofs.Text.Utf8

/-! What is read from a response fits the output, wherever in the response it comes from. -/
namespace ServiceBindings
open Plan (Binding Call HaveOwnNames Heading Layout Target)

/-- Data without parts of a kind, as responses give them: bytes are in memory even where the target
asks for a source. -/
def Value.IsReceived (kind : Scalar) (format : Option Time.Format) (_ : Bool) (value : Value) :
    Prop :=
  value.IsOfKind kind format false

theorem readBlob_of_message {origin : Origin} (horigin : origin ≠ .caller) (path s : String)
    (streaming : Bool) : readBlob origin path streaming s = readBlob origin path false s := by
  cases origin with
  | caller => exact absurd rfl horigin
  | json | xml => rfl

/-- In messages, streaming makes no difference to what is read. -/
theorem readScalar_of_message {origin : Origin} (horigin : origin ≠ .caller) (kind : Scalar)
    (format : Option Time.Format) (streaming : Bool) (path : String) (doc : Document) :
    readScalar origin kind format streaming path doc =
      readScalar origin kind format false path doc := by
  cases kind with
  | blob =>
    cases doc with
    | string s => exact readBlob_of_message horigin path s streaming
    | _ => rfl
  | _ => cases doc <;> rfl

theorem readsData_isReceived {origin : Origin} (horigin : origin ≠ .caller) :
    ReadsData origin Value.IsReceived := by
  intro kind format streaming path doc value h
  rw [readScalar_of_message horigin] at h
  exact isOfKind_of_readScalar h

section
variable {leaf : Scalar → Option Time.Format → Bool → Value → Prop}

/-- A record keeps its fit when a member gets a value that fits it. -/
theorem Plan.HaveOwnNames.fits_set {layout : Layout} (hnames : HaveOwnNames layout.members)
    {record : Record} (h : record.toValue.Fits leaf layout.toTarget) {member : Binding × Target}
    (hmem : member ∈ layout.members) {value : Value} (hvalue : value.Fits leaf member.2) :
    (record.set member.1.name value).toValue.Fits leaf layout.toTarget := by
  obtain ⟨fields, heq, hnodup, hknown, hmembers⟩ := h
  obtain ⟨hshape, rfl⟩ := Value.structure.inj heq
  refine ⟨Fields.set member.1.name value record.fields, by rw [← hshape]; rfl,
    Fields.nodup_names_set hnodup _ _, fun name hname => ?_,
    Value.fitMembers_iff.2 fun other hother found hfound => ?_⟩
  · obtain ⟨entry, hentry, rfl⟩ := List.mem_map.1 hname
    rcases Fields.mem_of_mem_set hentry with rfl | hentry
    · exact ⟨member, hmem, rfl⟩
    · exact hknown _ (List.mem_map_of_mem hentry)
  · rw [Fields.get?_set] at hfound
    split_ifs at hfound with hname
    · obtain rfl := Option.some.inj hfound
      rwa [hnames.eq_of_name hother hmem hname]
    · exact Value.fitMembers_iff.1 hmembers other hother found hfound

theorem fits_without_members (layout : Layout) :
    (Value.structure layout.heading.shape []).Fits leaf layout.toTarget :=
  ⟨[], rfl, List.nodup_nil, by simp [Fields.names],
    Value.fitMembers_iff.2 fun _ _ _ hfound => by cases hfound⟩

end

/-- A member can make up a whole body: it is a structure, a text or bytes. -/
def Plan.Target.MakesBody : Target → Prop
  | .structure _ _ => True
  | .scalar kind _ _ => kind = .string ∨ kind = .blob
  | _ => False

/-- A member can hold a status. -/
def Plan.Target.HoldsStatus : Target → Prop
  | .scalar kind _ _ => kind = .integer
  | _ => False

namespace Response
open Generate (Memory Run)

section
variable {call : Call} {layout : Layout} {response : Http.Response}

theorem fits_of_ofDocument (hnames : layout.toTarget.EachStructure HaveOwnNames)
    (houtput : call.output = some layout) {doc : Document} {record : Record}
    (h : ofDocument call doc = .ok record) :
    record.toValue.Fits Value.IsReceived layout.toTarget := by
  have hleaf := readsData_isReceived (originOf_ne_caller call.service.protocol)
  rw [ofDocument, houtput] at h
  cases hwrapper : call.operation.resultWrapper with
  | none =>
    rw [hwrapper] at h
    exact hleaf.fits_of_readRecord hnames (mapError_eq_ok.1 h)
  | some wrapper =>
    rw [hwrapper] at h
    dsimp only at h
    split at h
    · exact hleaf.fits_of_readRecord hnames (mapError_eq_ok.1 h)
    · obtain rfl := Except.ok.inj h
      exact fits_without_members layout

theorem fits_of_payloadValue {origin : Origin} (horigin : origin ≠ .caller) {binding : Binding}
    {target : Target} (hnames : target.EachStructure HaveOwnNames) (hbody : target.MakesBody)
    {value : Value} (h : payloadValue origin binding target response = .ok (some value)) :
    value.Fits Value.IsReceived target := by
  cases target with
  | «structure» heading members =>
    rw [payloadValue] at h
    split_ifs at h with hempty
    · cases h
    · obtain ⟨doc, -, h⟩ := bind_eq_ok.1 h
      obtain ⟨record, hrecord, h⟩ := bind_eq_ok.1 h
      obtain rfl := Option.some.inj (Except.ok.inj h)
      have hnames : (Layout.mk heading members).toTarget.EachStructure HaveOwnNames := hnames
      exact (readsData_isReceived horigin).fits_of_readRecord hnames (mapError_eq_ok.1 hrecord)
  | scalar kind format streaming =>
    rcases hbody with rfl | rfl
    · obtain rfl := Option.some.inj (Except.ok.inj h)
      rfl
    · obtain rfl := Option.some.inj (Except.ok.inj h)
      rfl
  | enumeration | list | map => exact hbody.elim

theorem fits_of_bodyRecord (hnames : layout.toTarget.EachStructure HaveOwnNames)
    (houtput : call.output = some layout)
    (hpayload : ∀ member ∈ layout.payload?, member.2.MakesBody) {record : Record}
    (h : bodyRecord call layout response = .ok record) :
    record.toValue.Fits Value.IsReceived layout.toTarget := by
  have hempty : (emptyRecord (some layout)).toValue.Fits Value.IsReceived layout.toTarget :=
    fits_without_members layout
  unfold bodyRecord at h
  split at h
  · next binding target hfound =>
    have hmem : (binding, target) ∈ layout.members := List.mem_of_find?_eq_some hfound
    obtain ⟨value, hvalue, h⟩ := bind_eq_ok.1 h
    cases value with
    | none =>
      obtain rfl := Except.ok.inj h
      exact hempty
    | some value =>
      obtain rfl := Except.ok.inj h
      exact hnames.1.fits_set hempty hmem (fits_of_payloadValue (originOf_ne_caller _)
        (hnames.2.of_mem hmem) (hpayload _ hfound) hvalue)
  · split_ifs at h
    · obtain ⟨doc, -, h⟩ := bind_eq_ok.1 h
      exact fits_of_ofDocument hnames houtput h
    · obtain rfl := Except.ok.inj h
      exact hempty

/-- What status and headers give a member fits it. -/
theorem fits_of_memberValue {member : Binding × Target}
    (hnames : member.2.EachStructure HaveOwnNames)
    (hstatus : member.1.location = .statusCode → member.2.HoldsStatus) {value : Value}
    (h : memberValue response member = .ok (some value)) :
    value.Fits Value.IsReceived member.2 := by
  unfold memberValue at h
  split_ifs at h with hlocation
  · obtain rfl := Option.some.inj (Except.ok.inj h)
    have htarget := hstatus hlocation
    cases htarget' : member.2 with
    | scalar kind format streaming =>
      rw [htarget'] at htarget
      exact htarget
    | _ =>
      rw [htarget'] at htarget
      exact htarget.elim
  · split at h
    · cases h
    · exact (readsData_isReceived (by decide)).fits_of_readPresent member.2 hnames
        (readPresent_of_step (mapError_eq_ok.1 h))

/-- Each member that status and headers add keeps the fit of the record. -/
theorem fits_of_addMembers (hnames : layout.toTarget.EachStructure HaveOwnNames)
    (hstatus : ∀ member ∈ layout.members, member.1.location = .statusCode → member.2.HoldsStatus)
    {members : List (Binding × Target)} (hsub : members ⊆ layout.members) {before record : Record}
    (hbefore : before.toValue.Fits Value.IsReceived layout.toTarget)
    (h : addMembers response before members = .ok record) :
    record.toValue.Fits Value.IsReceived layout.toTarget := by
  induction members generalizing before with
  | nil =>
    obtain rfl := Except.ok.inj h
    exact hbefore
  | cons member rest ih =>
    obtain ⟨hmem, hrest⟩ := List.cons_subset.1 hsub
    rw [addMembers_cons] at h
    obtain ⟨value, hvalue, h⟩ := bind_eq_ok.1 h
    refine ih hrest ?_ h
    cases value with
    | none => exact hbefore
    | some value =>
      exact hnames.1.fits_set hbefore hmem
        (fits_of_memberValue (hnames.2.of_mem hmem) (hstatus _ hmem) hvalue)

/-- What is read from a response carries the name of the output's shape, has no members but those of
the output, and is of the kinds that the output asks for throughout, when what makes up the whole
body can do so and statuses go to integers. -/
theorem read_fits (hcall : call.Compiled) (houtput : call.output = some layout)
    (hpayload : ∀ member ∈ layout.payload?, member.2.MakesBody)
    (hstatus : ∀ member ∈ layout.members, member.1.location = .statusCode → member.2.HoldsStatus)
    {record : Record} (h : read call response = .ok record) :
    record.toValue.Fits Value.IsReceived layout.toTarget := by
  have hnames := hcall.output houtput
  rw [read_eq_bind houtput] at h
  obtain ⟨body, hbody, h⟩ := bind_eq_ok.1 h
  exact fits_of_addMembers hnames hstatus (List.Subset.refl _)
    (fits_of_bodyRecord hnames houtput hpayload hbody) h

end

/-- The description of a service with three outputs: one with members of many kinds, and two whose
members stand under one name. -/
def parcelsDocument : Document := .object [
  ("metadata", .object [("protocol", .string "rest-xml"), ("apiVersion", .string "1")]),
  ("operations", .object [
    ("Fetch", .object [("input", .object [("shape", .string "Owner")]),
      ("output", .object [("shape", .string "Parcel")])]),
    ("Twin", .object [("input", .object [("shape", .string "Owner")]),
      ("output", .object [("shape", .string "Twin")])]),
    ("Pair", .object [("input", .object [("shape", .string "Owner")]),
      ("output", .object [("shape", .string "Pair")])])]),
  ("shapes", .object [
    ("Parcel", .object [("type", .string "structure"), ("members", .object [
      ("status", .object [("shape", .string "N"), ("location", .string "statusCode")]),
      ("owner", .object [("shape", .string "Owner")]),
      ("tags", .object [("shape", .string "L")])])]),
    ("Twin", .object [("type", .string "structure"), ("members", .object [
      ("owner", .object [("shape", .string "Owner"), ("locationName", .string "x")]),
      ("tags", .object [("shape", .string "L"), ("locationName", .string "x")])])]),
    ("Pair", .object [("type", .string "structure"), ("members", .object [
      ("owner", .object [("shape", .string "Owner"), ("locationName", .string "x")]),
      ("text", .object [("shape", .string "S"), ("locationName", .string "x")])])]),
    ("Owner", .object [("type", .string "structure"), ("members", .object [
      ("name", .object [("shape", .string "S")])])]),
    ("L", .object [("type", .string "list"), ("member", .object [("shape", .string "S")])]),
    ("N", .object [("type", .string "integer")]),
    ("S", .object [("type", .string "string")])])]

/-- The model that `parcelsDocument` describes. -/
def parcelsModel : ServiceModel where
  service := ⟨"Service", "1", .xml, none, none, none⟩
  shapes := [
    ("Parcel", ⟨"Parcel", .structure ⟨[
      ⟨"status", "N", false, .statusCode, none, false, none, false, none⟩,
      ⟨"owner", "Owner", false, .body, none, false, none, false, none⟩,
      ⟨"tags", "L", false, .body, none, false, none, false, none⟩], none⟩,
      none, none, none, false⟩),
    ("Twin", ⟨"Twin", .structure ⟨[
      ⟨"owner", "Owner", false, .body, some "x", false, none, false, none⟩,
      ⟨"tags", "L", false, .body, some "x", false, none, false, none⟩], none⟩,
      none, none, none, false⟩),
    ("Pair", ⟨"Pair", .structure ⟨[
      ⟨"owner", "Owner", false, .body, some "x", false, none, false, none⟩,
      ⟨"text", "S", false, .body, some "x", false, none, false, none⟩], none⟩,
      none, none, none, false⟩),
    ("Owner", ⟨"Owner", .structure ⟨[
      ⟨"name", "S", false, .body, none, false, none, false, none⟩], none⟩,
      none, none, none, false⟩),
    ("L", ⟨"L", .list ⟨"S", none⟩ false, none, none, none, false⟩),
    ("N", ⟨"N", .scalar .integer, none, none, none, false⟩),
    ("S", ⟨"S", .scalar .string, none, none, none, false⟩)]
  operations := [("Fetch", ⟨"Fetch", "Owner", some "Parcel", "POST", "/", none, none⟩),
    ("Twin", ⟨"Twin", "Owner", some "Twin", "POST", "/", none, none⟩),
    ("Pair", ⟨"Pair", "Owner", some "Pair", "POST", "/", none, none⟩)]

set_option maxRecDepth 16000 in
theorem load_parcelsDocument :
    ServiceModel.load (Json.Node.ofDocument parcelsDocument).text = .ok parcelsModel :=
  ServiceModel.load_text (by decide) rfl

def ownerLayout : Layout where
  heading := ⟨"Owner", ⟨.input, "Owner"⟩, none, none⟩
  members := [
    (⟨"name", "name", "name", false, .body, false, none⟩, .scalar .string none false)]

def parcelsCall (name : String) (output : Layout) : Call where
  service := parcelsModel.service
  operation := ⟨name, "Owner", some output.heading.shape, "POST", "/", none, none⟩
  ident := ⟨.client, Naming.memberName name⟩
  input := ownerLayout
  output := some output
  template := ⟨[.literal "/"], none⟩

def parcelLayout : Layout where
  heading := ⟨"Parcel", ⟨.output, "Parcel"⟩, none, none⟩
  members := [
    (⟨"status", "status", "status", false, .statusCode, false, none⟩, .scalar .integer none false),
    (⟨"owner", "owner", "owner", false, .body, false, none⟩, ownerLayout.toTarget),
    (⟨"tags", "tags", "tags", false, .body, false, none⟩,
      .list "L" (.scalar .string none false) none false)]

theorem compiled_fetch : (parcelsCall "Fetch" parcelLayout).Compiled :=
  ⟨Memory, inferInstance, Run.start ⟨parcelsModel, {}⟩ {}, "Fetch",
    ⟨_, _, [], .load load_parcelsDocument, rfl⟩, rfl⟩

def parcelText : String :=
  "<Parcel><owner><name>a</name></owner><tags><member>b</member></tags></Parcel>"

theorem decode_parcelText : decode .xml (Text.utf8 parcelText) = .ok (.object [
    ("owner", .object [("name", .string "a")]), ("tags", .object [("member", .string "b")])]) := by
  have hscan : Xml.Token.scan parcelText = ([
      .elementStart ⟨"", "Parcel"⟩, .tagEnd, .elementStart ⟨"", "owner"⟩, .tagEnd,
      .elementStart ⟨"", "name"⟩, .tagEnd, .text "a", .elementEnd ⟨"", "name"⟩,
      .elementEnd ⟨"", "owner"⟩, .elementStart ⟨"", "tags"⟩, .tagEnd,
      .elementStart ⟨"", "member"⟩, .tagEnd, .text "b", .elementEnd ⟨"", "member"⟩,
      .elementEnd ⟨"", "tags"⟩, .elementEnd ⟨"", "Parcel"⟩], true) := by decide +kernel
  have hblank : parcelText.toList.all Text.isBlank = false := by decide +kernel
  rw [decode, Xml.read, Text.ofUtf8?_utf8]
  dsimp only
  rw [hblank, hscan]
  rfl

theorem read_parcel : read (parcelsCall "Fetch" parcelLayout) ⟨200, [], Text.utf8 parcelText⟩ =
    .ok ⟨"Parcel", [("owner", .structure "Owner" [("name", .string "a")]),
      ("tags", .list [.string "b"]), ("status", .integer 200)]⟩ := by
  rw [read_eq_bind rfl]
  show (decodeBody .xml ⟨200, [], Text.utf8 parcelText⟩ >>= _) >>= _ = _
  rw [decodeBody, decode_parcelText]
  rfl

/-- A parcel is read with its members from the body and the status, each of its kind. -/
theorem parcel_fits : (parcelsCall "Fetch" parcelLayout).Compiled ∧
    ∃ record, read (parcelsCall "Fetch" parcelLayout) ⟨200, [], Text.utf8 parcelText⟩ = .ok record ∧
      record.toValue.Fits Value.IsReceived parcelLayout.toTarget := by
  have hpayload : ∀ member ∈ parcelLayout.payload?, member.2.MakesBody := by
    rintro member ⟨⟩
  have hstatus : ∀ member ∈ parcelLayout.members, member.1.location = .statusCode →
      member.2.HoldsStatus := by
    intro member hmem hlocation
    simp only [parcelLayout, List.mem_cons, List.not_mem_nil, or_false] at hmem
    obtain rfl | rfl | rfl := hmem
    · rfl
    · cases hlocation
    · cases hlocation
  exact ⟨compiled_fetch, _, read_parcel,
    read_fits compiled_fetch rfl hpayload hstatus read_parcel⟩

end Response
end ServiceBindings
