import ServiceBindings.Proofs.Decimal.Floats
import ServiceBindings.Proofs.Generate.Compiled
import ServiceBindings.Proofs.Generate.Emission
import ServiceBindings.Proofs.Json.Values
import ServiceBindings.Proofs.Request.Order
import ServiceBindings.Proofs.Text.Utf8
import ServiceBindings.Proofs.Time.Forms
import ServiceBindings.Proofs.Value.Congruence

/-! Inputs that are given as documents. A record may be replaced by a document with its members
under their own names: both are accepted as the same input, or refused for the same fault. -/
namespace ServiceBindings
open Generate (Memory Run bodyMember shapeReference)
open Plan (Binding Call HaveOwnNames Heading Layout Target)
open Value (Reordered)

namespace Value

mutual

/-- The document that a caller may give in place of a value: instants as date and time, and bytes
as the text that they encode. None stands for bytes of a source or bytes that are no text. -/
def document? : Value → Option Document
  | .string s => some (.string s)
  | .boolean b => some (.bool b)
  | .integer i => some (.number (.ofInt i))
  | .float x => some (.number (.float x))
  | .timestamp t => (Time.format? t .dateTime).map .string
  | .blob bytes => (Text.ofUtf8? bytes).map .string
  | .stream _ => none
  | .list items => (itemDocuments? items).map .array
  | .map entries => (entryDocuments? entries).map .object
  | .structure _ fields => (entryDocuments? fields).map .object

def itemDocuments? : List Value → Option (List Document)
  | [] => some []
  | item :: rest => do
    let doc ← item.document?
    return doc :: (← itemDocuments? rest)

def entryDocuments? : List (String × Value) → Option (List (String × Document))
  | [] => some []
  | (name, value) :: rest => do
    let doc ← value.document?
    return (name, doc) :: (← entryDocuments? rest)

end

/-- Data without parts that a caller may give in documents as well: integers of 64 bits, floats that
are numbers, instants of plain years, and bytes of texts where nothing is streamed. -/
def IsGiven (kind : Scalar) (_ : Option Time.Format) (streaming : Bool) : Value → Prop
  | .string _ => kind = .string
  | .boolean _ => kind = .boolean
  | .integer i => kind = .integer ∧ -Text.int64Bound ≤ i ∧ i < Text.int64Bound
  | .float x => kind = .float ∧ x.isNaN = false
  | .timestamp t => kind = .timestamp ∧ Time.HasPlainYear t
  | .blob bytes => kind = .blob ∧ streaming = false ∧ ∃ s, bytes = Text.utf8 s
  | _ => False

/-- Values are the same, and their items and entries have the same order. -/
structure Matches (a b : Value) : Prop where
  reordered : Reordered a b
  same : a.same b = true

theorem matches_self {value : Value} (h : value.same value = true) : Matches value value :=
  ⟨.refl value, h⟩

theorem matches_list {items others : List Value} (h : List.Forall₂ Matches items others) :
    Matches (.list items) (.list others) := by
  refine ⟨.list (h.imp fun _ _ hab => hab.reordered), ?_⟩
  rw [Value.same, sameItems_of_forall₂ (h.imp fun _ _ hab => hab.same)]

theorem matches_map {entries others : List (String × Value)}
    (h : List.Forall₂ (fun a b => a.1 = b.1 ∧ Matches a.2 b.2) entries others)
    (hnodup : (Fields.names others).Nodup) : Matches (.map entries) (.map others) := by
  have hsame : SameInOrder entries others := h.imp fun _ _ hab => ⟨hab.1, hab.2.same⟩
  refine ⟨.map (map_eq_map_of_forall₂ h fun _ _ hab => hab.1.symm).symm ?_, ?_⟩
  · exact List.forall₂_map_left_iff.2 (List.forall₂_map_right_iff.2
      (h.imp fun _ _ hab => hab.2.reordered))
  · simp [Value.same, hsame.sameEntries hnodup, List.Forall₂.length_eq hsame]

/-- Structures match when the same members are present and match. -/
theorem matches_structure {fields found : Fields Value} (hnodup : (Fields.names fields).Nodup)
    (hfound : (Fields.names found).Nodup)
    (hnames : ∀ name, name ∈ Fields.names found ↔ name ∈ Fields.names fields)
    (hsame : ∀ entry ∈ found, ∃ value, Fields.get? fields entry.1 = some value ∧
      Matches entry.2 value) (shape : String) :
    Matches (.structure shape found) (.structure shape fields) := by
  refine ⟨.structure shape fun name => ?_, ?_⟩
  · cases hget : Fields.get? found name with
    | none =>
      rw [Fields.get?_eq_none, hnames] at hget
      rw [Fields.get?_eq_none.2 hget]
      exact .none
    | some value =>
      obtain ⟨other, hother, hmatches⟩ := hsame _ (Fields.mem_of_get? hget)
      rw [hother]
      exact .some hmatches.reordered
  · refine same_structure_of_names hnodup hfound hnames (fun entry hmem => ?_) shape
    obtain ⟨value, hvalue, hmatches⟩ := hsame entry hmem
    exact ⟨value, hvalue, hmatches.same⟩

end Value
open Value (Matches matches_self)

/-- A document is given in place of a value, and a value that matches is read from it. -/
structure Gives (target : Target) (value : Value) (doc : Document) : Prop where
  document : value.document? = some doc
  present : doc.isNull = false
  read : ∃ found, (∀ path, readPresent .caller path doc target = .ok found) ∧ Matches found value

section Scalars
variable {kind : Scalar} {format : Option Time.Format} {streaming : Bool}

theorem gives_self {target : Target} {value : Value} {doc : Document}
    (hdoc : value.document? = some doc) (hpresent : doc.isNull = false)
    (hread : ∀ path, readPresent .caller path doc target = .ok value)
    (hsame : value.same value = true) : Gives target value doc :=
  ⟨hdoc, hpresent, value, hread, matches_self hsame⟩

theorem exists_gives_timestamp {t : Instant} (h : Time.HasPlainYear t)
    (format : Option Time.Format) (streaming : Bool) :
    ∃ doc, Gives (.scalar .timestamp format streaming) (.timestamp t) doc := by
  obtain ⟨s, hs, hread⟩ := Time.exists_format?_dateTime_of_any h
  refine ⟨.string s, gives_self (by rw [Value.document?, hs]; rfl) rfl (fun path => ?_)
    (by simp [Value.same])⟩
  show readInstant path format s = _
  rw [readInstant, hread]

theorem exists_gives_scalar {value : Value} (h : value.IsGiven kind format streaming) :
    ∃ doc, Gives (.scalar kind format streaming) value doc := by
  cases value with
  | string s =>
    obtain rfl : kind = .string := h
    exact ⟨_, gives_self rfl rfl (fun _ => rfl) (by simp [Value.same])⟩
  | boolean b =>
    obtain rfl : kind = .boolean := h
    exact ⟨_, gives_self rfl rfl (fun _ => rfl) (by simp [Value.same])⟩
  | integer i =>
    obtain ⟨rfl, -, hhigh⟩ : kind = .integer ∧ _ := h
    refine ⟨_, gives_self rfl rfl (fun path => ?_) (by simp [Value.same])⟩
    simp [readPresent, readScalar, Json.int64?_ofInt hhigh]
  | float x =>
    obtain ⟨rfl, hx⟩ : kind = .float ∧ _ := h
    exact ⟨_, gives_self rfl rfl (fun _ => rfl) (Decimal.beq_self_of_isNaN hx)⟩
  | timestamp t =>
    obtain ⟨rfl, ht⟩ : kind = .timestamp ∧ _ := h
    exact exists_gives_timestamp ht format streaming
  | blob bytes =>
    obtain ⟨rfl, rfl, s, rfl⟩ : kind = .blob ∧ streaming = false ∧ _ := h
    exact ⟨.string s, gives_self (by rw [Value.document?, Text.ofUtf8?_utf8]; rfl) rfl
      (fun _ => rfl) (by simp [Value.same])⟩
  | stream _ | list _ | map _ | «structure» _ _ => exact h.elim

end Scalars

section Parts
variable {target item : Target}

theorem itemDocuments?_of_forall₂ {items : List Value} {docs : List Document}
    (h : List.Forall₂ (fun value doc => value.document? = some doc) items docs) :
    Value.itemDocuments? items = some docs := by
  induction h with
  | nil => rfl
  | cons hdoc _ ih =>
    rw [Value.itemDocuments?, hdoc, ih]
    rfl

theorem entryDocuments?_of_forall₂ {entries : List (String × Value)}
    {docs : List (String × Document)}
    (h : List.Forall₂ (fun entry doc => entry.1 = doc.1 ∧ entry.2.document? = some doc.2)
      entries docs) : Value.entryDocuments? entries = some docs := by
  induction h with
  | nil => rfl
  | @cons entry doc _ _ hdoc _ ih =>
    obtain ⟨name, value⟩ := entry
    obtain ⟨rfl, hdoc⟩ : name = doc.1 ∧ value.document? = some doc.2 := hdoc
    rw [Value.entryDocuments?, hdoc, ih]
    rfl

theorem Gives.readValue {value : Value} {doc : Document} (h : Gives target value doc) :
    ∃ found, (∀ path, readValue .caller path target doc = .ok (some found)) ∧
      Matches found value := by
  obtain ⟨found, hfound, hmatches⟩ := h.read
  refine ⟨found, fun path => ?_, hmatches⟩
  rw [ServiceBindings.readValue, h.present, hfound]
  rfl

theorem exists_gives_list {shape : String} {itemName : Option String} {flattened : Bool}
    {items : List Value} (h : ∀ value ∈ items, ∃ doc, Gives item value doc) :
    ∃ doc, Gives (.list shape item itemName flattened) (.list items) doc := by
  obtain ⟨docs, hdocs⟩ := exists_forall₂ h
  obtain ⟨found, hfound, hmatches⟩ := exists_between_forall₂ hdocs fun _ _ hdoc => hdoc.readValue
  refine ⟨.array docs, ?_, rfl, .list found, fun path => ?_, Value.matches_list hmatches⟩
  · rw [Value.document?, itemDocuments?_of_forall₂ (hdocs.imp fun _ _ hdoc => hdoc.document)]
    rfl
  · exact readPresent_list rfl (readItems_of_forall₂ hfound path 0)

/-- A document under the name of an entry is given in place of the entry's value. -/
abbrev GivesEntry (target : Target) (entry : String × Value) (member : String × Document) : Prop :=
  entry.1 = member.1 ∧ Gives target entry.2 member.2

theorem GivesEntry.readValue {entry : String × Value} {member : String × Document}
    (h : GivesEntry target entry member) :
    ∃ found : String × Value, (member.1 = found.1 ∧
        ∀ path, ServiceBindings.readValue .caller path target member.2 = .ok (some found.2)) ∧
      found.1 = entry.1 ∧ Matches found.2 entry.2 := by
  obtain ⟨value, hvalue, hmatches⟩ := h.2.readValue
  exact ⟨(entry.1, value), ⟨h.1.symm, hvalue⟩, rfl, hmatches⟩

theorem exists_gives_map {shape : String} {key : Target} {keyName valueName : Option String}
    {flattened : Bool} {entries : List (String × Value)} (hnodup : (Fields.names entries).Nodup)
    (h : ∀ entry ∈ entries, ∃ doc, Gives target entry.2 doc) :
    ∃ doc, Gives (.map shape key target keyName valueName flattened) (.map entries) doc := by
  obtain ⟨docs, hdocs⟩ : ∃ docs, List.Forall₂ (GivesEntry target) entries docs := by
    refine exists_forall₂ fun entry hmem => ?_
    obtain ⟨doc, hdoc⟩ := h entry hmem
    exact ⟨(entry.1, doc), rfl, hdoc⟩
  obtain ⟨found, hfound, hmatches⟩ := exists_between_forall₂ hdocs fun _ _ hdoc =>
    GivesEntry.readValue hdoc
  have hnames : Fields.names found = Fields.names entries :=
    (map_eq_map_of_forall₂ hmatches fun _ _ hab => hab.1.symm).symm
  refine ⟨.object docs, ?_, rfl, .map found, fun path => ?_, Value.matches_map hmatches hnodup⟩
  · rw [Value.document?, entryDocuments?_of_forall₂
      (hdocs.imp fun _ _ hdoc => ⟨hdoc.1, hdoc.2.document⟩)]
    rfl
  · have hnew : (Fields.names ([] ++ found)).Nodup := hnames ▸ hnodup
    exact readPresent_map_of_object (by decide) (readEntries_of_forall₂ hfound hnew path)

/-- Members are read from the documents that are given in their place, in the order in which they
are declared. -/
theorem exists_readMembers {fields : Fields Value} {docs : Fields Document}
    {members : List (Binding × Target)}
    (h : ∀ member ∈ members, Option.Rel (Gives member.2) (Fields.get? fields member.1.name)
      (Fields.get? docs member.1.name)) :
    ∃ found, (∀ path, readMembers .caller path docs members = .ok found) ∧
      Fields.names found =
        (members.map (·.1.name)).filter (fun name => (Fields.get? fields name).isSome) ∧
      ∀ entry ∈ found, ∃ value,
        Fields.get? fields entry.1 = some value ∧ Matches entry.2 value := by
  induction members with
  | nil => exact ⟨[], fun _ => rfl, rfl, by simp⟩
  | cons member rest ih =>
    obtain ⟨binding, target⟩ := member
    obtain ⟨hmember, hrest⟩ := List.forall_mem_cons.1 h
    obtain ⟨found, hfound, hnames, hmatches⟩ := ih hrest
    rcases optionRel_cases hmember with ⟨habsent, hnone⟩ | ⟨value, doc, hvalue, hdoc, hgives⟩
    · refine ⟨found, fun path => ?_, ?_, hmatches⟩
      · rw [readMembers, memberKey?, Option.bind_some, hnone]
        exact hfound path
      · rw [hnames, List.map_cons, List.filter_cons_of_neg (by simp [habsent])]
    · obtain ⟨first, hfirst, hsame⟩ := hgives.read
      refine ⟨(binding.name, first) :: found, fun path => ?_, ?_, ?_⟩
      · rw [readMembers, memberKey?, Option.bind_some, hdoc]
        simp only [hgives.present, hfirst, hfound]
        rfl
      · rw [List.map_cons, List.filter_cons_of_pos (by simp [hvalue]), ← hnames]
        rfl
      · exact List.forall_mem_cons.2 ⟨⟨value, hvalue, hsame⟩, hmatches⟩

theorem exists_gives_structure {heading : Heading} {members : List (Binding × Target)}
    {fields : Fields Value} (hown : HaveOwnNames members) (hnodup : (Fields.names fields).Nodup)
    (hknown : ∀ name ∈ Fields.names fields, ∃ member ∈ members, member.1.name = name)
    (h : ∀ member ∈ members, ∀ value ∈ Fields.get? fields member.1.name,
      ∃ doc, Gives member.2 value doc) :
    ∃ doc, Gives (.structure heading members) (.structure heading.shape fields) doc := by
  obtain ⟨docs, hdocs⟩ : ∃ docs, List.Forall₂ (fun (entry : String × Value)
      (doc : String × Document) => entry.1 = doc.1 ∧ ∃ member ∈ members,
        member.1.name = entry.1 ∧ Gives member.2 entry.2 doc.2) fields docs := by
    refine exists_forall₂ fun entry hmem => ?_
    obtain ⟨member, hmember, hname⟩ := hknown _ (List.mem_map_of_mem hmem)
    have hvalue : Fields.get? fields member.1.name = some entry.2 :=
      Fields.get?_of_mem hnodup (hname ▸ hmem)
    obtain ⟨doc, hdoc⟩ := h member hmember entry.2 hvalue
    exact ⟨(entry.1, doc), rfl, member, hmember, hname, hdoc⟩
  have hmembers : ∀ member ∈ members, Option.Rel (Gives member.2)
      (Fields.get? fields member.1.name) (Fields.get? docs member.1.name) := by
    intro member hmember
    refine optionRel_imp (Fields.rel_get?_of_forall₂ (r := fun name value doc =>
      ∃ member ∈ members, member.1.name = name ∧ Gives member.2 value doc) hdocs member.1.name) ?_
    rintro value doc ⟨other, hother, hname, hgives⟩
    obtain rfl := hown.eq_of_name hother hmember hname
    exact hgives
  obtain ⟨found, hfound, hnames, hmatches⟩ := exists_readMembers hmembers
  have hfoundNodup : (Fields.names found).Nodup := hnames ▸ List.Nodup.filter _ hown
  refine ⟨.object docs, ?_, rfl, .structure heading.shape found, fun path => ?_,
    Value.matches_structure hnodup hfoundNodup (Value.mem_names_iff_of_present hknown hnames)
      hmatches heading.shape⟩
  · rw [Value.document?, entryDocuments?_of_forall₂ (hdocs.imp fun _ _ hdoc => ?_)]
    · rfl
    · obtain ⟨hname, member, -, -, hgives⟩ := hdoc
      exact ⟨hname, hgives.document⟩
  · exact readPresent_structure rfl (hfound path)

end Parts

mutual

/-- For every value that a caller may give in a document there is one. -/
theorem exists_gives (target : Target) (value : Value) (hnames : target.EachStructure HaveOwnNames)
    (hfits : value.Fits Value.IsGiven target) : ∃ doc, Gives target value doc := by
  cases target with
  | scalar kind format streaming => exact exists_gives_scalar hfits
  | enumeration e =>
    obtain ⟨s, rfl⟩ := hfits
    exact ⟨_, gives_self rfl rfl (fun _ => rfl) (by simp [Value.same])⟩
  | list shape item itemName flattened =>
    obtain ⟨items, rfl, hitems⟩ := hfits
    exact exists_gives_list fun value hmem => exists_gives item value hnames (hitems value hmem)
  | map shape key target keyName valueName flattened =>
    obtain ⟨entries, rfl, hnodup, hentries⟩ := hfits
    exact exists_gives_map hnodup fun entry hmem =>
      exists_gives target entry.2 hnames (hentries entry hmem)
  | «structure» heading members =>
    obtain ⟨fields, rfl, hnodup, hknown, hmembers⟩ := hfits
    exact exists_gives_structure hnames.1 hnodup hknown
      (exists_gives_members members fields hnames.2 hmembers)

theorem exists_gives_members (members : List (Binding × Target)) (fields : Fields Value)
    (hnames : Target.EachMember HaveOwnNames members)
    (hfits : Value.FitMembers Value.IsGiven fields members) :
    ∀ member ∈ members, ∀ value ∈ Fields.get? fields member.1.name,
      ∃ doc, Gives member.2 value doc := by
  match members with
  | [] => simp
  | (binding, target) :: rest =>
    refine List.forall_mem_cons.2 ⟨fun value hvalue => ?_, ?_⟩
    · exact exists_gives target value hnames.1 (hfits.1 value hvalue)
    · exact exists_gives_members rest fields hnames.2 hfits.2

end

/-- From its document a record is made that matches it. -/
theorem exists_createInput {layout : Layout} {record : Record} {doc : Document}
    (h : Gives layout.toTarget record.toValue doc) :
    ∃ found, createInput layout (.raw doc) = .ok found ∧ Matches found.toValue record.toValue := by
  obtain ⟨value, hvalue, hmatches⟩ := h.read
  have hread := hvalue ""
  rw [readPresent_toTarget] at hread
  obtain ⟨found, hfound, rfl⟩ := map_eq_ok.1 hread
  refine ⟨found, ?_, hmatches⟩
  rw [createInput, hfound]
  rfl

/-- A record that fits the input of a compiled operation, without floats that are not numbers,
without instants of other than plain years, without bytes that are no text and without anything
that is streamed, may be given as the document of its members. Both are refused for the same fault,
or accepted as the same input. -/
theorem document_in_place_of_record {call : Call} (hcall : call.Compiled) {record : Record}
    (hfits : record.toValue.Fits Value.IsGiven call.input.toTarget) :
    ∃ doc, record.toValue.document? = some doc ∧
      ((∃ fault, prepareInput call.input (.raw doc) = .error fault ∧
          prepareInput call.input (.typed record) = .error fault) ∨
        ∃ found, prepareInput call.input (.raw doc) = .ok found ∧
          prepareInput call.input (.typed record) = .ok record ∧
          found.toValue.same record.toValue = true) := by
  obtain ⟨doc, hdoc⟩ := exists_gives _ _ hcall.input.1 hfits
  obtain ⟨found, hfound, hmatches⟩ := exists_createInput hdoc
  have hshape : found.shape = call.input.heading.shape := by
    obtain ⟨fields, hrecord, -⟩ := hfits
    exact hmatches.reordered.ofRecord.1.trans (Value.structure.inj hrecord).1
  have hraw : prepareInput call.input (.raw doc) = prepareInput call.input (.typed found) := by
    rw [prepareInput, prepareInput, hfound, createInput, if_pos hshape]
  refine ⟨doc, hdoc.document, ?_⟩
  rw [hraw]
  rcases prepareInput_of_reordered call.input hmatches.reordered with
    ⟨fault, hrefused⟩ | ⟨haccepted, hrecord⟩
  · exact .inl ⟨fault, hrefused⟩
  · exact .inr ⟨found, haccepted, hrecord, hmatches.same⟩

def bookingDocument : Document := .object [
  ("metadata", .object [("protocol", .string "json"), ("apiVersion", .string "1")]),
  ("operations", .object [("Book", .object [("input", shapeReference "Booking")])]),
  ("shapes", .object [
    ("Booking", .object [("type", .string "structure"), ("required", .array [.string "day"]),
      ("members", .object [("day", shapeReference "Day"), ("guests", shapeReference "Guests"),
        ("rates", shapeReference "Rates"), ("note", shapeReference "Note")])]),
    ("Day", .object [("type", .string "timestamp"),
      ("timestampFormat", .string "unixTimestamp")]),
    ("Guests", .object [("type", .string "list"), ("member", shapeReference "Kind")]),
    ("Rates", .object [("type", .string "map"), ("key", shapeReference "Kind"),
      ("value", shapeReference "Rate")]),
    ("Kind", .object [("type", .string "string"), ("enum", .array [.string "adult"])]),
    ("Note", .object [("type", .string "blob")]),
    ("Rate", .object [("type", .string "double")])])]

def bookingModel : ServiceModel where
  service := ⟨"Service", "1", .json, none, none, none⟩
  shapes := [
    ("Booking", ⟨"Booking", .structure ⟨[{ bodyMember "day" "Day" with required := true },
      bodyMember "guests" "Guests", bodyMember "rates" "Rates", bodyMember "note" "Note"], none⟩,
      none, none, none, false⟩),
    ("Day", ⟨"Day", .scalar .timestamp, none, none, some .epochSeconds, false⟩),
    ("Guests", ⟨"Guests", .list ⟨"Kind", none⟩ false, none, none, none, false⟩),
    ("Rates", ⟨"Rates", .map ⟨"Kind", none⟩ ⟨"Rate", none⟩ false, none, none, none, false⟩),
    ("Kind", ⟨"Kind", .enumeration ["adult"], none, none, none, false⟩),
    ("Note", ⟨"Note", .scalar .blob, none, none, none, false⟩),
    ("Rate", ⟨"Rate", .scalar .float, none, none, none, false⟩)]
  operations := [("Book", ⟨"Book", "Booking", none, "POST", "/", none, none⟩)]

theorem load_bookingDocument :
    ServiceModel.load (Json.Node.ofDocument bookingDocument).text = .ok bookingModel :=
  ServiceModel.load_text (by decide) rfl

def kindTarget : Target :=
  .enumeration ⟨⟨.enums, "Kind"⟩, "Kind", [⟨"ADULT", "adult"⟩]⟩

def bookingCall : Call where
  service := bookingModel.service
  operation := ⟨"Book", "Booking", none, "POST", "/", none, none⟩
  ident := ⟨.client, "book"⟩
  input := {
    heading := ⟨"Booking", ⟨.input, "Booking"⟩, none, none⟩
    members := [
      (⟨"day", "day", "day", true, .body, false, none⟩,
        .scalar .timestamp (some .epochSeconds) false),
      (⟨"guests", "guests", "guests", false, .body, false, none⟩,
        .list "Guests" kindTarget none false),
      (⟨"rates", "rates", "rates", false, .body, false, none⟩,
        .map "Rates" kindTarget (.scalar .float none false) none none false),
      (⟨"note", "note", "note", false, .body, false, none⟩, .scalar .blob none false)] }
  output := none
  template := ⟨[.literal "/"], none⟩

theorem compiled_bookingCall : bookingCall.Compiled :=
  ⟨Memory, inferInstance, Run.start ⟨bookingModel, {}⟩ {}, "Book",
    ⟨_, _, [], .load load_bookingDocument, rfl⟩, rfl⟩

/-- A booking for a guest of some kind, whose members were not set in the order of their
declaration. -/
def booking (kind : String) : Record where
  shape := "Booking"
  fields := [("note", .blob (Text.utf8 "é")), ("rates", .map [("adult", .float 0.5)]),
    ("guests", .list [.string kind]), ("day", .timestamp ⟨-1, 500000000, by decide⟩)]

theorem fits_booking (kind : String) :
    (booking kind).toValue.Fits Value.IsGiven bookingCall.input.toTarget := by
  have hday : Time.HasPlainYear ⟨-1, 500000000, by decide⟩ := by
    rw [Time.HasPlainYear]
    decide
  have hrate : (0.5 : Float).isNaN = false := by decide +kernel
  have hnames : ["note", "rates", "guests", "day"].Nodup := by decide
  have hknown : ∀ name ∈ ["note", "rates", "guests", "day"],
      ∃ member ∈ bookingCall.input.members, member.1.name = name := by decide
  refine ⟨_, rfl, hnames, hknown, fun value hvalue => ?_, fun value hvalue => ?_,
    fun value hvalue => ?_, fun value hvalue => ?_, trivial⟩
  · obtain rfl : .timestamp ⟨-1, 500000000, by decide⟩ = value := Option.some.inj hvalue
    exact ⟨rfl, hday⟩
  · obtain rfl : .list [.string kind] = value := Option.some.inj hvalue
    exact ⟨_, rfl, List.forall_mem_singleton.2 ⟨kind, rfl⟩⟩
  · obtain rfl : .map [("adult", .float 0.5)] = value := Option.some.inj hvalue
    exact ⟨_, rfl, List.nodup_singleton _, List.forall_mem_singleton.2 ⟨rfl, hrate⟩⟩
  · obtain rfl : .blob (Text.utf8 "é") = value := Option.some.inj hvalue
    exact ⟨rfl, rfl, "é", rfl⟩

/-- Half a second before the epoch is given as a text, although epoch seconds are declared. -/
theorem document_in_place_of_booking :
    bookingCall.Compiled ∧
      (∃ doc found, (booking "adult").toValue.document? = some doc ∧
        (doc.get? "day").bind Document.string? = some "1969-12-31T23:59:59.5Z" ∧
        prepareInput bookingCall.input (.raw doc) = .ok found ∧
        found.toValue.same (booking "adult").toValue = true) ∧
      ∃ doc, (booking "child").toValue.document? = some doc ∧
        prepareInput bookingCall.input (.raw doc) =
          .error (.notInEnumeration "guests" "child" "Kind") := by
  have haccepted : prepareInput bookingCall.input (.typed (booking "adult")) =
      .ok (booking "adult") := rfl
  have hrefused : prepareInput bookingCall.input (.typed (booking "child")) =
      .error (.notInEnumeration "guests" "child" "Kind") := rfl
  refine ⟨compiled_bookingCall, ?_, ?_⟩
  · obtain ⟨doc, hdoc, ⟨fault, -, hfault⟩ | ⟨found, hfound, -, hsame⟩⟩ :=
      document_in_place_of_record compiled_bookingCall (fits_booking "adult")
    · cases haccepted.symm.trans hfault
    · have hday : ((booking "adult").toValue.document?.bind (·.get? "day")).bind (·.string?) =
          some "1969-12-31T23:59:59.5Z" := by decide +kernel
      rw [hdoc] at hday
      exact ⟨doc, found, hdoc, hday, hfound, hsame⟩
  · obtain ⟨doc, hdoc, ⟨fault, hraw, hfault⟩ | ⟨found, -, hfound, -⟩⟩ :=
      document_in_place_of_record compiled_bookingCall (fits_booking "child")
    · obtain rfl := Except.error.inj (hrefused.symm.trans hfault)
      exact ⟨doc, hdoc, hraw⟩
    · cases hrefused.symm.trans hfound

end ServiceBindings
