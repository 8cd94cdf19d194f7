import ServiceBindings.Client.Basic
import ServiceBindings.Proofs.Generate.Compiled
import ServiceBindings.Proofs.Model.Texts
import ServiceBindings.Proofs.Plan.Template
import ServiceBindings.Proofs.Request.Kinds

/-! Inputs that were read from documents are never refused for the kinds of their values. -/
namespace ServiceBindings.Request
open Generate (Memory Run)
open Plan (AreStored AttributesAreSimple Binding Call HaveOwnNames Layout Segment Target)

/-- The members of a record fit those of a structure, whose bindings are legal and whose names tell
its members apart. -/
structure CanWrite (layout : Layout) (record : Record) : Prop where
  legal : layout.HasLegalBindings
  names : HaveOwnNames layout.members
  fits : record.toValue.Fits Value.IsOfKind layout.toTarget

section
variable {layout : Layout} {record : Record}

theorem CanWrite.fitMembers (h : CanWrite layout record) :
    Value.FitMembers Value.IsOfKind record.fields layout.members := by
  obtain ⟨fields, hfields, -, -, hmembers⟩ := h.fits
  obtain ⟨-, rfl⟩ := Value.structure.inj hfields
  exact hmembers

theorem CanWrite.fits_of_get? (h : CanWrite layout record) {member : Binding × Target}
    (hmem : member ∈ layout.members) {value : Value}
    (hvalue : record.get? member.1.name = some value) :
    value.Fits Value.IsOfKind member.2 :=
  Value.fitMembers_iff.1 h.fitMembers member hmem value hvalue

theorem CanWrite.member?_eq_some (h : CanWrite layout record) {member found : Binding × Target}
    (hmem : member ∈ layout.members) (hfound : layout.member? member.1.name = some found) :
    found = member := by
  have hname : found.1.name = member.1.name := by simpa using List.find?_some hfound
  exact h.names.eq_of_name (List.mem_of_find?_eq_some hfound) hmem hname

theorem CanWrite.segmentText (h : CanWrite layout record) {segment : Segment}
    (hlabel : segment.FitsLabel layout) : NoWrongKind (segmentText layout record segment) := by
  cases segment with
  | literal s => exact noWrongKind_ok s
  | label name label greedy =>
    obtain ⟨member, hmem, hlocation, rfl⟩ := hlabel
    rw [Request.segmentText]
    split
    · next binding target value hmember hvalue =>
      obtain rfl := h.member?_eq_some hmem hmember
      have hlocation : binding.location = .uri := hlocation
      have hsimple : Plan.Location.Admits binding.location target := h.legal.places _ hmem
      rw [hlocation] at hsimple
      have hstored : target.IsStored := h.legal.stored _ hmem (by simp [hlocation])
      exact (noWrongKind_scalarText _ _ hsimple hstored (h.fits_of_get? hmem hvalue)).map _
    · simp [NoWrongKind]

theorem noWrongKind_memberPairs (binding : Binding) {target : Target} {value : Value}
    (hlegal : Plan.Location.Admits .queryString target) (hstored : target.IsStored)
    (hfits : value.Fits Value.IsOfKind target) :
    NoWrongKind (memberPairs binding target value) := by
  cases target with
  | scalar | enumeration =>
    exact (noWrongKind_scalarText _ _ (by trivial) hstored hfits).bind fun _ _ => noWrongKind_ok _
  | list shape item itemName flattened =>
    obtain ⟨items, rfl, hitems⟩ := hfits
    refine noWrongKind_mapM fun value hmem => ?_
    exact (noWrongKind_scalarText _ _ hlegal hstored (hitems value hmem)).bind fun _ _ =>
      noWrongKind_ok _
  | map shape key target keyName valueName flattened =>
    obtain ⟨entries, rfl, -, hentries⟩ := hfits
    refine noWrongKind_mapM fun entry hmem => ?_
    exact (noWrongKind_scalarText _ _ hlegal hstored (hentries entry hmem)).bind fun _ _ =>
      noWrongKind_ok _
  | «structure» => exact hlegal.elim

theorem CanWrite.queryPairs (h : CanWrite layout record) :
    NoWrongKind (queryPairs layout record) := by
  refine NoWrongKind.bind (noWrongKind_mapM fun member hmem => ?_) fun _ _ => noWrongKind_ok _
  obtain ⟨hmem, hlocation⟩ := List.mem_filter.1 hmem
  have hlocation : member.1.location = .queryString := by simpa using hlocation
  cases hvalue : record.get? member.1.name with
  | none => exact noWrongKind_ok []
  | some value =>
    exact noWrongKind_memberPairs member.1 (hlocation ▸ h.legal.places member hmem)
      (h.legal.stored member hmem (by simp [hlocation])) (h.fits_of_get? hmem hvalue)

theorem noWrongKind_setHeader (headers : Http.Headers) (name value : String) :
    NoWrongKind (setHeader headers name value) := by
  unfold setHeader
  split
  · split_ifs <;> simp [NoWrongKind]
  · simp [NoWrongKind]

theorem noWrongKind_headerText (binding : Binding) {target : Target} {value : Value}
    (hlegal : Plan.Location.Admits .header target) (hstored : target.IsStored)
    (hfits : value.Fits Value.IsOfKind target) :
    NoWrongKind (headerText binding target value) := by
  cases target with
  | scalar | enumeration => exact noWrongKind_scalarText _ _ (by trivial) hstored hfits
  | list shape item itemName flattened =>
    obtain ⟨items, rfl, hitems⟩ := hfits
    refine NoWrongKind.bind (noWrongKind_mapM fun value hmem => ?_) fun _ _ => noWrongKind_ok _
    exact noWrongKind_scalarText _ _ hlegal hstored (hitems value hmem)
  | map | «structure» => exact hlegal.elim

theorem noWrongKind_setEntries (start : String) {target : Target} (hsimple : target.IsSimple)
    (hstored : target.IsStored) {entries : List (String × Value)}
    (hfits : ∀ entry ∈ entries, entry.2.Fits Value.IsOfKind target) (headers : Http.Headers) :
    NoWrongKind (setEntries start target headers entries) := by
  induction entries generalizing headers with
  | nil => exact noWrongKind_ok headers
  | cons entry rest ih =>
    rw [setEntries]
    refine (noWrongKind_scalarText _ _ hsimple hstored (hfits entry List.mem_cons_self)).bind
      fun text _ => (noWrongKind_setHeader _ _ _).bind fun headers _ => ?_
    exact ih (fun entry hmem => hfits entry (List.mem_cons_of_mem _ hmem)) headers

theorem noWrongKind_setMember (headers : Http.Headers) {binding : Binding} {target : Target}
    {value : Value} (hlegal : Plan.Location.Admits binding.location target)
    (hstored : binding.location ≠ .payload → target.IsStored)
    (hfits : value.Fits Value.IsOfKind target) :
    NoWrongKind (setMember headers binding target value) := by
  unfold setMember
  split
  · next hlocation =>
    rw [hlocation] at hlegal
    exact (noWrongKind_headerText binding hlegal (hstored (by simp [hlocation])) hfits).bind
      fun _ _ => noWrongKind_setHeader _ _ _
  · next hlocation =>
    rw [hlocation] at hlegal
    cases target with
    | map shape key target keyName valueName flattened =>
      obtain ⟨entries, rfl, -, hentries⟩ := hfits
      exact noWrongKind_setEntries _ hlegal (hstored (by simp [hlocation])) hentries headers
    | scalar | enumeration | list | «structure» => exact hlegal.elim
  · exact noWrongKind_ok headers

theorem CanWrite.setMembers (h : CanWrite layout record) {members : List (Binding × Target)}
    (hmembers : ∀ member ∈ members, member ∈ layout.members) (headers : Http.Headers) :
    NoWrongKind (setMembers record headers members) := by
  induction members generalizing headers with
  | nil => exact noWrongKind_ok headers
  | cons member rest ih =>
    have hmem := hmembers member List.mem_cons_self
    have hrest := ih fun member hmem => hmembers member (List.mem_cons_of_mem _ hmem)
    rw [Request.setMembers]
    cases hvalue : record.get? member.1.name with
    | none => exact hrest headers
    | some value =>
      refine (noWrongKind_setMember headers (h.legal.places member hmem)
        (h.legal.stored member hmem) (h.fits_of_get? hmem hvalue)).bind fun headers _ => ?_
      exact hrest headers

theorem noWrongKind_rawBody (binding : Binding) {target : Target} {value : Value}
    (hlegal : Plan.Location.Admits .payload target) (hsimple : target.IsSimple)
    (hfits : value.Fits Value.IsOfKind target) : NoWrongKind (rawBody binding target value) := by
  cases target with
  | enumeration e =>
    obtain ⟨s, rfl⟩ := hfits
    exact noWrongKind_ok _
  | scalar kind format streaming =>
    obtain rfl | rfl : kind = .string ∨ kind = .blob := hlegal
    all_goals
      cases value <;> first | exact noWrongKind_ok _ | simp [Value.Fits, Value.IsOfKind] at hfits
  | list | map | «structure» => exact hsimple.elim

theorem CanWrite.xmlDocument (path : String) (root : Xml.Element) {fields : Fields Value}
    {members : List (Binding × Target)}
    (hstored : ∀ member ∈ members, member.1.location = .body → member.2.IsStored)
    (hattributes : AttributesAreSimple members ∧ Target.EachMember AttributesAreSimple members)
    (hfits : Value.FitMembers Value.IsOfKind fields members) :
    NoWrongKind (xmlDocument path root fields members) := by
  unfold Request.xmlDocument
  split_ifs
  · exact (noWrongKind_xmlMembers path members fields root hstored hattributes hfits).bind
      fun _ _ => noWrongKind_ok _
  · exact noWrongKind_ok _

theorem CanWrite.storedInBody (h : CanWrite layout record) :
    ∀ member ∈ layout.members, member.1.location = .body → member.2.IsStored :=
  fun member hmem hbody => h.legal.stored member hmem (by simp [hbody])

end

section
variable {call : Call} {record : Record}

theorem CanWrite.formBody (h : CanWrite call.input record) :
    NoWrongKind (formBody call record) := by
  unfold Request.formBody
  refine NoWrongKind.bind (noWrongKind_formFields _ _ _ (Plan.areStored_iff.2 fun member hmem => ?_)
    (Value.fitMembers_iff.2 fun member hmem => ?_)) fun _ _ => noWrongKind_ok _
  · obtain ⟨hmem, hbody⟩ := List.mem_filter.1 hmem
    exact h.storedInBody member hmem (by simpa using hbody)
  · exact Value.fitMembers_iff.1 h.fitMembers member (List.mem_of_mem_filter hmem)

/-- The member that makes up the whole body can be one, and its value fits it. -/
theorem CanWrite.payload (h : CanWrite call.input record) {binding : Binding} {target : Target}
    (hpayload : call.input.payload? = some (binding, target)) :
    (binding, target) ∈ call.input.members ∧ Plan.Location.Admits .payload target := by
  have hmem := List.mem_of_find?_eq_some hpayload
  have hlocation : binding.location = .payload := by simpa using List.find?_some hpayload
  exact ⟨hmem, hlocation ▸ h.legal.places _ hmem⟩

theorem CanWrite.xmlBody (h : CanWrite call.input record) : NoWrongKind (xmlBody call record) := by
  unfold Request.xmlBody
  split
  · next binding target hpayload =>
    obtain ⟨hmem, hadmits⟩ := h.payload hpayload
    split
    · exact noWrongKind_ok _
    · next value hvalue =>
      have hfits : value.Fits Value.IsOfKind target := h.fits_of_get? hmem hvalue
      cases target with
      | «structure» heading members =>
        obtain ⟨fields, rfl, -, -, hmembers⟩ := hfits
        exact CanWrite.xmlDocument _ _
          (fun member hmem _ => Plan.areStored_iff.1 hadmits member hmem)
          (h.legal.attributes.2.of_mem hmem) hmembers
      | scalar | enumeration => exact noWrongKind_rawBody binding hadmits (by trivial) hfits
      | list | map => exact hadmits.elim
  · exact CanWrite.xmlDocument _ _ h.storedInBody h.legal.attributes h.fitMembers

theorem CanWrite.jsonBody (h : CanWrite call.input record) :
    NoWrongKind (jsonBody call record) := by
  unfold Request.jsonBody
  split
  · next binding target hpayload =>
    obtain ⟨hmem, hadmits⟩ := h.payload hpayload
    split
    · exact noWrongKind_ok _
    · next value hvalue =>
      have hfits : value.Fits Value.IsOfKind target := h.fits_of_get? hmem hvalue
      cases target with
      | «structure» heading members =>
        have hstored : (Target.structure heading members).IsStored := hadmits
        exact (noWrongKind_jsonNode _ _ value hstored hfits).map _
      | scalar | enumeration => exact noWrongKind_rawBody binding hadmits (by trivial) hfits
      | list | map => exact hadmits.elim
  · dsimp only
    split_ifs
    · exact noWrongKind_ok _
    · exact (noWrongKind_jsonMembers _ _ _ h.storedInBody h.fitMembers).map _

theorem CanWrite.body (h : CanWrite call.input record) : NoWrongKind (body call record) := by
  unfold Request.body
  cases call.service.protocol with
  | query => exact h.formBody
  | xml => exact h.xmlBody
  | json => exact h.jsonBody

theorem CanWrite.headers (h : CanWrite call.input record) : NoWrongKind (headers call record) := by
  have hmembers := h.setMembers fun _ hmem => hmem
  unfold Request.headers
  dsimp only
  split
  · exact (noWrongKind_setHeader _ _ _).bind fun start _ => hmembers start
  · exact (noWrongKind_ok _).bind fun start _ => hmembers start

theorem CanWrite.address (h : CanWrite call.input record)
    (hlabels : ∀ segment ∈ call.template.path, segment.FitsLabel call.input) :
    NoWrongKind (address call record) := by
  unfold Request.address
  refine NoWrongKind.bind
    (noWrongKind_mapM fun segment hmem => h.segmentText (hlabels segment hmem)) fun path _ => ?_
  exact h.queryPairs.bind fun _ _ => noWrongKind_ok _

theorem CanWrite.build (h : CanWrite call.input record)
    (hlabels : ∀ segment ∈ call.template.path, segment.FitsLabel call.input) (endpoint : String) :
    NoWrongKind (build call endpoint record) := by
  unfold Request.build
  refine (h.address hlabels).bind fun path _ => h.headers.bind fun headers _ =>
    h.body.bind fun body _ => ?_
  dsimp only
  have haddress : NoWrongKind (throw .invalidAddress : Except Error Http.Request) := by
    simp [NoWrongKind, throw, throwThe, MonadExceptOf.throw]
  split_ifs
  · refine (noWrongKind_setHeader _ _ _).bind fun headers _ => ?_
    split
    · exact noWrongKind_ok _
    · exact haddress
  · refine (noWrongKind_ok headers).bind fun headers _ => ?_
    split
    · exact noWrongKind_ok _
    · exact haddress

end

/-- A compiled operation with legal bindings never refuses an input that it read from a document for
the kind of a value. -/
theorem build_ne_kind_of_prepared_raw {call : Call} (hcall : call.Compiled)
    (hlegal : call.input.HasLegalBindings) {doc : Document} {record : Record}
    (hprepared : prepareInput call.input (.raw doc) = .ok record)
    (endpoint path expected found : String) :
    build call endpoint record ≠ .error (.kind path expected found) := by
  obtain ⟨hnames, htemplate⟩ := hcall.input
  obtain ⟨created, hcreated, h⟩ := bind_eq_ok.1 hprepared
  obtain ⟨-, -, h⟩ := bind_eq_ok.1 h
  obtain rfl := Except.ok.inj h
  have hread : readRecord .caller "" call.input doc = .ok created := mapError_eq_ok.1 hcreated
  have hwrite : CanWrite call.input created := ⟨hlegal, hnames.1, fits_of_readRecord hnames hread⟩
  exact hwrite.build (fun _ hmem => Plan.fitsLabel_of_templateOf htemplate hmem) endpoint path
    expected found

/-- The text of a model of an operation with a path, a query and bytes from a source. -/
def uploadText : String :=
  "\x7b\"metadata\":\x7b\"protocol\":\"rest-xml\",\"apiVersion\":\"1\"\x7d," ++
  "\"operations\":\x7b\"Put\":\x7b\"http\":\x7b\"method\":\"PUT\"," ++
  "\"requestUri\":\"/\x7bid\x7d\"\x7d,\"input\":\x7b\"shape\":\"In\"\x7d\x7d\x7d," ++
  "\"shapes\":\x7b\"In\":\x7b\"type\":\"structure\",\"payload\":\"data\",\"members\":\x7b" ++
  "\"id\":\x7b\"shape\":\"S\",\"location\":\"uri\"\x7d," ++
  "\"tags\":\x7b\"shape\":\"L\",\"location\":\"querystring\"\x7d," ++
  "\"data\":\x7b\"shape\":\"B\"\x7d\x7d\x7d,\"S\":\x7b\"type\":\"string\"\x7d," ++
  "\"L\":\x7b\"type\":\"list\",\"member\":\x7b\"shape\":\"S\"\x7d\x7d," ++
  "\"B\":\x7b\"type\":\"blob\",\"streaming\":true\x7d\x7d\x7d"

/-- The document of `uploadText`. -/
def uploadDocument : Document := .object [
  ("metadata", .object [("protocol", .string "rest-xml"), ("apiVersion", .string "1")]),
  ("operations", .object [("Put", .object [
    ("http", .object [("method", .string "PUT"), ("requestUri", .string "/\x7bid\x7d")]),
    ("input", .object [("shape", .string "In")])])]),
  ("shapes", .object [
    ("In", .object [("type", .string "structure"), ("payload", .string "data"),
      ("members", .object [
        ("id", .object [("shape", .string "S"), ("location", .string "uri")]),
        ("tags", .object [("shape", .string "L"), ("location", .string "querystring")]),
        ("data", .object [("shape", .string "B")])])]),
    ("S", .object [("type", .string "string")]),
    ("L", .object [("type", .string "list"), ("member", .object [("shape", .string "S")])]),
    ("B", .object [("type", .string "blob"), ("streaming", .bool true)])])]

/-- The model that `uploadText` describes. -/
def uploadModel : ServiceModel where
  service := ⟨"Service", "1", .xml, none, none, none⟩
  shapes := [
    ("In", ⟨"In", .structure ⟨[⟨"id", "S", false, .uri, none, false, none, false, none⟩,
      ⟨"tags", "L", false, .queryString, none, false, none, false, none⟩,
      ⟨"data", "B", false, .payload, none, false, none, false, none⟩], some "data"⟩,
      none, none, none, false⟩),
    ("S", ⟨"S", .scalar .string, none, none, none, false⟩),
    ("L", ⟨"L", .list ⟨"S", none⟩ false, none, none, none, false⟩),
    ("B", ⟨"B", .scalar .blob, none, none, none, true⟩)]
  operations := [("Put", ⟨"Put", "In", none, "PUT", "/\x7bid\x7d", none, none⟩)]

/-- The operation of `uploadModel`. -/
def uploadCall : Call where
  service := uploadModel.service
  operation := ⟨"Put", "In", none, "PUT", "/\x7bid\x7d", none, none⟩
  ident := ⟨.client, "put"⟩
  input := {
    heading := ⟨"In", ⟨.input, "In"⟩, none, none⟩
    members := [
      (⟨"id", "id", "id", false, .uri, false, none⟩, .scalar .string none false),
      (⟨"tags", "tags", "tags", false, .queryString, false, none⟩,
        .list "L" (.scalar .string none false) none false),
      (⟨"data", "data", "data", false, .payload, false, none⟩, .scalar .blob none true)] }
  output := none
  template := ⟨[.literal "/", .label "id" "id" false], none⟩

set_option maxRecDepth 4000 in
theorem load_uploadText : ServiceModel.load uploadText = .ok uploadModel := by
  have htext : uploadText = (Json.Node.ofDocument uploadDocument).text := by decide +kernel
  rw [htext]
  exact ServiceModel.load_text (by decide) rfl

theorem compiled_uploadCall : uploadCall.Compiled :=
  ⟨Memory, inferInstance, Run.start ⟨uploadModel, {}⟩ {}, "Put",
    ⟨_, _, [], .load load_uploadText, rfl⟩, rfl⟩

theorem build_ne_kind_of_upload :
    let doc := Document.object [("id", .string "a"), ("tags", .array [.string "b", .bool true]),
      ("data", .string "c")]
    ∃ record, prepareInput uploadCall.input (.raw doc) = .ok record ∧
      ∀ endpoint path expected found,
        build uploadCall endpoint record ≠ .error (.kind path expected found) := by
  intro doc
  have hlegal : uploadCall.input.HasLegalBindings := by
    refine ⟨?_, ⟨?_, trivial, trivial, trivial, trivial⟩, ?_⟩
    · simp [uploadCall, Plan.Location.Admits, Target.IsSimple]
    · simp [uploadCall, AttributesAreSimple]
    · simp [uploadCall, Target.IsStored]
  have hprepared : prepareInput uploadCall.input (.raw doc) = .ok ⟨"In",
      [("id", .string "a"), ("tags", .list [.string "b", .string "true"]),
        ("data", .stream { id := 0, content := Text.utf8 "c" })]⟩ := rfl
  exact ⟨_, hprepared, build_ne_kind_of_prepared_raw compiled_uploadCall hlegal hprepared⟩

end ServiceBindings.Request
