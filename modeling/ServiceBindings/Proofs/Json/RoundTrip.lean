import ServiceBindings.Proofs.Generate.Compiled
import ServiceBindings.Proofs.Json.Values
import ServiceBindings.Proofs.Model.Texts
import ServiceBindings.Proofs.Response.Body

/-! Records are read back from the JSON bodies as which they are sent. -/
namespace ServiceBindings.Json
open Generate (Memory Run)
open Plan (Binding Call CarriedByBody InBody Layout Target)

theorem jsonMembers_nil (path : String) (members : List (Binding × Target)) :
    Request.jsonMembers path [] members = .ok [] := by
  induction members with
  | nil => rfl
  | cons member rest ih =>
    obtain ⟨binding, target⟩ := member
    have hnone : Fields.get? ([] : Fields Value) binding.name = none := rfl
    rw [Request.jsonMembers, hnone]
    cases binding.location <;> exact ih

theorem CarryMembers.eq_nil {members : List (Binding × Target)} {docs : Fields Document}
    (h : CarryMembers members [] docs) : docs = [] := by
  have hnodes := Except.ok.inj ((jsonMembers_nil "" members).symm.trans (h.written ""))
  cases docs with
  | nil => rfl
  | cons => simp [nodesOfMembers] at hnodes

/-- The body of a record is empty or a text, and either is read as the same document. -/
theorem exists_body {writer : Call} (hprotocol : writer.service.protocol = .json)
    (hplace : CarriedByBody writer.input.members) {record : ServiceBindings.Record}
    {docs : Fields Document}
    (hknown : ∀ name ∈ Fields.names record.fields,
      ∃ member ∈ writer.input.members, member.1.name = name)
    (hdocs : CarryMembers writer.input.members record.fields docs)
    (hread : read (Text.utf8 (Node.ofDocument (.object docs)).text) = .ok (.object docs)) :
    ∃ body bytes, Request.body writer record = .ok body ∧ body.bytes? = some bytes ∧
      read bytes = .ok (.object docs) := by
  rw [Request.body, hprotocol]
  dsimp only
  rw [Request.jsonBody, Layout.payload?_of_carriedByBody hplace]
  dsimp only
  split_ifs with hempty
  · rw [Request.fields_eq_nil hplace hknown (by simpa using hempty.2)] at hdocs
    rw [hdocs.eq_nil]
    exact ⟨.empty, [], rfl, rfl, rfl⟩
  · rw [hdocs.written]
    exact ⟨_, _, rfl, Http.Body.bytes?_ofText _, hread⟩

/-- A record of a compiled structure is sent as a body from which it is read back. -/
theorem read_body_of_compiled {layout : Layout} (hlayout : layout.Compiled)
    (hplace : layout.toTarget.EachStructure CarriedByBody) {writer reader : Call}
    (hwriter : writer.service.protocol = .json ∧ writer.input = layout)
    (hreader : reader.service.protocol = .json ∧ reader.output = some layout ∧
      reader.operation.resultWrapper = none)
    {record : ServiceBindings.Record} (hfits : record.toValue.Fits IsExact layout.toTarget)
    (hdepth : record.toValue.depth ≤ 127) :
    ∃ body bytes, Request.body writer record = .ok body ∧ body.bytes? = some bytes ∧
      ∀ headers, ∃ found, Response.read reader ⟨200, headers, bytes⟩ = .ok found ∧
        found.toValue.same record.toValue = true := by
  obtain ⟨hprotocol, rfl⟩ := hwriter
  obtain ⟨hprotocol', houtput, hwrapper⟩ := hreader
  have hin : writer.input.toTarget.EachStructure InBody :=
    Target.EachStructure.and (fun _ hbody hnames => ⟨hbody, hnames⟩) _ hplace hlayout.haveOwnNames
  obtain ⟨fields, hfields, hnodup, hknown, hmembers⟩ := id hfits
  obtain rfl : record.fields = fields := (Value.structure.inj hfields).2
  obtain ⟨docs, hdocs⟩ := exists_carryMembers _ record.fields hin.1 hin.2 hmembers
  have hcarries : Carries writer.input.toTarget (.structure _ record.fields) (.object docs) :=
    carries_structure hin.1 hnodup hknown hdocs
  have hread := read_text hcarries.plain (hcarries.depth.trans hdepth)
  obtain ⟨body, bytes, hbody, hbytes, hdecode⟩ :=
    exists_body hprotocol hplace.1 hknown hdocs hread
  obtain ⟨found, hfound, hnames, hsame⟩ := hdocs.read "" docs fun _ _ => rfl
  have hdecode' : Response.decode (Response.originOf reader.service.protocol) bytes =
      .ok (.object docs) := by
    rw [hprotocol', Response.originOf, Response.decode, hdecode]
    all_goals simp
  have hrecord : readRecord (Response.originOf reader.service.protocol) "" writer.input
      (.object docs) = .ok ⟨writer.input.heading.shape, found⟩ := by
    rw [hprotocol', Response.originOf, readRecord, membersOf, ok_bind, hfound]
    rfl
  refine ⟨body, bytes, hbody, hbytes, fun headers => ⟨_,
    Response.read_of_carriedByBody hplace.1 houtput hwrapper hdecode' hrecord, ?_⟩⟩
  rw [hfields]
  exact Value.same_structure hin.1 hnodup hknown hnames hsame _

def tagsText : String :=
  "\x7b\"metadata\":\x7b\"protocol\":\"json\",\"apiVersion\":\"1\"\x7d," ++
  "\"operations\":\x7b\"Put\":\x7b\"input\":\x7b\"shape\":\"In\"\x7d\x7d\x7d," ++
  "\"shapes\":\x7b\"In\":\x7b\"type\":\"structure\",\"members\":\x7b" ++
  "\"n\":\x7b\"shape\":\"N\"\x7d," ++
  "\"tags\":\x7b\"shape\":\"L\",\"locationName\":\"Tags\"\x7d\x7d\x7d," ++
  "\"N\":\x7b\"type\":\"long\"\x7d,\"S\":\x7b\"type\":\"string\"\x7d," ++
  "\"L\":\x7b\"type\":\"list\",\"member\":\x7b\"shape\":\"S\"\x7d\x7d\x7d\x7d"

/-- The document of `tagsText`. -/
def tagsDocument : Document := .object [
  ("metadata", .object [("protocol", .string "json"), ("apiVersion", .string "1")]),
  ("operations", .object [("Put", .object [("input", .object [("shape", .string "In")])])]),
  ("shapes", .object [
    ("In", .object [("type", .string "structure"), ("members", .object [
      ("n", .object [("shape", .string "N")]),
      ("tags", .object [("shape", .string "L"), ("locationName", .string "Tags")])])]),
    ("N", .object [("type", .string "long")]),
    ("S", .object [("type", .string "string")]),
    ("L", .object [("type", .string "list"), ("member", .object [("shape", .string "S")])])])]

/-- The model that `tagsText` describes. -/
def tagsModel : ServiceModel where
  service := ⟨"Service", "1", .json, none, none, none⟩
  shapes := [
    ("In", ⟨"In", .structure ⟨[⟨"n", "N", false, .body, none, false, none, false, none⟩,
      ⟨"tags", "L", false, .body, some "Tags", false, none, false, none⟩], none⟩,
      none, none, none, false⟩),
    ("N", ⟨"N", .scalar .integer, none, none, none, false⟩),
    ("S", ⟨"S", .scalar .string, none, none, none, false⟩),
    ("L", ⟨"L", .list ⟨"S", none⟩ false, none, none, none, false⟩)]
  operations := [("Put", ⟨"Put", "In", none, "POST", "/", none, none⟩)]

def tagsLayout : Layout where
  heading := ⟨"In", ⟨.input, "In"⟩, none, none⟩
  members := [
    (⟨"n", "n", "n", false, .body, false, none⟩, .scalar .integer none false),
    (⟨"tags", "tags", "Tags", false, .body, false, none⟩,
      .list "L" (.scalar .string none false) none false)]

set_option maxRecDepth 4000 in
theorem load_tagsText : ServiceModel.load tagsText = .ok tagsModel := by
  have htext : tagsText = (Json.Node.ofDocument tagsDocument).text := by decide +kernel
  rw [htext]
  exact ServiceModel.load_text (by decide) rfl

theorem compiled_tagsLayout : tagsLayout.Compiled :=
  ⟨Memory, inferInstance, (Run.start ⟨tagsModel, {}⟩ {}).after [.compile "Put"], "In",
    ⟨_, _, _, .load load_tagsText, rfl⟩, rfl⟩

def tagsCall : Call where
  service := tagsModel.service
  operation := ⟨"Put", "In", some "In", "POST", "/", none, none⟩
  ident := ⟨.client, "put"⟩
  input := tagsLayout
  output := some tagsLayout
  template := ⟨[.literal "/"], none⟩

def tagsRecord : ServiceBindings.Record where
  shape := "In"
  fields := [("tags", .list [.string "a", .string "\"b\""]), ("n", .integer (-7))]

theorem read_body_of_tags : tagsLayout.Compiled ∧
    ∃ body bytes, Request.body tagsCall tagsRecord = .ok body ∧ body.bytes? = some bytes ∧
      ∀ headers, ∃ found, Response.read tagsCall ⟨200, headers, bytes⟩ = .ok found ∧
        found.toValue.same tagsRecord.toValue = true := by
  have hplace : tagsLayout.toTarget.EachStructure CarriedByBody := by
    refine ⟨⟨?_, ?_⟩, trivial, trivial, trivial⟩
    · simp [tagsLayout]
    · decide
  have hfits : tagsRecord.toValue.Fits IsExact tagsLayout.toTarget := by
    refine ⟨_, rfl, by decide, by decide, ?_, ?_, trivial⟩
    · rintro value ⟨⟩
      exact ⟨rfl, by decide, by decide⟩
    · rintro value ⟨⟩
      refine ⟨_, rfl, fun item hmem => ?_⟩
      simp only [List.mem_cons, List.not_mem_nil, or_false] at hmem
      obtain rfl | rfl := hmem <;> rfl
  exact ⟨compiled_tagsLayout, read_body_of_compiled compiled_tagsLayout hplace ⟨rfl, rfl⟩
    ⟨rfl, rfl, rfl⟩ hfits (by decide)⟩

end ServiceBindings.Json
