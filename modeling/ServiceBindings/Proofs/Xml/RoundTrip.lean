import ServiceBindings.Proofs.Generate.Compiled
import ServiceBindings.Proofs.Model.Texts
import ServiceBindings.Proofs.Response.Body
import ServiceBindings.Proofs.Xml.Values
import ServiceBindings.Proofs.Xml.Written

/-! Records are read back from the XML bodies as which they are sent. -/
namespace ServiceBindings.Xml
open Generate (Memory Run)
open Plan (Binding Call CarriedByBody InBody Layout Target)
open Token (scanFrom)

/-- The name of the root element of requests. -/
def rootName (call : Call) : String :=
  call.input.heading.locationName.getD call.input.heading.shape

/-- The root element of requests has a name, and the service's namespace is a text. -/
structure HasRoot (call : Call) : Prop where
  name : IsName (rootName call)
  uri : ∀ uri ∈ call.service.xmlNamespace, IsText uri

theorem exists_rootElement {call : Call} (hroot : HasRoot call) {ns : Option Namespace}
    (hns : CanDeclare ns) (name : String) :
    ∃ spaces, Request.rootElement call name ns = { name, attributes := spaces } ∧
      AreSpaces spaces := by
  unfold Request.rootElement
  cases ns with
  | some ns => exact exists_declare hns name
  | none =>
    cases hservice : call.service.xmlNamespace with
    | none => exact ⟨[], rfl, by simp [AreSpaces]⟩
    | some uri =>
      have hname : IsName "xmlns" := by decide
      exact ⟨_, rfl, areSpaces_singleton (by decide) hname (hroot.uri uri hservice)⟩

theorem xmlMembers_nil (path : String) (element : Element) (members : List (Binding × Target)) :
    Request.xmlMembers path [] element members = .ok element := by
  induction members with
  | nil => rfl
  | cons member rest ih =>
    obtain ⟨binding, target⟩ := member
    have hnone : Fields.get? ([] : Fields Value) binding.name = none := rfl
    rw [Request.xmlMembers, hnone]
    cases binding.location <;> exact ih

theorem CarryMembers.eq_nil {members : List (Binding × Target)}
    {attributes : List (String × String)} {children : List Node}
    (h : CarryMembers members [] attributes children) : attributes = [] ∧ children = [] := by
  have hwritten := h.written "" { name := "" } fun _ _ => List.not_mem_nil
  rw [xmlMembers_nil] at hwritten
  have helement := Except.ok.inj hwritten
  simp only [Element.mk.injEq, List.nil_append, true_and] at helement
  exact ⟨helement.1.symm, helement.2.symm⟩

/-- The body of a record is empty or a document, and either holds the same members. -/
theorem exists_body {writer : Call} (hprotocol : writer.service.protocol = .xml)
    (hroot : HasRoot writer) (hheading : CanDeclare writer.input.heading.xmlNamespace)
    (hplace : CarriedByBody writer.input.members) {record : ServiceBindings.Record}
    {attributes : List (String × String)} {children : List Node}
    (hknown : ∀ name ∈ Fields.names record.fields,
      ∃ member ∈ writer.input.members, member.1.name = name)
    (hcarries : CarryMembers writer.input.members record.fields attributes children) :
    ∃ body bytes doc, Request.body writer record = .ok body ∧ body.bytes? = some bytes ∧
      Response.decode .xml bytes = .ok doc ∧
      membersOf .xml "" doc = .ok (membersIn attributes children) := by
  obtain ⟨spaces, hrootElement, hspaces⟩ := exists_rootElement hroot hheading (rootName writer)
  rw [Request.body, hprotocol]
  dsimp only
  rw [Request.xmlBody, Layout.payload?_of_carriedByBody hplace]
  dsimp only
  rw [← rootName, hrootElement, Request.xmlDocument]
  split_ifs with hcontent
  · let root : Element := ⟨rootName writer, spaces ++ attributes, children⟩
    have hplain : root.toNode.IsPlain := hcarries.isPlain hspaces hroot.name
    rw [hcarries.written "" _ (hcarries.notMem_spaces hspaces), ok_bind]
    refine ⟨.ofText (documentText (some root)), _, root.toNode.document, rfl,
      Http.Body.bytes?_ofText _, ?_, hcarries.membersOf hspaces _ ""⟩
    rw [Response.decode, read_documentText hplain]
  · have hempty : Request.hasBodyContent writer.input.members record.fields = false := by
      simpa using hcontent
    rw [Request.fields_eq_nil hplace hknown hempty] at hcarries
    obtain ⟨rfl, rfl⟩ := hcarries.eq_nil
    have hread : read [] = .ok none := by
      rw [read, show Text.ofUtf8? [] = some "" from Text.ofUtf8?_utf8 ""]
      rfl
    refine ⟨.empty, [], .object [], rfl, rfl, ?_, rfl⟩
    rw [Response.decode, hread]

/-- A record of a compiled structure is sent as a document from which it is read back. -/
theorem read_document_of_compiled {layout : Layout} (hlayout : layout.Compiled)
    (hplace : layout.toTarget.EachStructure CarriedByBody) (helements : HasElements layout.toTarget)
    {writer reader : Call} (hwriter : writer.service.protocol = .xml ∧ writer.input = layout)
    (hroot : HasRoot writer)
    (hreader : reader.service.protocol = .xml ∧ reader.output = some layout ∧
      reader.operation.resultWrapper = none)
    {record : ServiceBindings.Record} (hfits : record.toValue.Fits IsExact layout.toTarget)
    (hsuits : SuitsElements record.toValue layout.toTarget) :
    ∃ body bytes, Request.body writer record = .ok body ∧ body.bytes? = some bytes ∧
      ∀ headers, ∃ found, Response.read reader ⟨200, headers, bytes⟩ = .ok found ∧
        found.toValue.same record.toValue = true := by
  obtain ⟨hprotocol, rfl⟩ := hwriter
  obtain ⟨hprotocol', houtput, hwrapper⟩ := hreader
  have hin : writer.input.toTarget.EachStructure InBody :=
    Target.EachStructure.and (fun _ hbody hnames => ⟨hbody, hnames⟩) _ hplace hlayout.haveOwnNames
  obtain ⟨fields, hfields, hnodup, hknown, hmembers⟩ := id hfits
  obtain rfl : record.fields = fields := (Value.structure.inj hfields).2
  obtain ⟨attributes, children, hcarries⟩ := exists_carryMembers _ record.fields hin.1 hin.2
    helements.2 hmembers (hsuits _ record.fields rfl)
  obtain ⟨body, bytes, doc, hbody, hbytes, hdecode, hdocs⟩ :=
    exists_body hprotocol hroot helements.1 hplace.1 hknown hcarries
  obtain ⟨found, hfound, hnames, hsame⟩ := hcarries.read "" _ fun _ _ => rfl
  have horigin : Response.originOf reader.service.protocol = .xml := by
    rw [hprotocol', Response.originOf]
  have hrecord : readRecord .xml "" writer.input doc =
      .ok ⟨writer.input.heading.shape, found⟩ := by
    rw [readRecord, hdocs, ok_bind, hfound]
    rfl
  refine ⟨body, bytes, hbody, hbytes, fun headers => ⟨⟨writer.input.heading.shape, found⟩, ?_, ?_⟩⟩
  · exact Response.read_of_carriedByBody hplace.1 houtput hwrapper (horigin ▸ hdecode)
      (horigin ▸ hrecord)
  · rw [hfields]
    exact Value.same_structure hin.1 hnodup hknown hnames hsame _

theorem read?_of_digit (rest : List Char) : Name.read? ('1' :: rest) = none := by
  have hrun : ('1' :: rest).takeWhile isNameChar = '1' :: rest.takeWhile isNameChar :=
    List.takeWhile_cons_of_pos (by decide)
  have hcolon (run : List Char) :
      ('1' :: run).dropWhile (· ≠ ':') = run.dropWhile (· ≠ ':') ∧
        ('1' :: run).takeWhile (· ≠ ':') = '1' :: run.takeWhile (· ≠ ':') :=
    ⟨List.dropWhile_cons_of_pos (by decide), List.takeWhile_cons_of_pos (by decide)⟩
  have hstart : isNameStart '1' = false := by decide
  unfold Name.read?
  rw [hrun]
  dsimp only
  rw [(hcolon _).1, (hcolon _).2]
  cases (rest.takeWhile isNameChar).dropWhile (· ≠ ':') with
  | nil => simp [hstart]
  | cons => simp [hstart]

/-- A root element that is named by a digit is written all the same, and cannot be read back. -/
theorem read_documentText_of_digit {root : Element} {more : List Char}
    (hname : root.name.toList = '1' :: more) :
    read (Text.utf8 (documentText (some root))) = .error .invalidXml := by
  obtain ⟨rest, hchars⟩ : ∃ rest, root.toNode.chars = '<' :: '1' :: rest := by
    rw [Element.toNode, chars_element, hname]
    exact ⟨_, rfl⟩
  have htext : (documentText (some root)).toList = declaration.toList ++ '<' :: '1' :: rest := by
    rw [documentText, String.toList_ofList, hchars]
  have hblank : (documentText (some root)).toList.all Text.isBlank = false := by
    rw [htext, List.all_append]
    rfl
  have hroot (fuel : Nat) : scanFrom (fuel + 2) .prolog ('<' :: '1' :: rest) = ([], false) := by
    have hstep : Token.step? .beforeRoot ('<' :: '1' :: rest) = none := by
      show (Name.read? ('1' :: rest)).bind _ = none
      rw [read?_of_digit]
      rfl
    have hprolog : scanFrom (fuel + 2) .prolog ('<' :: '1' :: rest) =
        scanFrom (fuel + 1) .beforeRoot ('<' :: '1' :: rest) := rfl
    rw [hprolog, scanFrom, hstep]
  have hscan : Token.scan (documentText (some root)) = ([], false) := by
    obtain ⟨steps, hlength, hscan⟩ := scans_declaration ('<' :: '1' :: rest) ⟨_, _, rfl, by decide⟩
    have hopen : (documentText (some root)).toList =
        '<' :: ((declaration.toList).tail ++ '<' :: '1' :: rest) := htext
    obtain ⟨fuel, hfuel⟩ : ∃ fuel, (documentText (some root)).toList.length + 2 =
        steps + (fuel + 2) := by
      rw [htext]
      exact ⟨(declaration.toList ++ '<' :: '1' :: rest).length - steps, by
        rw [List.length_append] at hlength ⊢
        omega⟩
    rw [scan_of_tag hopen, hfuel, htext, hscan, hroot, List.nil_append]
  rw [read, Text.ofUtf8?_utf8]
  dsimp only
  rw [if_neg (by simp [hblank]), hscan]
  rfl

/-- The description of a service with two inputs. The root element of one of them is named by a
digit. -/
def rowsDocument : Document := .object [
  ("metadata", .object [("protocol", .string "rest-xml"), ("apiVersion", .string "1")]),
  ("operations", .object [
    ("Put", .object [("input", .object [("shape", .string "Row")])]),
    ("Count", .object [("input", .object [("shape", .string "Digit")])])]),
  ("shapes", .object [
    ("Row", .object [("type", .string "structure"), ("members", .object [
      ("id", .object [("shape", .string "S"), ("xmlAttribute", .bool true)]),
      ("tags", .object [("shape", .string "L"), ("flattened", .bool true)])])]),
    ("Digit", .object [("type", .string "structure"), ("locationName", .string "1"),
      ("members", .object [("id", .object [("shape", .string "S")])])]),
    ("L", .object [("type", .string "list"), ("member", .object [("shape", .string "S")])]),
    ("S", .object [("type", .string "string")])])]

/-- The model that `rowsDocument` describes. -/
def rowsModel : ServiceModel where
  service := ⟨"Service", "1", .xml, none, none, none⟩
  shapes := [
    ("Row", ⟨"Row", .structure ⟨[⟨"id", "S", false, .body, none, true, none, false, none⟩,
      ⟨"tags", "L", false, .body, none, false, none, true, none⟩], none⟩,
      none, none, none, false⟩),
    ("Digit", ⟨"Digit", .structure ⟨[⟨"id", "S", false, .body, none, false, none, false, none⟩],
      none⟩, some "1", none, none, false⟩),
    ("L", ⟨"L", .list ⟨"S", none⟩ false, none, none, none, false⟩),
    ("S", ⟨"S", .scalar .string, none, none, none, false⟩)]
  operations := [("Put", ⟨"Put", "Row", none, "POST", "/", none, none⟩),
    ("Count", ⟨"Count", "Digit", none, "POST", "/", none, none⟩)]

set_option maxRecDepth 8000 in
theorem load_rowsDocument :
    ServiceModel.load (Json.Node.ofDocument rowsDocument).text = .ok rowsModel :=
  ServiceModel.load_text (by decide) rfl

def rowLayout : Layout where
  heading := ⟨"Row", ⟨.input, "Row"⟩, none, none⟩
  members := [
    (⟨"id", "id", "id", false, .body, true, none⟩, .scalar .string none false),
    (⟨"tags", "tags", "tags", false, .body, false, none⟩,
      .list "L" (.scalar .string none false) none true)]

def digitLayout : Layout where
  heading := ⟨"Digit", ⟨.input, "Digit"⟩, some "1", none⟩
  members := [(⟨"id", "id", "id", false, .body, false, none⟩, .scalar .string none false)]

theorem compiled_rowLayout : rowLayout.Compiled :=
  ⟨Memory, inferInstance, (Run.start ⟨rowsModel, {}⟩ {}).after [.compile "Put"], "Row",
    ⟨_, _, _, .load load_rowsDocument, rfl⟩, rfl⟩

theorem compiled_digitLayout : digitLayout.Compiled :=
  ⟨Memory, inferInstance, (Run.start ⟨rowsModel, {}⟩ {}).after [.compile "Count"], "Digit",
    ⟨_, _, _, .load load_rowsDocument, rfl⟩, rfl⟩

def echo (layout : Layout) : Call where
  service := rowsModel.service
  operation := ⟨"Put", layout.heading.shape, some layout.heading.shape, "POST", "/", none, none⟩
  ident := ⟨.client, "put"⟩
  input := layout
  output := some layout
  template := ⟨[.literal "/"], none⟩

def rowRecord : ServiceBindings.Record where
  shape := "Row"
  fields := [("tags", .list [.string "<b/>"]), ("id", .string "\"7\"")]

def digitRecord : ServiceBindings.Record where
  shape := "Digit"
  fields := [("id", .string "x")]

/-- A list of one item stands under the name of its member without brackets around it, and a text of
markup stays a text. -/
theorem read_document_of_row : rowLayout.Compiled ∧ HasRoot (echo rowLayout) ∧
    ∃ body bytes, Request.body (echo rowLayout) rowRecord = .ok body ∧ body.bytes? = some bytes ∧
      ∀ headers, ∃ found, Response.read (echo rowLayout) ⟨200, headers, bytes⟩ = .ok found ∧
        found.toValue.same rowRecord.toValue = true := by
  have hnone : CanDeclare none := by simp [CanDeclare]
  have hplace : rowLayout.toTarget.EachStructure CarriedByBody := by
    refine ⟨⟨?_, ?_⟩, trivial, trivial, trivial⟩
    · simp [rowLayout]
    · decide
  have hid : IsName "id" := by decide
  have htags : IsName "tags" := by decide
  have helements : HasElements rowLayout.toTarget := by
    refine ⟨hnone, ⟨hid, hnone, fun _ => ⟨trivial, by decide⟩⟩, trivial,
      ⟨htags, hnone, ?_⟩, ⟨?_, ?_, trivial⟩, trivial⟩
    · simp
    · simp
    · exact id
  have hroot : HasRoot (echo rowLayout) :=
    ⟨by decide, by simp [echo, rowsModel]⟩
  have hfits : rowRecord.toValue.Fits IsExact rowLayout.toTarget := by
    refine ⟨_, rfl, by decide, by decide, ?_, ?_, trivial⟩
    · rintro value ⟨⟩
      rfl
    · rintro value ⟨⟩
      refine ⟨_, rfl, fun item hmem => ?_⟩
      obtain rfl := List.mem_singleton.1 hmem
      rfl
  have hsuits : SuitsElements rowRecord.toValue rowLayout.toTarget := by
    rintro shape fields ⟨⟩
    refine ⟨?_, ?_, trivial⟩
    · rintro value ⟨⟩ s ⟨⟩
      decide
    · rintro value ⟨⟩ items ⟨⟩
      refine ⟨fun _ => List.cons_ne_nil _ _, fun item hmem => ?_⟩
      obtain rfl := List.mem_singleton.1 hmem
      rintro s ⟨⟩
      decide
  exact ⟨compiled_rowLayout, hroot, read_document_of_compiled compiled_rowLayout hplace helements
    ⟨rfl, rfl⟩ hroot ⟨rfl, rfl, rfl⟩ hfits hsuits⟩

/-- All parts of a structure have names of XML except its root, and its records are not read back.
-/
theorem read_document_of_digit_eq_error : digitLayout.Compiled ∧
    digitLayout.toTarget.EachStructure CarriedByBody ∧ HasElements digitLayout.toTarget ∧
    digitRecord.toValue.Fits IsExact digitLayout.toTarget ∧
    SuitsElements digitRecord.toValue digitLayout.toTarget ∧
    ∃ body bytes, Request.body (echo digitLayout) digitRecord = .ok body ∧
      body.bytes? = some bytes ∧ ∀ headers, Response.read (echo digitLayout) ⟨200, headers, bytes⟩ =
        .error (.payload (.xml .invalidXml)) := by
  have hnone : CanDeclare none := by simp [CanDeclare]
  have hid : IsName "id" := by decide
  refine ⟨compiled_digitLayout, ⟨⟨?_, by decide⟩, trivial, trivial⟩,
    ⟨hnone, ⟨hid, hnone, ?_⟩, trivial, trivial⟩, ⟨_, rfl, by decide, by decide, ?_, trivial⟩, ?_,
    ?_⟩
  · simp [digitLayout]
  · simp
  · rintro value ⟨⟩
    rfl
  · rintro shape fields ⟨⟩
    refine ⟨?_, trivial⟩
    rintro value ⟨⟩ s ⟨⟩
    decide
  · let root : Element := ⟨"1", [], [.element "id" [] [.text "x"]]⟩
    have hbody : Request.body (echo digitLayout) digitRecord =
        .ok (.ofText (documentText (some root))) := rfl
    have hname : root.name.toList = '1' :: [] := by decide
    have hdecode : Response.decode .xml (Text.utf8 (documentText (some root))) =
        .error (.xml .invalidXml) := by
      rw [Response.decode, read_documentText_of_digit hname]
    refine ⟨_, Text.utf8 (documentText (some root)), hbody, Http.Body.bytes?_ofText _,
      fun headers => ?_⟩
    rw [Response.read]
    show (Except.mapError Response.Error.payload
      (Response.decode .xml (Text.utf8 (documentText (some root)))) >>= _) >>= _ = _
    rw [hdecode]
    rfl

end ServiceBindings.Xml
