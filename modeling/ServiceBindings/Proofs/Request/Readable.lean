import ServiceBindings.Proofs.Request.Contents
import ServiceBindings.Proofs.Response.Body
import ServiceBindings.Proofs.Xml.Chars
import ServiceBindings.Proofs.Xml.Texts

/-! XML bodies are read back exactly when every character in them is one that a document may hold.
-/
namespace ServiceBindings.Request
open Plan (Binding Call Target)
open Xml (IsName IsText namesOf textsOf)

/-- A namespace is declared under a name. -/
def DeclaredByName (ns : Option Namespace) : Prop :=
  ∀ space ∈ ns, IsName space.attributeName

mutual

/-- What a target puts into documents has names of XML: elements, attributes and the declarations of
namespaces. -/
def HasNames : Target → Prop
  | .scalar _ _ _ => True
  | .enumeration _ => True
  | .list _ item itemName flattened =>
    (flattened = false → IsName (Plan.itemElement itemName)) ∧ HasNames item
  | .map _ _ value keyName valueName _ =>
    IsName (Plan.keyElement keyName) ∧ IsName (Plan.valueElement valueName) ∧ HasNames value
  | .structure heading members => DeclaredByName heading.xmlNamespace ∧ HaveNames members

/-- Members of the body have names of XML throughout. -/
def HaveNames : List (Binding × Target) → Prop
  | [] => True
  | (binding, target) :: rest =>
    (binding.location = .body →
      IsName binding.wireName ∧ DeclaredByName binding.xmlNamespace ∧ HasNames target) ∧
      HaveNames rest

end

/-- The documents of an operation have names of XML, at the root and inside. -/
structure NamesDocuments (call : Call) : Prop where
  /-- The input as a whole is the root. -/
  record : call.input.payload? = none →
    IsName (call.input.heading.locationName.getD call.input.heading.shape) ∧
      HasNames call.input.toTarget
  /-- One member is the root. -/
  payload : ∀ binding heading members,
    call.input.payload? = some (binding, .structure heading members) →
      IsName (payloadName binding heading) ∧ DeclaredByName binding.xmlNamespace ∧
        HasNames (.structure heading members)

/-- The text that the declaration of a namespace brings into a document. -/
def spaceTexts (ns : Option Namespace) : List String :=
  ns.toList.map (·.uri)

mutual

/-- The texts from which a document has those of a value: strings, the keys of maps, and what its
parts declare as their namespaces. -/
def sourceTexts (value : Value) : Target → List String
  | .structure heading members =>
    match value with
    | .structure _ fields => spaceTexts heading.xmlNamespace ++ memberTexts fields members
    | _ => []
  | .list _ item _ _ =>
    match value with
    | .list items => items.flatMap fun value => sourceTexts value item
    | _ => []
  | .map _ _ target _ _ _ =>
    match value with
    | .map entries => entries.flatMap fun entry => entry.1 :: sourceTexts entry.2 target
    | _ => []
  | _ =>
    match value with
    | .string s => [s]
    | _ => []

/-- The texts from which a document has those of the members of the body that have values. -/
def memberTexts (fields : Fields Value) : List (Binding × Target) → List String
  | [] => []
  | (binding, target) :: rest =>
    match binding.location, Fields.get? fields binding.name with
    | .body, some value =>
      spaceTexts binding.xmlNamespace ++ (sourceTexts value target ++ memberTexts fields rest)
    | _, _ => memberTexts fields rest

end

def Contents.texts (contents : Contents) : List String :=
  contents.root.toNode.texts ++ memberTexts contents.fields contents.members

/-- Nodes have names of XML, and other texts than the given ones are made up of characters that a
document may hold. -/
structure MadeFrom (texts : List String) (nodes : List Xml.Node) : Prop where
  names : ∀ name ∈ namesOf nodes, IsName name
  texts : ∀ s ∈ textsOf nodes, IsText s ∨ s ∈ texts

section
variable {texts : List String} {nodes others : List Xml.Node} {name text : String}
  {element : Xml.Element}

theorem madeFrom_nil (texts : List String) : MadeFrom texts [] :=
  ⟨by simp [namesOf], by simp [textsOf]⟩

theorem MadeFrom.mono {more : List String} (h : MadeFrom texts nodes) (hsubset : texts ⊆ more) :
    MadeFrom more nodes :=
  ⟨h.names, fun s hs => (h.texts s hs).imp_right fun hmem => hsubset hmem⟩

theorem MadeFrom.append (h : MadeFrom texts nodes) (h' : MadeFrom texts others) :
    MadeFrom texts (nodes ++ others) := by
  constructor
  · rw [Xml.namesOf_append, List.forall_mem_append]
    exact ⟨h.names, h'.names⟩
  · rw [Xml.textsOf_append, List.forall_mem_append]
    exact ⟨h.texts, h'.texts⟩

theorem madeFrom_text (htext : IsText text ∨ text ∈ texts) : MadeFrom texts [.text text] :=
  ⟨by simp [namesOf, Xml.Node.names], by simpa [textsOf, Xml.Node.texts] using htext⟩

theorem madeFrom_toNode : MadeFrom texts [element.toNode] ↔
    IsName element.name ∧
      (∀ entry ∈ element.attributes, IsName entry.1 ∧ (IsText entry.2 ∨ entry.2 ∈ texts)) ∧
      MadeFrom texts element.children := by
  have hiff (nodes : List Xml.Node) : MadeFrom texts nodes ↔
      (∀ name ∈ namesOf nodes, IsName name) ∧ ∀ s ∈ textsOf nodes, IsText s ∨ s ∈ texts :=
    ⟨fun h => ⟨h.names, h.texts⟩, fun h => ⟨h.1, h.2⟩⟩
  rw [hiff, hiff, Xml.Element.toNode, namesOf, textsOf, Xml.Node.names, Xml.Node.texts, namesOf,
    textsOf, List.append_nil, List.append_nil, List.forall_mem_cons]
  simp only [List.forall_mem_append, List.forall_mem_map, imp_and, forall_and]
  tauto

theorem madeFrom_named (hname : IsName name) (h : MadeFrom texts nodes) :
    MadeFrom texts [.element name [] nodes] := by
  have helement : MadeFrom texts [(⟨name, [], nodes⟩ : Xml.Element).toNode] :=
    madeFrom_toNode.2 ⟨hname, by simp, h⟩
  exact helement

theorem MadeFrom.setAttribute (h : MadeFrom texts [element.toNode]) (hname : IsName name)
    (htext : IsText text ∨ text ∈ texts) :
    MadeFrom texts [(element.setAttribute name text).toNode] := by
  obtain ⟨hroot, hattributes, hchildren⟩ := madeFrom_toNode.1 h
  refine madeFrom_toNode.2 ⟨hroot, fun entry hmem => ?_, hchildren⟩
  rcases Fields.mem_of_mem_set hmem with rfl | hmem
  · exact ⟨hname, htext⟩
  · exact hattributes entry hmem

theorem MadeFrom.push (h : MadeFrom texts [element.toNode]) (hnodes : MadeFrom texts nodes) :
    MadeFrom texts
      [{ element with children := element.children ++ nodes : Xml.Element }.toNode] := by
  obtain ⟨hroot, hattributes, hchildren⟩ := madeFrom_toNode.1 h
  exact madeFrom_toNode.2 ⟨hroot, hattributes, hchildren.append hnodes⟩

theorem madeFrom_declare {ns : Option Namespace} (hname : IsName name) (hns : DeclaredByName ns)
    (hspace : spaceTexts ns ⊆ texts) : MadeFrom texts [(declare ns { name }).toNode] := by
  have hplain : MadeFrom texts [({ name } : Xml.Element).toNode] :=
    madeFrom_named hname (madeFrom_nil texts)
  cases ns with
  | none => exact hplain
  | some ns => exact hplain.setAttribute (hns ns rfl) (.inr (hspace List.mem_cons_self))

theorem DeclaredByName.or {ns other : Option Namespace} (h : DeclaredByName ns)
    (h' : DeclaredByName other) : DeclaredByName (ns.or other) := by
  cases ns with
  | none => exact h'
  | some ns => exact h

theorem spaceTexts_or_subset {ns other : Option Namespace} (h : spaceTexts ns ⊆ texts)
    (h' : spaceTexts other ⊆ texts) : spaceTexts (ns.or other) ⊆ texts := by
  cases ns with
  | none => exact h'
  | some ns => exact h

theorem madeFrom_flatten {parts : List (List Xml.Node)}
    (h : ∀ part ∈ parts, MadeFrom texts part) : MadeFrom texts parts.flatten := by
  induction parts with
  | nil => exact madeFrom_nil texts
  | cons part rest ih =>
    obtain ⟨hpart, hrest⟩ := List.forall_mem_cons.1 h
    exact hpart.append (ih hrest)

/-- What is written for items is made from texts if what is written for each of them is. -/
theorem madeFrom_eachItem {step : String → Value → Except Error (List Xml.Node)} {path : String}
    {position : Nat} {items : List Value} (h : eachItem step path position items = .ok nodes)
    (hstep : ∀ item ∈ items, ∀ path part, step path item = .ok part → MadeFrom texts part) :
    MadeFrom texts nodes := by
  obtain ⟨parts, rfl, hparts⟩ := exists_parts_of_eachItem h
  refine madeFrom_flatten fun part hin => ?_
  obtain ⟨item, hmem, path, hpart⟩ := exists_of_mem_forall₂_right hparts hin
  exact hstep item hmem path part hpart

/-- What is written for entries is made from texts if what is written for each of them is. -/
theorem madeFrom_eachEntry {step : String → String → Value → Except Error (List Xml.Node)}
    {path : String} {entries : List (String × Value)}
    (h : eachEntry step path entries = .ok nodes)
    (hstep : ∀ entry ∈ entries, ∀ path part, step entry.1 path entry.2 = .ok part →
      MadeFrom texts part) :
    MadeFrom texts nodes := by
  obtain ⟨parts, rfl, hparts⟩ := exists_parts_of_eachEntry h
  refine madeFrom_flatten fun part hin => ?_
  obtain ⟨entry, hmem, path, hpart⟩ := exists_of_mem_forall₂_right hparts hin
  exact hstep entry hmem path part hpart

/-- An entry of a map is an element with its key and what is written for its value. -/
theorem madeFrom_entry {keyName key : String} (hname : IsName name) (hkeyName : IsName keyName)
    (hkey : key ∈ texts) (h : MadeFrom texts nodes) :
    MadeFrom texts [.element name [] ((Xml.Element.ofText keyName key).toNode :: nodes)] := by
  have hkeyNode : MadeFrom texts [(Xml.Element.ofText keyName key).toNode] :=
    madeFrom_named hkeyName (madeFrom_text (.inr hkey))
  exact madeFrom_named hname (hkeyNode.append h)

end

/-- The text of a value without parts is one of its sources if it is no text of a document. -/
theorem isText_or_mem_sourceTexts {form : Time.Format} {path : String} {target : Target}
    {value : Value} {text : String} (h : scalarText form path target value = .ok text) :
    IsText text ∨ text ∈ sourceTexts value target := by
  rcases Xml.eq_string_of_scalarText h with htext | rfl
  · exact .inl htext
  · cases target with
    | scalar | enumeration => exact .inr List.mem_cons_self
    | list | map | «structure» => cases h

mutual

/-- A value becomes nodes that are made from its texts. -/
theorem madeFrom_xmlNodes (target : Target) {name : String} {ns : Option Namespace}
    {path : String} {value : Value} {nodes : List Xml.Node} {texts : List String}
    (hname : IsName name) (hns : DeclaredByName ns) (hnames : HasNames target)
    (hspace : spaceTexts ns ⊆ texts) (hsources : sourceTexts value target ⊆ texts)
    (h : xmlNodes name ns path value target = .ok nodes) : MadeFrom texts nodes := by
  cases target with
  | scalar | enumeration =>
    rw [xmlNodes_of_isSimple name ns path value (by trivial)] at h
    obtain ⟨text, htext, rfl⟩ := map_eq_ok.1 h
    refine (madeFrom_declare hname hns hspace).push (madeFrom_text ?_)
    exact (isText_or_mem_sourceTexts htext).imp_right fun hmem => hsources hmem
  | «structure» heading members =>
    cases value with
    | «structure» shape fields =>
      rw [xmlNodes] at h
      obtain ⟨root, hroot, h⟩ := bind_eq_ok.1 h
      obtain rfl := Except.ok.inj h
      rw [sourceTexts, List.append_subset] at hsources
      have hdeclare := madeFrom_declare hname (hns.or hnames.1)
        (spaceTexts_or_subset hspace hsources.1)
      exact madeFrom_xmlMembers members hnames.2 hsources.2 hdeclare hroot
    | _ => cases h
  | list shape item itemName flattened =>
    cases value with
    | list items =>
      have hitem : ∀ value ∈ items, sourceTexts value item ⊆ texts := fun value hmem s hs =>
        hsources (List.mem_flatMap.2 ⟨value, hmem, hs⟩)
      rw [xmlNodes] at h
      cases flattened with
      | true =>
        exact madeFrom_eachItem h fun value hmem _ _ hpart =>
          madeFrom_xmlNodes item hname hns hnames.2 hspace (hitem value hmem) hpart
      | false =>
        obtain ⟨written, hwritten, h⟩ := bind_eq_ok.1 h
        obtain rfl := Except.ok.inj h
        have hmade : MadeFrom texts written :=
          madeFrom_eachItem hwritten fun value hmem _ _ hpart =>
            madeFrom_xmlNodes item (hnames.1 rfl) (by simp [DeclaredByName]) hnames.2
              (by simp [spaceTexts]) (hitem value hmem) hpart
        exact madeFrom_named hname hmade
    | _ => cases h
  | map shape key target keyName valueName flattened =>
    cases value with
    | map entries =>
      have hentry : ∀ entry ∈ entries, entry.1 ∈ texts ∧ sourceTexts entry.2 target ⊆ texts := by
        intro entry hmem
        rw [← List.cons_subset]
        exact fun s hs => hsources (List.mem_flatMap.2 ⟨entry, hmem, hs⟩)
      have hentryName : IsName (if flattened then name else "entry") := by
        split_ifs
        · exact hname
        · decide
      rw [xmlNodes] at h
      obtain ⟨written, hwritten, h⟩ := bind_eq_ok.1 h
      obtain rfl := Except.ok.inj h
      have hmade : MadeFrom texts written := by
        refine madeFrom_eachEntry hwritten fun entry hmem _ _ hpart => ?_
        obtain ⟨inner, hinner, hpart⟩ := bind_eq_ok.1 hpart
        obtain rfl := Except.ok.inj hpart
        obtain ⟨hkey, hvalue⟩ := hentry entry hmem
        have hvalueNodes := madeFrom_xmlNodes target hnames.2.1 (by simp [DeclaredByName])
          hnames.2.2 (by simp [spaceTexts]) hvalue hinner
        exact madeFrom_entry hentryName hnames.1 hkey hvalueNodes
      cases flattened with
      | true => exact hmade
      | false => exact madeFrom_named hname hmade
    | _ => cases h

/-- Members leave an element made from their texts and those that it was made from. -/
theorem madeFrom_xmlMembers (members : List (Binding × Target)) {path : String}
    {fields : Fields Value} {element root : Xml.Element} {texts : List String}
    (hnames : HaveNames members) (hsources : memberTexts fields members ⊆ texts)
    (helement : MadeFrom texts [element.toNode])
    (h : xmlMembers path fields element members = .ok root) : MadeFrom texts [root.toNode] := by
  match members with
  | [] =>
    obtain rfl := Except.ok.inj h
    exact helement
  | (binding, target) :: rest =>
    rw [xmlMembers] at h
    rw [memberTexts] at hsources
    split at h
    · next value hlocation hvalue =>
      rw [hlocation, hvalue] at hsources
      dsimp only at hsources
      rw [List.append_subset, List.append_subset] at hsources
      obtain ⟨hspace, htarget, hrest⟩ := hsources
      obtain ⟨hname, hns, hpart⟩ := hnames.1 hlocation
      dsimp only at h
      split_ifs at h with hattribute
      · obtain ⟨text, htext, h⟩ := bind_eq_ok.1 h
        refine madeFrom_xmlMembers rest hnames.2 hrest (helement.setAttribute hname ?_) h
        exact (isText_or_mem_sourceTexts htext).imp_right fun hmem => htarget hmem
      · obtain ⟨nodes, hnodes, h⟩ := bind_eq_ok.1 h
        have hmade := madeFrom_xmlNodes target hname hns hpart hspace htarget hnodes
        exact madeFrom_xmlMembers rest hnames.2 hrest (helement.push hmade) h
    · next hother =>
      split at hsources
      · next value hlocation hvalue => exact (hother value hlocation hvalue).elim
      · exact madeFrom_xmlMembers rest hnames.2 hsources helement h

end

theorem madeFrom_rootElement (call : Call) {name : String} {ns : Option Namespace}
    (hname : IsName name) (hns : DeclaredByName ns) :
    MadeFrom (rootElement call name ns).toNode.texts [(rootElement call name ns).toNode] := by
  have hplain (texts : List String) : MadeFrom texts [({ name } : Xml.Element).toNode] :=
    madeFrom_named hname (madeFrom_nil texts)
  unfold rootElement
  cases ns with
  | some ns => exact (hplain _).setAttribute (hns ns rfl) (.inr List.mem_cons_self)
  | none =>
    cases call.service.xmlNamespace with
    | some uri => exact (hplain _).setAttribute (by decide) (.inr List.mem_cons_self)
    | none => exact hplain _

/-- A document is made from its texts. -/
theorem madeFrom_of_contents? {call : Call} {record : Record} {contents : Contents}
    {root : Xml.Element} (hnames : NamesDocuments call)
    (hcontents : contents? call record = some contents)
    (hroot : xmlMembers contents.path contents.fields contents.root contents.members = .ok root) :
    MadeFrom contents.texts [root.toNode] := by
  obtain ⟨hmembers, hmade⟩ : HaveNames contents.members ∧
      MadeFrom contents.root.toNode.texts [contents.root.toNode] := by
    unfold contents? at hcontents
    split at hcontents
    · next hpayload =>
      obtain ⟨hname, hinput⟩ := hnames.record hpayload
      obtain rfl := Option.some.inj hcontents
      exact ⟨hinput.2, madeFrom_rootElement call hname hinput.1⟩
    · next binding heading members hpayload =>
      obtain ⟨hname, hns, htarget⟩ := hnames.payload binding heading members hpayload
      split at hcontents
      · obtain rfl := Option.some.inj hcontents
        exact ⟨htarget.2, madeFrom_rootElement call hname (hns.or htarget.1)⟩
      · cases hcontents
    · cases hcontents
  exact madeFrom_xmlMembers contents.members hmembers (List.subset_append_right _ _)
    (hmade.mono (List.subset_append_left _ _)) hroot

/-- A body that is a document is read back exactly when all of its texts are made up of characters
that a document may hold. Those that are not are texts of the record or namespaces. -/
theorem read_body_iff {call : Call} {record : Record} {body : Http.Body}
    (hprotocol : call.service.protocol = .xml) (hdocument : SendsDocument call)
    (hnames : NamesDocuments call) (hbody : Request.body call record = .ok body)
    (hpresent : body.isPresent = true) :
    ∃ contents root bytes, contents? call record = some contents ∧
      xmlMembers contents.path contents.fields contents.root contents.members = .ok root ∧
      body = .ofText (Xml.documentText (some root)) ∧ body.bytes? = some bytes ∧
      ((∃ found, Xml.read bytes = .ok (some found)) ↔ ∀ s ∈ root.toNode.texts, IsText s) ∧
      ∀ s ∈ root.toNode.texts, IsText s ∨ s ∈ contents.texts := by
  rcases body_cases hprotocol hdocument hbody with
    ⟨rfl, -⟩ | ⟨contents, root, hcontents, -, hroot, rfl⟩
  · cases hpresent
  have hmade := madeFrom_of_contents? hnames hcontents hroot
  refine ⟨contents, root, _, hcontents, hroot, rfl, Http.Body.bytes?_ofText _, ?_, ?_⟩
  · exact Xml.read_documentText_iff fun name hmem =>
      hmade.names name (by simpa [namesOf] using hmem)
  · exact fun s hs => hmade.texts s (by simpa [textsOf] using hs)

theorem isPresent_documentText (root : Xml.Element) :
    (Http.Body.ofText (Xml.documentText (some root))).isPresent = true := by
  have hne : Xml.documentText (some root) ≠ "" := by
    intro h
    have htext : (Xml.documentText (some root)).toList =
        Xml.declaration.toList ++ root.toNode.chars := String.toList_ofList
    rw [h] at htext
    cases htext
  rw [Http.Body.ofText, if_neg hne]
  rfl

theorem namesDocuments_noteCall : NamesDocuments noteCall := by
  have hid : IsName "id" := by decide
  have htags : IsName "tags" := by decide
  have htext : IsName "text" := by decide
  have hnone : DeclaredByName none := by simp [DeclaredByName]
  refine ⟨fun _ => ⟨by decide, hnone, ?_⟩, fun _ _ _ h => by cases h⟩
  exact ⟨fun _ => ⟨hid, hnone, trivial⟩, fun _ => ⟨htags, hnone, by simp, trivial⟩,
    fun _ => ⟨htext, hnone, trivial⟩, trivial⟩

/-- Markup and line ends in strings do no harm. -/
theorem read_body_of_note :
    let record : Record := ⟨"Note", [("id", .string "\"<\r"), ("text", .string "]]></text>")]⟩
    noteCall.Compiled ∧ NamesDocuments noteCall ∧ ∃ body bytes found,
      Request.body noteCall record = .ok body ∧ body.bytes? = some bytes ∧
        Xml.read bytes = .ok (some found) := by
  intro record
  let root : Xml.Element :=
    ⟨"Note", [("id", "\"<\r")], [.element "text" [] [.text "]]></text>"]]⟩
  have hbody : Request.body noteCall record = .ok (.ofText (Xml.documentText (some root))) := rfl
  obtain ⟨contents, root, bytes, hcontents, hroot, -, hbytes, hread, -⟩ :=
    read_body_iff rfl sendsDocument_noteCall namesDocuments_noteCall hbody
      (isPresent_documentText root)
  obtain rfl := Option.some.inj hcontents
  obtain rfl := Except.ok.inj hroot
  obtain ⟨found, hfound⟩ := hread.2 (by decide)
  exact ⟨compiled_noteCall, namesDocuments_noteCall, _, bytes, found, hbody, hbytes, hfound⟩

/-- A string of one control character is all that is sent, and the document is refused. -/
theorem read_body_of_control_character :
    let record : Record := ⟨"Note", [("text", .string "\x01")]⟩
    noteCall.Compiled ∧ noteCall.service.protocol = .xml ∧ SendsDocument noteCall ∧
      NamesDocuments noteCall ∧
      Request.body noteCall record = .ok (.ofText
        "<?xml version=\"1.0\" encoding=\"UTF-8\"?>\n<Note><text>\x01</text></Note>") ∧
      Xml.read (Text.utf8
        "<?xml version=\"1.0\" encoding=\"UTF-8\"?>\n<Note><text>\x01</text></Note>") =
          .error .invalidXml := by
  refine ⟨compiled_noteCall, rfl, sendsDocument_noteCall, namesDocuments_noteCall, rfl, ?_⟩
  rw [Xml.read, Text.ofUtf8?_utf8]
  rfl

end ServiceBindings.Request
