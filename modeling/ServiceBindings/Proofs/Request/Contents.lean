import ServiceBindings.Proofs.Generate.Compiled
import ServiceBindings.Proofs.Model.Texts
import ServiceBindings.Proofs.Request.Kinds
import ServiceBindings.Request.Basic

/-! What XML bodies are made from. A body is empty when no member is there for it, and a member that
is there may still leave nothing in it. -/
namespace ServiceBindings.Request
open Generate (Memory Run)
open Plan (Binding Call Layout Target)

/-- What a document is made from: a root element, and the members that it gets. -/
structure Contents where
  path : String
  root : Xml.Element
  fields : Fields Value
  members : List (Binding × Target)

/-- What the document of a record is made from, if a structure makes up the body or none does. -/
def contents? (call : Call) (record : Record) : Option Contents :=
  match call.input.payload? with
  | none => some {
      path := ""
      root := rootElement call (call.input.heading.locationName.getD call.input.heading.shape)
        call.input.heading.xmlNamespace
      fields := record.fields
      members := call.input.members }
  | some (binding, .structure heading members) =>
    match record.get? binding.name with
    | some (.structure _ fields) => some {
        path := binding.name
        root := rootElement call (payloadName binding heading)
          (binding.xmlNamespace.or heading.xmlNamespace)
        fields
        members }
    | _ => none
  | some _ => none

/-- No member makes up the whole body without being a structure. -/
def SendsDocument (call : Call) : Prop :=
  ∀ binding target, call.input.payload? = some (binding, target) →
    ∃ heading members, target = .structure heading members

/-- A member of the body with its value. -/
structure Part where
  binding : Binding
  target : Target
  value : Value

/-- The members of the body that have values, in the order of their declaration. -/
def partsOf (fields : Fields Value) : List (Binding × Target) → List Part
  | [] => []
  | (binding, target) :: rest =>
    match binding.location, Fields.get? fields binding.name with
    | .body, some value => ⟨binding, target, value⟩ :: partsOf fields rest
    | _, _ => partsOf fields rest

/-- The members of a document that have values. -/
def Contents.parts (contents : Contents) : List Part :=
  partsOf contents.fields contents.members

theorem hasBodyContent_eq_true {fields : Fields Value} {members : List (Binding × Target)} :
    hasBodyContent members fields = true ↔ partsOf fields members ≠ [] := by
  induction members with
  | nil => simp [hasBodyContent, partsOf]
  | cons member rest ih =>
    obtain ⟨binding, target⟩ := member
    rw [hasBodyContent, List.any_cons, ← hasBodyContent, Bool.or_eq_true, ih, partsOf]
    cases hlocation : binding.location <;> cases hvalue : Fields.get? fields binding.name <;> simp

/-- The writing of members does nothing for those without values. -/
theorem xmlMembers_cons (path : String) (fields : Fields Value) (element : Xml.Element)
    (binding : Binding) (target : Target) (rest : List (Binding × Target)) :
    (∃ value, partsOf fields ((binding, target) :: rest) =
        ⟨binding, target, value⟩ :: partsOf fields rest ∧
      xmlMembers path fields element ((binding, target) :: rest) =
        if binding.xmlAttribute then do
          let text ← scalarText .dateTime (partPath path binding.name) target value
          xmlMembers path fields (element.setAttribute binding.wireName text) rest
        else do
          let nodes ← xmlNodes binding.wireName binding.xmlNamespace
            (partPath path binding.name) value target
          xmlMembers path fields { element with children := element.children ++ nodes } rest) ∨
    (partsOf fields ((binding, target) :: rest) = partsOf fields rest ∧
      xmlMembers path fields element ((binding, target) :: rest) =
        xmlMembers path fields element rest) := by
  rw [xmlMembers, partsOf]
  cases hlocation : binding.location <;> cases hvalue : Fields.get? fields binding.name <;>
    first
    | exact .inr ⟨rfl, rfl⟩
    | exact .inl ⟨_, rfl, rfl⟩

/-- A body is that of the contents, and empty without any. -/
theorem xmlDocument_of_body {call : Call} {record : Record} {body : Http.Body}
    (hprotocol : call.service.protocol = .xml) (hdocument : SendsDocument call)
    (hbody : Request.body call record = .ok body) :
    (contents? call record = none ∧ body = .empty) ∨
    ∃ contents, contents? call record = some contents ∧
      xmlDocument contents.path contents.root contents.fields contents.members = .ok body := by
  rw [Request.body, hprotocol] at hbody
  dsimp only at hbody
  unfold xmlBody at hbody
  unfold contents?
  cases hpayload : call.input.payload? with
  | none =>
    rw [hpayload] at hbody
    exact .inr ⟨_, rfl, hbody⟩
  | some payload =>
    obtain ⟨binding, target⟩ := payload
    obtain ⟨heading, members, rfl⟩ := hdocument binding target hpayload
    rw [hpayload] at hbody
    dsimp only at hbody ⊢
    cases hvalue : record.get? binding.name with
    | none =>
      rw [hvalue] at hbody
      exact .inl ⟨rfl, (Except.ok.inj hbody).symm⟩
    | some value =>
      rw [hvalue] at hbody
      cases value with
      | «structure» shape fields => exact .inr ⟨_, rfl, hbody⟩
      | _ => cases hbody

/-- A body is empty when no value is there for it, and else it is the document of its contents. -/
theorem body_cases {call : Call} {record : Record} {body : Http.Body}
    (hprotocol : call.service.protocol = .xml) (hdocument : SendsDocument call)
    (hbody : Request.body call record = .ok body) :
    (body = .empty ∧ ∀ contents, contents? call record = some contents → contents.parts = []) ∨
    ∃ contents root, contents? call record = some contents ∧ contents.parts ≠ [] ∧
      xmlMembers contents.path contents.fields contents.root contents.members = .ok root ∧
      body = .ofText (Xml.documentText (some root)) := by
  rcases xmlDocument_of_body hprotocol hdocument hbody with ⟨hnone, rfl⟩ | ⟨contents, hcontents, h⟩
  · exact .inl ⟨rfl, fun contents hcontents => by cases hnone.symm.trans hcontents⟩
  · unfold xmlDocument at h
    split_ifs at h with hholds
    · obtain ⟨root, hroot, h⟩ := bind_eq_ok.1 h
      exact .inr ⟨contents, root, hcontents, hasBodyContent_eq_true.1 hholds, hroot,
        (Except.ok.inj h).symm⟩
    · refine .inl ⟨(Except.ok.inj h).symm, fun other hother => ?_⟩
      obtain rfl := Option.some.inj (hcontents.symm.trans hother)
      exact not_not.1 (mt hasBodyContent_eq_true.2 hholds)

/-- A value that leaves nothing in content: the items of a flattened list that leave nothing
themselves, or the entries of a flattened map without any. -/
def leavesNothing (value : Value) : Target → Bool
  | .list _ item _ flattened =>
    match value with
    | .list items => flattened && items.all fun value => leavesNothing value item
    | _ => false
  | .map _ _ _ _ _ flattened =>
    match value with
    | .map entries => flattened && entries.isEmpty
    | _ => false
  | _ => false

section
variable {α : Type}

/-- What is written for items is put together from what is written for each. -/
theorem exists_parts_of_eachItem {step : String → Value → Except Error (List α)} {path : String}
    {position : Nat} {items : List Value} {written : List α}
    (h : eachItem step path position items = .ok written) : ∃ parts : List (List α),
      written = parts.flatten ∧
        List.Forall₂ (fun item part => ∃ path, step path item = .ok part) items parts := by
  induction items generalizing position written with
  | nil => exact ⟨[], (Except.ok.inj h).symm, .nil⟩
  | cons item rest ih =>
    rw [eachItem] at h
    obtain ⟨first, hfirst, h⟩ := bind_eq_ok.1 h
    obtain ⟨others, hothers, h⟩ := bind_eq_ok.1 h
    obtain ⟨parts, rfl, hparts⟩ := ih hothers
    exact ⟨first :: parts, (Except.ok.inj h).symm, .cons ⟨_, hfirst⟩ hparts⟩

/-- What is written for entries is put together from what is written for each. -/
theorem exists_parts_of_eachEntry {step : String → String → Value → Except Error (List α)}
    {path : String} {entries : List (String × Value)} {written : List α}
    (h : eachEntry step path entries = .ok written) : ∃ parts : List (List α),
      written = parts.flatten ∧
        List.Forall₂ (fun entry part => ∃ path, step entry.1 path entry.2 = .ok part) entries
          parts := by
  induction entries generalizing written with
  | nil => exact ⟨[], (Except.ok.inj h).symm, .nil⟩
  | cons entry rest ih =>
    rw [eachEntry] at h
    obtain ⟨first, hfirst, h⟩ := bind_eq_ok.1 h
    obtain ⟨others, hothers, h⟩ := bind_eq_ok.1 h
    obtain ⟨parts, rfl, hparts⟩ := ih hothers
    exact ⟨first :: parts, (Except.ok.inj h).symm, .cons ⟨_, hfirst⟩ hparts⟩

/-- Parts put together are nothing when each of them is left out. -/
theorem flatten_eq_nil_iff_all {β : Type} {leaves : β → Bool} {items : List β}
    {parts : List (List α)}
    (h : List.Forall₂ (fun item part => part = [] ↔ leaves item = true) items parts) :
    parts.flatten = [] ↔ items.all leaves = true := by
  induction h with
  | nil => simp
  | cons hpart _ ih =>
    rw [List.flatten_cons, List.append_eq_nil_iff, List.all_cons, Bool.and_eq_true, hpart, ih]

end

/-- Exactly the values that leave nothing become no content. -/
theorem xmlNodes_eq_nil (target : Target) {name : String} {ns : Option Namespace} {path : String}
    {value : Value} {nodes : List Xml.Node} (h : xmlNodes name ns path value target = .ok nodes) :
    nodes = [] ↔ leavesNothing value target = true := by
  cases target with
  | scalar | enumeration =>
    rw [xmlNodes_of_isSimple name ns path value (by trivial)] at h
    obtain ⟨text, -, rfl⟩ := map_eq_ok.1 h
    simp [leavesNothing]
  | «structure» heading members =>
    cases value with
    | «structure» shape fields =>
      rw [xmlNodes] at h
      obtain ⟨element, -, h⟩ := bind_eq_ok.1 h
      obtain rfl := Except.ok.inj h
      simp [leavesNothing]
    | _ => cases h
  | list shape item itemName flattened =>
    cases value with
    | list items =>
      rw [xmlNodes] at h
      cases flattened with
      | false =>
        obtain ⟨written, -, h⟩ := bind_eq_ok.1 h
        obtain rfl := Except.ok.inj h
        simp [leavesNothing]
      | true =>
        obtain ⟨parts, rfl, hparts⟩ := exists_parts_of_eachItem h
        rw [leavesNothing, Bool.true_and]
        exact flatten_eq_nil_iff_all (hparts.imp fun value part ⟨_, hpart⟩ =>
          xmlNodes_eq_nil item hpart)
    | _ => cases h
  | map shape key target keyName valueName flattened =>
    cases value with
    | map entries =>
      rw [xmlNodes] at h
      obtain ⟨written, hwritten, h⟩ := bind_eq_ok.1 h
      obtain rfl := Except.ok.inj h
      cases flattened with
      | false => simp [leavesNothing]
      | true =>
        obtain ⟨parts, rfl, hparts⟩ := exists_parts_of_eachEntry hwritten
        rw [if_pos rfl, leavesNothing, Bool.true_and]
        cases hparts with
        | nil => simp
        | cons hfirst _ =>
          obtain ⟨path, hfirst⟩ := hfirst
          obtain ⟨nodes, -, hfirst⟩ := bind_eq_ok.1 hfirst
          obtain rfl := Except.ok.inj hfirst
          simp
    | _ => cases h

/-- A member is an attribute of the element around it, or becomes content of it. -/
def Part.leaves (part : Part) : Bool :=
  part.binding.xmlAttribute || !leavesNothing part.value part.target

/-- What the writing of members does to an element: attributes stay, those of members are set, and
content comes from the other members that leave some. -/
structure Adds (parts : List Part) (element root : Xml.Element) : Prop where
  stays : ∀ name, (element.attribute? name).isSome → (root.attribute? name).isSome
  attributes : ∀ part ∈ parts, part.binding.xmlAttribute = true →
    (root.attribute? part.binding.wireName).isSome
  children : root.children = [] ↔ element.children = [] ∧
    ∀ part ∈ parts, part.binding.xmlAttribute = true ∨ part.leaves = false

theorem isSome_setAttribute (element : Xml.Element) (name text other : String) :
    ((element.setAttribute name text).attribute? other).isSome ↔
      other = name ∨ (element.attribute? other).isSome := by
  rw [Xml.Element.setAttribute, Xml.Element.attribute?, Fields.get?_set]
  split_ifs with h <;> simp [h, Xml.Element.attribute?]

theorem Adds.setAttribute {parts : List Part} {element root : Xml.Element} {part : Part}
    {text : String} (h : Adds parts (element.setAttribute part.binding.wireName text) root)
    (hattribute : part.binding.xmlAttribute = true) : Adds (part :: parts) element root := by
  refine ⟨fun name hname => h.stays name ((isSome_setAttribute ..).2 (.inr hname)), ?_, ?_⟩
  · rw [List.forall_mem_cons]
    exact ⟨fun _ => h.stays _ ((isSome_setAttribute ..).2 (.inl rfl)), h.attributes⟩
  · rw [List.forall_mem_cons, h.children]
    simp [hattribute, Xml.Element.setAttribute]

theorem Adds.append {parts : List Part} {element root : Xml.Element} {part : Part}
    {nodes : List Xml.Node}
    (h : Adds parts { element with children := element.children ++ nodes } root)
    (hattribute : part.binding.xmlAttribute = false)
    (hnodes : nodes = [] ↔ leavesNothing part.value part.target = true) :
    Adds (part :: parts) element root := by
  refine ⟨h.stays, ?_, ?_⟩
  · rw [List.forall_mem_cons]
    exact ⟨fun hset => by simp [hattribute] at hset, h.attributes⟩
  · rw [List.forall_mem_cons, h.children, List.append_eq_nil_iff, hnodes, Part.leaves]
    simp [hattribute, and_assoc]

theorem adds_of_xmlMembers {path : String} {fields : Fields Value}
    {members : List (Binding × Target)} {element root : Xml.Element}
    (h : xmlMembers path fields element members = .ok root) :
    Adds (partsOf fields members) element root := by
  induction members generalizing element with
  | nil =>
    obtain rfl := Except.ok.inj h
    exact ⟨fun _ h => h, by simp [partsOf], by simp [partsOf]⟩
  | cons member rest ih =>
    obtain ⟨binding, target⟩ := member
    rcases xmlMembers_cons path fields element binding target rest with
      ⟨value, hparts, hwrite⟩ | ⟨hparts, hwrite⟩
    · rw [hwrite] at h
      rw [hparts]
      split_ifs at h with hattribute
      · obtain ⟨text, -, h⟩ := bind_eq_ok.1 h
        exact (ih h).setAttribute hattribute
      · obtain ⟨nodes, hnodes, h⟩ := bind_eq_ok.1 h
        exact (ih h).append (by simpa using hattribute) (xmlNodes_eq_nil target hnodes)
    · rw [hwrite] at h
      rw [hparts]
      exact ih h

theorem children_rootElement (call : Call) (name : String) (ns : Option Namespace) :
    (rootElement call name ns).children = [] := by
  unfold rootElement declare
  split <;> rfl

theorem children_root_of_contents? {call : Call} {record : Record} {contents : Contents}
    (h : contents? call record = some contents) : contents.root.children = [] := by
  unfold contents? at h
  split at h
  · exact Option.some.inj h ▸ children_rootElement ..
  · split at h
    · exact Option.some.inj h ▸ children_rootElement ..
    · cases h
  · cases h

/-- The root has content, or an attribute that is that of a member. -/
def HoldsSomething (parts : List Part) (root : Xml.Element) : Prop :=
  root.children ≠ [] ∨ ∃ part ∈ parts, part.binding.xmlAttribute = true ∧
    (root.attribute? part.binding.wireName).isSome

/-- A body is empty when no member has a value, and a document if one does. Its root then holds
something exactly when one of these members is an attribute or leaves content: it holds nothing when
all of them are flattened lists and maps that leave none. -/
theorem body_empty_or_document {call : Call} {record : Record} {body : Http.Body}
    (hprotocol : call.service.protocol = .xml) (hdocument : SendsDocument call)
    (hbody : Request.body call record = .ok body) :
    (body = .empty ∧ ∀ contents, contents? call record = some contents → contents.parts = []) ∨
    ∃ contents root, contents? call record = some contents ∧ contents.parts ≠ [] ∧
      xmlMembers contents.path contents.fields contents.root contents.members = .ok root ∧
      body = .ofText (Xml.documentText (some root)) ∧
      (HoldsSomething contents.parts root ↔ ∃ part ∈ contents.parts, part.leaves = true) := by
  rcases body_cases hprotocol hdocument hbody with
    hempty | ⟨contents, root, hcontents, hparts, hroot, htext⟩
  · exact .inl hempty
  refine .inr ⟨contents, root, hcontents, hparts, hroot, htext, ?_⟩
  have hadds : Adds contents.parts contents.root root := adds_of_xmlMembers hroot
  constructor
  · rintro (hchildren | ⟨part, hpart, hattribute, -⟩)
    · by_contra hnone
      refine hchildren (hadds.children.2 ⟨children_root_of_contents? hcontents, fun part hpart =>
        .inr ?_⟩)
      exact Bool.eq_false_iff.2 fun hleaves => hnone ⟨part, hpart, hleaves⟩
    · exact ⟨part, hpart, by rw [Part.leaves, hattribute, Bool.true_or]⟩
  · rintro ⟨part, hpart, hleaves⟩
    by_cases hattribute : part.binding.xmlAttribute = true
    · exact .inr ⟨part, hpart, hattribute, hadds.attributes part hpart hattribute⟩
    · refine .inl fun hchildren => ?_
      rcases (hadds.children.1 hchildren).2 part hpart with hset | hnone
      · exact hattribute hset
      · cases hnone.symm.trans hleaves

/-- The description of an operation whose input has an attribute, a flattened list and a text. -/
def noteDocument : Document := .object [
  ("metadata", .object [("protocol", .string "rest-xml"), ("apiVersion", .string "1")]),
  ("operations", .object [("Put", .object [("input", .object [("shape", .string "Note")])])]),
  ("shapes", .object [
    ("Note", .object [("type", .string "structure"), ("members", .object [
      ("id", .object [("shape", .string "S"), ("xmlAttribute", .bool true)]),
      ("tags", .object [("shape", .string "L"), ("flattened", .bool true)]),
      ("text", .object [("shape", .string "S")])])]),
    ("L", .object [("type", .string "list"), ("member", .object [("shape", .string "S")])]),
    ("S", .object [("type", .string "string")])])]

/-- The model that `noteDocument` describes. -/
def noteModel : ServiceModel where
  service := ⟨"Service", "1", .xml, none, none, none⟩
  shapes := [
    ("Note", ⟨"Note", .structure ⟨[⟨"id", "S", false, .body, none, true, none, false, none⟩,
      ⟨"tags", "L", false, .body, none, false, none, true, none⟩,
      ⟨"text", "S", false, .body, none, false, none, false, none⟩], none⟩,
      none, none, none, false⟩),
    ("L", ⟨"L", .list ⟨"S", none⟩ false, none, none, none, false⟩),
    ("S", ⟨"S", .scalar .string, none, none, none, false⟩)]
  operations := [("Put", ⟨"Put", "Note", none, "POST", "/", none, none⟩)]

/-- The operation of `noteModel`. -/
def noteCall : Call where
  service := noteModel.service
  operation := ⟨"Put", "Note", none, "POST", "/", none, none⟩
  ident := ⟨.client, "put"⟩
  input := {
    heading := ⟨"Note", ⟨.input, "Note"⟩, none, none⟩
    members := [
      (⟨"id", "id", "id", false, .body, true, none⟩, .scalar .string none false),
      (⟨"tags", "tags", "tags", false, .body, false, none⟩,
        .list "L" (.scalar .string none false) none true),
      (⟨"text", "text", "text", false, .body, false, none⟩, .scalar .string none false)] }
  output := none
  template := ⟨[.literal "/"], none⟩

set_option maxRecDepth 8000 in
theorem load_noteDocument :
    ServiceModel.load (Json.Node.ofDocument noteDocument).text = .ok noteModel :=
  ServiceModel.load_text (by decide) rfl

theorem compiled_noteCall : noteCall.Compiled :=
  ⟨Memory, inferInstance, Run.start ⟨noteModel, {}⟩ {}, "Put",
    ⟨_, _, [], .load load_noteDocument, rfl⟩, rfl⟩

theorem sendsDocument_noteCall : SendsDocument noteCall := fun _ _ h => by cases h

/-- Without tags, the text still is content. -/
theorem body_of_note :
    let record : Record := ⟨"Note", [("tags", .list []), ("text", .string "a")]⟩
    noteCall.Compiled ∧ ∃ contents root, contents? noteCall record = some contents ∧
      Request.body noteCall record = .ok (.ofText (Xml.documentText (some root))) ∧
      HoldsSomething contents.parts root := by
  intro record
  have hbody : Request.body noteCall record =
      .ok (.ofText (Xml.documentText (some ⟨"Note", [], [.element "text" [] [.text "a"]]⟩))) := rfl
  refine ⟨compiled_noteCall, ?_⟩
  rcases body_empty_or_document rfl sendsDocument_noteCall hbody with
    ⟨-, hnone⟩ | ⟨contents, root, hcontents, -, -, htext, hholds⟩
  · cases hnone _ rfl
  · refine ⟨contents, root, hcontents, hbody.trans (congrArg _ htext), hholds.2 ?_⟩
    obtain rfl := Option.some.inj hcontents
    exact ⟨_, List.mem_cons_of_mem _ List.mem_cons_self, rfl⟩

/-- A flattened list without items is all that is sent, and the root element is empty. -/
theorem empty_root_of_no_tags :
    let record : Record := ⟨"Note", [("tags", .list [])]⟩
    noteCall.Compiled ∧ noteCall.service.protocol = .xml ∧ SendsDocument noteCall ∧
      Request.body noteCall record =
        .ok (.ofText "<?xml version=\"1.0\" encoding=\"UTF-8\"?>\n<Note/>") ∧
      ¬∃ contents root, contents? noteCall record = some contents ∧
        xmlMembers contents.path contents.fields contents.root contents.members = .ok root ∧
        HoldsSomething contents.parts root := by
  refine ⟨compiled_noteCall, rfl, sendsDocument_noteCall, rfl, ?_⟩
  rintro ⟨contents, root, hcontents, hroot, hholds⟩
  obtain rfl := Option.some.inj hcontents
  obtain rfl := Except.ok.inj hroot
  rcases hholds with hchildren | ⟨part, hpart, hattribute, -⟩
  · exact hchildren rfl
  · obtain rfl := List.mem_singleton.1 hpart
    cases hattribute

end ServiceBindings.Request
