import ServiceBindings.Proofs.Request.Kinds
import ServiceBindings.Proofs.Xml.Groups
import ServiceBindings.Proofs.Xml.Simple

/-! Lists and maps are read back from the elements of their items and entries. -/
namespace ServiceBindings.Xml
open Plan (Target)
open Request (declare xmlNodes)

/-- A namespace can be declared: its attribute has a name. -/
def CanDeclare (ns : Option Namespace) : Prop :=
  ∀ space ∈ ns, IsName space.attributeName ∧ IsText space.uri

/-- Attributes that declare namespaces. -/
def AreSpaces (attributes : List (String × String)) : Prop :=
  ∀ entry ∈ attributes, declares entry.1 = true ∧ IsName entry.1 ∧ IsText entry.2

theorem declares_attributeName (ns : Namespace) : declares ns.attributeName = true := by
  unfold Namespace.attributeName
  cases ns.short with
  | none => decide
  | some short =>
    have htext : ("xmlns:" ++ short).toList = "xmlns".toList ++ ':' :: short.toList := by simp
    rw [declares, htext, List.takeWhile_append_of_pos (List.all_eq_true.1 (by decide))]
    simp

theorem areSpaces_singleton {name uri : String} (hdeclares : declares name = true)
    (hname : IsName name) (huri : IsText uri) : AreSpaces [(name, uri)] := by
  intro entry hmem
  obtain rfl := List.mem_singleton.1 hmem
  exact ⟨hdeclares, hname, huri⟩

theorem exists_declare {ns : Option Namespace} (h : CanDeclare ns) (name : String) :
    ∃ spaces, declare ns { name } = { name, attributes := spaces } ∧ AreSpaces spaces := by
  cases ns with
  | none => exact ⟨[], rfl, by simp [AreSpaces]⟩
  | some ns =>
    obtain ⟨hname, huri⟩ := h ns rfl
    exact ⟨_, rfl, areSpaces_singleton (declares_attributeName ns) hname huri⟩

/-- Elements as which a value is written under a name, and from which the value is read. -/
structure Carries (name : String) (ns : Option Namespace) (target : Target) (value : Value)
    (nodes : List Node) : Prop extends
    Reads .xml target value (together (nodes.map Node.document)) where
  written : ∀ path, xmlNodes name ns path value target = .ok nodes
  plain : ∀ node ∈ nodes, node.IsPlain
  named : ∀ node ∈ nodes, node.HasName name
  nonempty : nodes ≠ []

/-- One element as which a value is written, and from which it is read. -/
abbrev CarriesOne (name : String) (ns : Option Namespace) (target : Target) (value : Value)
    (node : Node) : Prop :=
  Carries name ns target value [node]

theorem arePlain_iff {nodes : List Node} : ArePlain nodes ↔ ∀ node ∈ nodes, node.IsPlain := by
  induction nodes with
  | nil => simp [ArePlain]
  | cons node rest ih => rw [ArePlain, ih, List.forall_mem_cons]

theorem carriesOne {name : String} {ns : Option Namespace} {target : Target} {value : Value}
    {spaces : List (String × String)} {children : List Node}
    (hread : Reads .xml target value (Node.element name spaces children).document)
    (hwritten : ∀ path, xmlNodes name ns path value target = .ok [.element name spaces children])
    (hplain : (Node.element name spaces children).IsPlain) :
    CarriesOne name ns target value (.element name spaces children) := by
  refine ⟨hread, hwritten, ?_, ?_, List.cons_ne_nil _ _⟩
  · simpa using hplain
  · simpa using ⟨spaces, children, rfl⟩

theorem exists_carries_simple {name : String} {ns : Option Namespace} {target : Target}
    {value : Value} {text : String} (hname : IsName name) (hns : CanDeclare ns)
    (hsimple : target.IsSimple) (h : Tells target value text) :
    ∃ node, CarriesOne name ns target value node := by
  obtain ⟨spaces, hdeclare, hspaces⟩ := exists_declare hns name
  have hdocument : (Node.element name spaces [.text text]).document = .string text :=
    document_text (fun entry hmem => (hspaces entry hmem).1) text
  refine ⟨.element name spaces [.text text], carriesOne ?_ (fun path => ?_) ?_⟩
  · rw [hdocument]
    exact h.toReads
  · rw [Request.xmlNodes_of_isSimple name ns path value hsimple, h.written, hdeclare]
    rfl
  · exact ⟨hname, fun entry hmem => (hspaces entry hmem).2, h.chars, trivial⟩

/-- Documents of elements are told apart by their number. -/
theorem entryDocuments_together {docs : List Document} (hdocs : docs ≠ [])
    (hcontent : ∀ doc ∈ docs, IsContent doc) (path expected entry : String) :
    entryDocuments path expected entry true (together docs) = .ok docs := by
  cases docs with
  | nil => exact absurd rfl hdocs
  | cons doc others =>
    cases others with
    | nil =>
      have hdoc := hcontent doc List.mem_cons_self
      cases doc with
      | string | object => rfl
      | array | number | bool | null => exact hdoc.elim
    | cons => rfl

theorem entryDocuments_nodes {name : String} {nodes : List Node} (hnodes : nodes ≠ [])
    (hnamed : ∀ node ∈ nodes, node.HasName name) (path expected entry : String) :
    entryDocuments path expected entry true (together (nodes.map Node.document)) =
      .ok (nodes.map Node.document) := by
  refine entryDocuments_together (by simpa using hnodes) (fun doc hmem => ?_) path expected entry
  obtain ⟨node, hnode, rfl⟩ := List.mem_map.1 hmem
  exact (hnamed node hnode).isContent

/-- The elements of one name inside an element are found under it. -/
theorem entryDocuments_element {entry : String} {nodes : List Node}
    (hnamed : ∀ node ∈ nodes, node.HasName entry) (path expected name : String) :
    entryDocuments path expected entry false (Node.element name [] nodes).document =
      .ok (nodes.map Node.document) := by
  have helements : AreElements nodes := fun node hmem => ⟨entry, hnamed node hmem⟩
  have hmembers : membersIn [] nodes =
      grouped ((nodes.map Node.document).map (entry, ·)) := by
    rw [membersIn, childDocuments_of_hasName hnamed, List.map_map]
    rfl
  cases nodes with
  | nil => rfl
  | cons node rest =>
    rw [grouped_map (by simp)] at hmembers
    have hnodup : (Fields.names (membersIn [] (node :: rest))).Nodup := by
      rw [hmembers]
      exact List.nodup_singleton _
    rw [document_children helements hnodup, hmembers, if_neg (List.cons_ne_nil _ _)]
    have hunwrap := entryDocuments_nodes (List.cons_ne_nil node rest) hnamed path expected entry
    simp only [entryDocuments, Fields.get?_cons, if_true] at hunwrap ⊢
    simpa using hunwrap

/-- Items are written one after the other. -/
theorem items_written {name : String} {ns : Option Namespace} {item : Target} {items : List Value}
    {nodes : List Node} (h : List.Forall₂ (CarriesOne name ns item) items nodes) (path : String)
    (position : Nat) :
    Request.eachItem (fun path value => xmlNodes name ns path value item) path position items =
      .ok nodes := by
  induction h generalizing position with
  | nil => rfl
  | cons hnode _ ih =>
    rw [Request.eachItem, ih, hnode.written]
    rfl

theorem items_of_forall₂ {name : String} {ns : Option Namespace} {item : Target}
    {items : List Value} {nodes : List Node}
    (h : List.Forall₂ (CarriesOne name ns item) items nodes) :
    ∀ node ∈ nodes, node.IsPlain ∧ node.HasName name := by
  intro node hmem
  obtain ⟨value, -, hnode⟩ := exists_of_mem_forall₂_right h hmem
  exact ⟨hnode.plain node (List.mem_singleton_self node),
    hnode.named node (List.mem_singleton_self node)⟩

/-- A list is read back from any document in which the documents of its items are found. -/
theorem reads_list {name : String} {ns : Option Namespace} {item : Target} {items : List Value}
    {nodes : List Node} (h : List.Forall₂ (CarriesOne name ns item) items nodes) {doc : Document}
    {shape : String} {itemName : Option String} {flattened : Bool} (hpresent : doc.isNull = false)
    (hdocs : ∀ path, entryDocuments path "list" (Plan.itemElement itemName) flattened doc =
      .ok (nodes.map Node.document)) :
    Reads .xml (.list shape item itemName flattened) (.list items) doc := by
  refine ⟨hpresent, fun path => ?_⟩
  have hreads : List.Forall₂ (Reads .xml item) items (nodes.map Node.document) :=
    List.forall₂_map_right_iff.2 (h.imp fun _ _ hnode => hnode.toReads)
  obtain ⟨found, hfound, hsame⟩ := exists_readItems hreads path 0
  refine ⟨.list found, readPresent_list ?_ hfound, ?_⟩
  · exact hdocs path
  · rw [Value.same, Value.sameItems_of_forall₂ hsame]

theorem isNull_document (name : String) (attributes : List (String × String))
    (children : List Node) : (Node.element name attributes children).document.isNull = false := by
  rw [Node.document, documentOf]
  split_ifs <;> rfl

theorem isNull_together {nodes : List Node} {name : String} (hnodes : nodes ≠ [])
    (hnamed : ∀ node ∈ nodes, node.HasName name) :
    (together (nodes.map Node.document)).isNull = false := by
  cases nodes with
  | nil => exact absurd rfl hnodes
  | cons node rest =>
    cases rest with
    | nil =>
      obtain ⟨attributes, children, rfl⟩ := hnamed node List.mem_cons_self
      exact isNull_document name attributes children
    | cons => rfl

/-- The items of a flattened list stand by themselves. -/
theorem exists_carries_flattened_list {name : String} {ns : Option Namespace} {item : Target}
    {items : List Value} (shape : String) (itemName : Option String) (hitems : items ≠ [])
    (h : ∀ value ∈ items, ∃ node, CarriesOne name ns item value node) :
    ∃ nodes, Carries name ns (.list shape item itemName true) (.list items) nodes := by
  obtain ⟨nodes, hnodes⟩ := exists_forall₂ h
  have hparts := items_of_forall₂ hnodes
  have hnonempty : nodes ≠ [] := by
    rintro rfl
    cases hnodes
    exact hitems rfl
  have hnamed : ∀ node ∈ nodes, node.HasName name := fun node hmem => (hparts node hmem).2
  refine ⟨nodes, ?_, fun path => ?_, fun node hmem => (hparts node hmem).1, hnamed, hnonempty⟩
  · exact reads_list hnodes (isNull_together hnonempty hnamed) fun path =>
      entryDocuments_nodes hnonempty hnamed path "list" _
  · rw [xmlNodes]
    dsimp only
    rw [if_pos rfl, items_written hnodes]

/-- The items of any other list stand in an element of their own. -/
theorem exists_carries_list {name : String} {item : Target} {itemName : Option String}
    {items : List Value} (shape : String) (ns : Option Namespace) (hname : IsName name)
    (h : ∀ value ∈ items,
      ∃ node, CarriesOne (Plan.itemElement itemName) none item value node) :
    ∃ node, CarriesOne name ns (.list shape item itemName false) (.list items) node := by
  obtain ⟨nodes, hnodes⟩ := exists_forall₂ h
  have hparts := items_of_forall₂ hnodes
  refine ⟨.element name [] nodes, carriesOne ?_ (fun path => ?_) ?_⟩
  · exact reads_list hnodes (isNull_document name [] nodes) fun path =>
      entryDocuments_element (fun node hmem => (hparts node hmem).2) path "list" name
  · rw [xmlNodes]
    dsimp only
    rw [if_neg (by decide), items_written hnodes]
    rfl
  · exact ⟨hname, by simp, arePlain_iff.2 fun node hmem => (hparts node hmem).1⟩

section
variable {keyName valueName : Option String} {target : Target}

/-- An element with a key and a value, as which an entry is written. -/
def CarriesEntry (keyName valueName : Option String) (target : Target) (name : String)
    (entry : String × Value) (node : Node) : Prop :=
  ∃ value, CarriesOne (Plan.valueElement valueName) none target entry.2 value ∧
    node = .element name []
      [(Element.ofText (Plan.keyElement keyName) entry.1).toNode, value]

theorem CarriesEntry.hasName {name : String} {entry : String × Value} {node : Node}
    (h : CarriesEntry keyName valueName target name entry node) : node.HasName name := by
  obtain ⟨value, -, rfl⟩ := h
  exact ⟨_, _, rfl⟩

theorem CarriesEntry.isPlain {name : String} {entry : String × Value} {node : Node}
    (h : CarriesEntry keyName valueName target name entry node) (hname : IsName name)
    (hkey : IsName (Plan.keyElement keyName)) (htext : IsText entry.1) : node.IsPlain := by
  obtain ⟨value, hvalue, rfl⟩ := h
  exact ⟨hname, by simp, ⟨hkey, by simp [Element.ofText], htext, trivial⟩,
    hvalue.plain value List.mem_cons_self, trivial⟩

theorem document_ofText (name text : String) :
    (Element.ofText name text).toNode.document = .string text :=
  document_text (fun _ hmem => absurd hmem List.not_mem_nil) text

theorem areElements_entry {value : Node} {key keyElement valueElement : String}
    (hvalue : value.HasName valueElement) :
    AreElements [(Element.ofText keyElement key).toNode, value] := by
  intro node hmem
  simp only [List.mem_cons, List.not_mem_nil, or_false] at hmem
  rcases hmem with rfl | rfl
  · exact ⟨keyElement, _, _, rfl⟩
  · exact ⟨valueElement, hvalue⟩

theorem membersIn_entry {value : Node} {keyElement valueElement : String} (key : String)
    (hvalue : value.HasName valueElement) (hne : keyElement ≠ valueElement) :
    membersIn [] [(Element.ofText keyElement key).toNode, value] =
      [(keyElement, .string key), (valueElement, value.document)] := by
  have hchildren : childDocuments [(Element.ofText keyElement key).toNode, value] =
      [Document.string key].map (keyElement, ·) ++ [value.document].map (valueElement, ·) := by
    obtain ⟨attributes, children, rfl⟩ := hvalue
    rw [← document_ofText keyElement key]
    rfl
  rw [membersIn, hchildren, grouped_append (by simp) (by simpa using hne), grouped_map (by simp)]
  rfl

/-- The key and the document of the value are found under their names, which differ. -/
theorem CarriesEntry.exists_entryOf {name : String} {entry : String × Value} {node : Node}
    (h : CarriesEntry keyName valueName target name entry node)
    (hne : Plan.keyElement keyName ≠ Plan.valueElement valueName) (path : String) :
    ∃ doc, entryOf path keyName valueName node.document = .ok (entry.1, doc) ∧
      Reads .xml target entry.2 doc := by
  obtain ⟨value, hvalue, rfl⟩ := h
  have hnamed := hvalue.named value List.mem_cons_self
  refine ⟨value.document, ?_, hvalue.toReads⟩
  have hmembers := membersIn_entry entry.1 hnamed hne
  have hnodup : (Fields.names (membersIn []
      [(Element.ofText (Plan.keyElement keyName) entry.1).toNode, value])).Nodup := by
    rw [hmembers]
    simpa [Fields.names] using hne
  have hkeyDocument : (Document.object [(Plan.keyElement keyName, .string entry.1),
      (Plan.valueElement valueName, value.document)]).get? (Plan.keyElement keyName) =
        some (.string entry.1) := by
    simp [Document.get?, Document.members?, Fields.get?_cons]
  have hvalueDocument : (Document.object [(Plan.keyElement keyName, .string entry.1),
      (Plan.valueElement valueName, value.document)]).get? (Plan.valueElement valueName) =
        some value.document := by
    simp [Document.get?, Document.members?, Fields.get?_cons, Ne.symm hne]
  rw [document_children (areElements_entry hnamed) hnodup, hmembers,
    if_neg (List.cons_ne_nil _ _), entryOf, hkeyDocument]
  dsimp only
  rw [hvalueDocument]
  rfl

/-- Entries are written one after the other. -/
theorem entries_written {name : String} {entries : List (String × Value)} {nodes : List Node}
    (h : List.Forall₂ (CarriesEntry keyName valueName target name) entries nodes) (path : String) :
    Request.eachEntry (fun key path value => do
        let keyNode := (Element.ofText (Plan.keyElement keyName) key).toNode
        let nodes ← xmlNodes (Plan.valueElement valueName) none path value target
        return [Node.element name [] (keyNode :: nodes)]) path entries = .ok nodes := by
  induction h with
  | nil => rfl
  | cons hentry _ ih =>
    obtain ⟨value, hvalue, rfl⟩ := hentry
    rw [Request.eachEntry, hvalue.written, ih]
    rfl

/-- Entries are read back one after the other, and keep their keys. -/
theorem entries_read {name : String} {entries : List (String × Value)} {nodes : List Node}
    (h : List.Forall₂ (CarriesEntry keyName valueName target name) entries nodes)
    (hne : Plan.keyElement keyName ≠ Plan.valueElement valueName) (path : String)
    (before : Fields Value) (hnodup : (Fields.names before ++ Fields.names entries).Nodup) :
    ∃ found, readElements (fun path doc => readValue .xml path target doc) path keyName valueName
        before (nodes.map Node.document) = .ok (before ++ found) ∧
      Value.SameInOrder found entries := by
  induction h generalizing before with
  | nil =>
    refine ⟨[], ?_, .nil⟩
    rw [List.map_nil, readElements, List.append_nil]
  | @cons entry node _ _ hentry _ ih =>
    obtain ⟨doc, hdoc, hreads⟩ := hentry.exists_entryOf hne path
    have hnew : entry.1 ∉ Fields.names before := by
      intro hmem
      exact (List.nodup_append.1 hnodup).2.2 _ hmem entry.1 (by simp [Fields.names]) rfl
    obtain ⟨first, hfirst, hsame⟩ := exists_readEntries_cons hreads hnew path []
    obtain ⟨found, hfound, hsames⟩ := ih (before ++ [(entry.1, first)])
      (by simpa [Fields.names] using hnodup)
    refine ⟨(entry.1, first) :: found, ?_, .cons ⟨rfl, hsame⟩ hsames⟩
    rw [List.map_cons, readElements, hdoc, ok_bind, hfirst, readEntries, ok_bind, hfound,
      List.append_assoc]
    rfl

theorem entries_of_forall₂ {name : String} {entries : List (String × Value)} {nodes : List Node}
    (h : List.Forall₂ (CarriesEntry keyName valueName target name) entries nodes)
    (hname : IsName name) (hkey : IsName (Plan.keyElement keyName))
    (htext : ∀ entry ∈ entries, IsText entry.1) :
    ∀ node ∈ nodes, node.IsPlain ∧ node.HasName name := by
  intro node hmem
  obtain ⟨entry, hentry, hnode⟩ := exists_of_mem_forall₂_right h hmem
  exact ⟨hnode.isPlain hname hkey (htext entry hentry), hnode.hasName⟩

/-- A map is read back from any document in which the documents of its entries are found. -/
theorem reads_map {name : String} {entries : List (String × Value)} {nodes : List Node}
    (h : List.Forall₂ (CarriesEntry keyName valueName target name) entries nodes)
    (hne : Plan.keyElement keyName ≠ Plan.valueElement valueName)
    (hnodup : (Fields.names entries).Nodup) {doc : Document} {shape : String} {key : Target}
    {flattened : Bool} (hpresent : doc.isNull = false)
    (hdocs : ∀ path, entryDocuments path "map" "entry" flattened doc =
      .ok (nodes.map Node.document)) :
    Reads .xml (.map shape key target keyName valueName flattened) (.map entries) doc := by
  refine ⟨hpresent, fun path => ?_⟩
  obtain ⟨found, hfound, hsame⟩ :=
    entries_read h hne path [] (by simpa [Fields.names] using hnodup)
  refine ⟨.map found, readPresent_map (hdocs path) hfound, ?_⟩
  simp [Value.same, hsame.sameEntries hnodup, List.Forall₂.length_eq hsame]

/-- The entries of a flattened map stand by themselves. -/
theorem exists_carries_flattened_map {name : String} {entries : List (String × Value)}
    (shape : String) (key : Target) (ns : Option Namespace) (hname : IsName name)
    (hkey : IsName (Plan.keyElement keyName))
    (hne : Plan.keyElement keyName ≠ Plan.valueElement valueName) (hentries : entries ≠ [])
    (hnodup : (Fields.names entries).Nodup) (htext : ∀ entry ∈ entries, IsText entry.1)
    (h : ∀ entry ∈ entries,
      ∃ node, CarriesOne (Plan.valueElement valueName) none target entry.2 node) :
    ∃ nodes, Carries name ns (.map shape key target keyName valueName true) (.map entries)
      nodes := by
  obtain ⟨nodes, hnodes⟩ : ∃ nodes,
      List.Forall₂ (CarriesEntry keyName valueName target name) entries nodes :=
    exists_forall₂ fun entry hmem => (h entry hmem).imp' _ fun value hvalue => ⟨value, hvalue, rfl⟩
  have hparts := entries_of_forall₂ hnodes hname hkey htext
  have hnonempty : nodes ≠ [] := by
    rintro rfl
    cases hnodes
    exact hentries rfl
  have hnamed : ∀ node ∈ nodes, node.HasName name := fun node hmem => (hparts node hmem).2
  refine ⟨nodes, ?_, fun path => ?_, fun node hmem => (hparts node hmem).1, hnamed, hnonempty⟩
  · exact reads_map hnodes hne hnodup (isNull_together hnonempty hnamed) fun path =>
      entryDocuments_nodes hnonempty hnamed path "map" "entry"
  · have hwritten := entries_written hnodes path
    rw [xmlNodes]
    dsimp only at hwritten ⊢
    simp only [if_true]
    rw [hwritten]
    rfl

/-- The entries of any other map stand in an element of their own. -/
theorem exists_carries_map {name : String} {entries : List (String × Value)}
    (shape : String) (key : Target) (ns : Option Namespace) (hname : IsName name)
    (hkey : IsName (Plan.keyElement keyName))
    (hne : Plan.keyElement keyName ≠ Plan.valueElement valueName)
    (hnodup : (Fields.names entries).Nodup) (htext : ∀ entry ∈ entries, IsText entry.1)
    (h : ∀ entry ∈ entries,
      ∃ node, CarriesOne (Plan.valueElement valueName) none target entry.2 node) :
    ∃ node, CarriesOne name ns (.map shape key target keyName valueName false) (.map entries)
      node := by
  obtain ⟨nodes, hnodes⟩ : ∃ nodes,
      List.Forall₂ (CarriesEntry keyName valueName target "entry") entries nodes :=
    exists_forall₂ fun entry hmem => (h entry hmem).imp' _ fun value hvalue => ⟨value, hvalue, rfl⟩
  have hentry : IsName "entry" := by decide
  have hparts := entries_of_forall₂ hnodes hentry hkey htext
  refine ⟨.element name [] nodes, carriesOne ?_ (fun path => ?_) ?_⟩
  · exact reads_map hnodes hne hnodup (isNull_document name [] nodes) fun path =>
      entryDocuments_element (fun node hmem => (hparts node hmem).2) path "map" name
  · have hwritten := entries_written hnodes path
    rw [xmlNodes]
    dsimp only at hwritten ⊢
    simp only [Bool.false_eq_true, if_false]
    rw [hwritten]
    rfl
  · exact ⟨hname, by simp, arePlain_iff.2 fun node hmem => (hparts node hmem).1⟩

end

end ServiceBindings.Xml
