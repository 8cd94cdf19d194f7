import ServiceBindings.Proofs.Xml.Parts

/-! Values are read back from the elements as which they are written. -/
namespace ServiceBindings.Xml
open Plan (Binding Heading InBody Target)
open Request (declare xmlMembers xmlNodes)

/-- Entries stand by themselves, without an element around them. -/
def IsFlattened : Target → Prop
  | .list _ _ _ flattened => flattened = true
  | .map _ _ _ _ _ flattened => flattened = true
  | _ => False

/-- A member has the name of an element, or of an attribute if it is a text. -/
structure HasElement (member : Binding × Target) : Prop where
  name : IsName member.1.wireName
  space : CanDeclare member.1.xmlNamespace
  simple : member.1.xmlAttribute = true →
    member.2.IsSimple ∧ declares member.1.wireName = false

mutual

/-- The parts of a target have names of elements, and only members of structures are flattened. -/
def HasElements : Target → Prop
  | .scalar _ _ _ => True
  | .enumeration _ => True
  | .list _ item itemName flattened =>
    (flattened = false → IsName (Plan.itemElement itemName)) ∧ ¬IsFlattened item ∧ HasElements item
  | .map _ _ value keyName valueName _ =>
    IsName (Plan.keyElement keyName) ∧ IsName (Plan.valueElement valueName) ∧
      Plan.keyElement keyName ≠ Plan.valueElement valueName ∧ ¬IsFlattened value ∧
      HasElements value
  | .structure heading members => CanDeclare heading.xmlNamespace ∧ HaveElements members

/-- Members have names of elements throughout. -/
def HaveElements : List (Binding × Target) → Prop
  | [] => True
  | (binding, target) :: rest =>
    HasElement (binding, target) ∧ HasElements target ∧ HaveElements rest

end

mutual

/-- Texts and keys are made up of characters that a document may hold, and what is flattened is not
empty. -/
def SuitsElements (value : Value) : Target → Prop
  | .scalar _ _ _ => ∀ s, value = .string s → IsText s
  | .enumeration _ => ∀ s, value = .string s → IsText s
  | .list _ item _ flattened =>
    ∀ items, value = .list items →
      (flattened = true → items ≠ []) ∧ ∀ v ∈ items, SuitsElements v item
  | .map _ _ target _ _ flattened =>
    ∀ entries, value = .map entries →
      (flattened = true → entries ≠ []) ∧
        ∀ entry ∈ entries, IsText entry.1 ∧ SuitsElements entry.2 target
  | .structure _ members =>
    ∀ shape fields, value = .structure shape fields → SuitMembers fields members

/-- The members that are present suit elements. -/
def SuitMembers (fields : Fields Value) : List (Binding × Target) → Prop
  | [] => True
  | (binding, target) :: rest =>
    (∀ value ∈ Fields.get? fields binding.name, SuitsElements value target) ∧
      SuitMembers fields rest

end

theorem suitsElements_text {target : Target} {value : Value} (hsimple : target.IsSimple)
    (h : SuitsElements value target) : ∀ s, value = .string s → IsText s := by
  cases target with
  | scalar | enumeration => exact h
  | list | map | «structure» => exact hsimple.elim

/-- The attributes and the content as which the members of a structure are written, and the members
read from them. -/
structure CarryMembers (members : List (Binding × Target)) (fields : Fields Value)
    (attributes : List (String × String)) (children : List Node) : Prop where
  written : ∀ path (element : Element),
    (∀ entry ∈ attributes, entry.1 ∉ Fields.names element.attributes) →
    xmlMembers path fields element members = .ok { element with
      attributes := element.attributes ++ attributes
      children := element.children ++ children }
  texts : ∀ entry ∈ attributes, declares entry.1 = false ∧ IsName entry.1 ∧ IsText entry.2
  plain : ArePlain children
  elements : AreElements children
  names : ∀ name ∈ Fields.names (membersIn attributes children),
    name ∈ members.map (·.1.wireName)
  nodup : (Fields.names (membersIn attributes children)).Nodup
  read : ReadMembers .xml members fields (membersIn attributes children)

theorem carryMembers_nil (fields : Fields Value) : CarryMembers [] fields [] [] := by
  refine ⟨fun path element _ => ?_, by simp, trivial, by simp [AreElements], ?_, ?_,
    readMembers_nil _ _ _⟩
  · rw [xmlMembers, List.append_nil, List.append_nil]
  · exact fun name hmem => absurd hmem List.not_mem_nil
  · exact List.nodup_nil

section
variable {binding : Binding} {target : Target} {rest : List (Binding × Target)}
  {fields : Fields Value} {attributes : List (String × String)} {children : List Node}
  {value : Value}

theorem CarryMembers.absent (h : CarryMembers rest fields attributes children)
    (hbody : binding.location = .body) (hnew : binding.wireName ∉ rest.map (·.1.wireName))
    (habsent : Fields.get? fields binding.name = none) :
    CarryMembers ((binding, target) :: rest) fields attributes children := by
  have hnone : Fields.get? (membersIn attributes children) binding.wireName = none :=
    Fields.get?_eq_none.2 fun hmem => hnew (h.names _ hmem)
  refine ⟨fun path element helement => ?_, h.texts, h.plain, h.elements,
    fun name hmem => List.mem_cons_of_mem _ (h.names name hmem), h.nodup,
    h.read.absent (by simp) hbody habsent hnone⟩
  rw [xmlMembers, hbody, habsent]
  exact h.written path element helement

/-- An attribute goes behind those that the element has. -/
theorem CarryMembers.attribute {text : String} (h : CarryMembers rest fields attributes children)
    (hbody : binding.location = .body) (hnew : binding.wireName ∉ rest.map (·.1.wireName))
    (hvalue : Fields.get? fields binding.name = some value)
    (hattribute : binding.xmlAttribute = true) (hname : IsName binding.wireName)
    (hdeclares : declares binding.wireName = false) (htext : Tells target value text) :
    CarryMembers ((binding, target) :: rest) fields ((binding.wireName, text) :: attributes)
      children := by
  have hnot : binding.wireName ∉ Fields.names (membersIn attributes children) :=
    fun hmem => hnew (h.names _ hmem)
  refine ⟨fun path element helement => ?_, ?_, h.plain, h.elements, ?_, ?_,
    h.read.present (by simp) hbody hnew hvalue htext.toReads⟩
  · have hset : Fields.set binding.wireName text element.attributes =
        element.attributes ++ [(binding.wireName, text)] :=
      Fields.set_of_notMem (helement _ List.mem_cons_self) text
    have hothers : ∀ entry ∈ attributes,
        entry.1 ∉ Fields.names (element.attributes ++ [(binding.wireName, text)]) := by
      intro entry hmem
      rw [Fields.names_append, List.mem_append, not_or]
      refine ⟨helement entry (List.mem_cons_of_mem _ hmem), fun heq => hnot ?_⟩
      have heq : entry.1 = binding.wireName := by simpa [Fields.names] using heq
      rw [← heq, membersIn, Fields.names_append]
      exact List.mem_append_left _ (by simpa [Fields.names] using ⟨entry.2, hmem⟩)
    rw [xmlMembers, hbody, hvalue]
    simp only [hattribute, if_true, htext.written, ok_bind, Element.setAttribute, hset]
    rw [h.written path
      { element with attributes := element.attributes ++ [(binding.wireName, text)] } hothers,
      List.append_assoc]
    rfl
  · simpa using ⟨⟨hdeclares, hname, htext.chars⟩, fun name text hmem =>
      h.texts (name, text) hmem⟩
  · intro name hmem
    rcases List.mem_cons.1 hmem with rfl | hmem
    · exact List.mem_cons_self
    · exact List.mem_cons_of_mem _ (h.names name hmem)
  · exact List.nodup_cons.2 ⟨hnot, h.nodup⟩

/-- Content goes behind that of the element, and stands for one more member. -/
theorem CarryMembers.content {nodes : List Node} (h : CarryMembers rest fields attributes children)
    (hbody : binding.location = .body) (hnew : binding.wireName ∉ rest.map (·.1.wireName))
    (hvalue : Fields.get? fields binding.name = some value)
    (hattribute : binding.xmlAttribute = false)
    (hnodes : Carries binding.wireName binding.xmlNamespace target value nodes) :
    CarryMembers ((binding, target) :: rest) fields attributes (nodes ++ children) := by
  have hnot : binding.wireName ∉ Fields.names (membersIn attributes children) :=
    fun hmem => hnew (h.names _ hmem)
  have hperm := membersIn_perm hnodes.nonempty hnodes.named hnot
  have hnames := hperm.map Prod.fst
  have hnodup : (Fields.names ((binding.wireName, together (nodes.map Node.document)) ::
      membersIn attributes children)).Nodup := List.nodup_cons.2 ⟨hnot, h.nodup⟩
  refine ⟨fun path element helement => ?_, h.texts, ?_, ?_, ?_, hnames.nodup_iff.2 hnodup,
    (h.read.present (by simp) hbody hnew hvalue hnodes.toReads).congr
      (Fields.get?_eq_of_perm hperm hnodup)⟩
  · rw [xmlMembers, hbody, hvalue]
    simp only [hattribute, Bool.false_eq_true, if_false, hnodes.written, ok_bind]
    rw [h.written path { element with children := element.children ++ nodes } helement,
      List.append_assoc]
  · refine arePlain_iff.2 fun node hmem => ?_
    exact (List.mem_append.1 hmem).elim (hnodes.plain node) (arePlain_iff.1 h.plain node)
  · intro node hmem
    exact (List.mem_append.1 hmem).elim (fun hmem => ⟨_, hnodes.named node hmem⟩)
      (h.elements node)
  · intro name hmem
    rcases List.mem_cons.1 (hnames.subset hmem) with rfl | hmem
    · exact List.mem_cons_self
    · exact List.mem_cons_of_mem _ (h.names name hmem)

end

/-- An element without attributes and content has no members. -/
theorem CarryMembers.membersOf {members : List (Binding × Target)} {fields : Fields Value}
    {attributes spaces : List (String × String)} {children : List Node}
    (h : CarryMembers members fields attributes children) (hspaces : AreSpaces spaces)
    (name path : String) :
    membersOf .xml path (Node.element name (spaces ++ attributes) children).document =
      .ok (membersIn attributes children) := by
  rw [document_element (fun entry hmem => (hspaces entry hmem).1)
    (fun entry hmem => (h.texts entry hmem).1) h.elements h.nodup]
  split_ifs with hnone
  · rw [hnone]
    rfl
  · rfl

/-- The attributes of members are told from those that declare namespaces. -/
theorem CarryMembers.notMem_spaces {members : List (Binding × Target)} {fields : Fields Value}
    {attributes spaces : List (String × String)} {children : List Node}
    (h : CarryMembers members fields attributes children) (hspaces : AreSpaces spaces) :
    ∀ entry ∈ attributes, entry.1 ∉ Fields.names spaces := by
  intro entry hmem hname
  obtain ⟨space, hspace, heq⟩ := List.mem_map.1 hname
  have hdeclares := (hspaces space hspace).1
  rw [heq, (h.texts entry hmem).1] at hdeclares
  cases hdeclares

theorem CarryMembers.isPlain {members : List (Binding × Target)} {fields : Fields Value}
    {attributes spaces : List (String × String)} {children : List Node}
    (h : CarryMembers members fields attributes children) (hspaces : AreSpaces spaces)
    {name : String} (hname : IsName name) :
    (Node.element name (spaces ++ attributes) children).IsPlain := by
  refine ⟨hname, fun entry hmem => ?_, h.plain⟩
  exact (List.mem_append.1 hmem).elim (fun hmem => (hspaces entry hmem).2)
    fun hmem => (h.texts entry hmem).2

theorem exists_carries_structure {name : String} {ns : Option Namespace} {heading : Heading}
    {members : List (Binding × Target)} {fields : Fields Value}
    {attributes : List (String × String)} {children : List Node} (hname : IsName name)
    (hns : CanDeclare ns) (hheading : CanDeclare heading.xmlNamespace) (hin : InBody members)
    (hnodup : (Fields.names fields).Nodup)
    (hknown : ∀ name ∈ Fields.names fields, ∃ member ∈ members, member.1.name = name)
    (h : CarryMembers members fields attributes children) :
    ∃ node, CarriesOne name ns (.structure heading members) (.structure heading.shape fields)
      node := by
  have hspace : CanDeclare (ns.or heading.xmlNamespace) := by
    cases ns with
    | none => exact hheading
    | some ns => exact hns
  obtain ⟨spaces, hdeclare, hspaces⟩ := exists_declare hspace name
  refine ⟨.element name (spaces ++ attributes) children,
    carriesOne ⟨isNull_document _ _ _, fun path => ?_⟩ (fun path => ?_) (h.isPlain hspaces hname)⟩
  · obtain ⟨found, hfound, hnames, hsame⟩ := h.read path _ fun _ _ => rfl
    exact ⟨.structure heading.shape found,
      readPresent_structure (h.membersOf hspaces name path) hfound,
      Value.same_structure hin hnodup hknown hnames hsame heading.shape⟩
  · rw [xmlNodes, hdeclare, h.written path _ (h.notMem_spaces hspaces)]
    rfl

/-- What is not flattened is read back from one element. -/
theorem exists_carriesOne {name : String} {ns : Option Namespace} {target : Target} {value : Value}
    (hsingle : ¬IsFlattened target)
    (h : ∃ nodes, Carries name ns target value nodes ∧
      (¬IsFlattened target → ∃ node, nodes = [node])) :
    ∃ node, CarriesOne name ns target value node := by
  obtain ⟨nodes, hnodes, hnode⟩ := h
  obtain ⟨node, rfl⟩ := hnode hsingle
  exact ⟨node, hnodes⟩

mutual

/-- Every value that fits a target is read back from the elements as which it is written. They are
one element unless the target is flattened. -/
theorem exists_carries (target : Target) (value : Value) (hplace : target.EachStructure InBody)
    (helements : HasElements target) (hfits : value.Fits IsExact target)
    (hsuits : SuitsElements value target) {name : String} {ns : Option Namespace}
    (hname : IsName name) (hns : CanDeclare ns) :
    ∃ nodes, Carries name ns target value nodes ∧
      (¬IsFlattened target → ∃ node, nodes = [node]) := by
  cases target with
  | scalar | enumeration =>
    obtain ⟨text, htext⟩ := exists_tells (by trivial) hfits hsuits
    obtain ⟨node, hnode⟩ := exists_carries_simple hname hns (by trivial) htext
    exact ⟨[node], hnode, fun _ => ⟨node, rfl⟩⟩
  | list shape item itemName flattened =>
    obtain ⟨items, rfl, hitems⟩ := hfits
    obtain ⟨hitemName, hsingle, hitem⟩ := helements
    obtain ⟨hnonempty, hsuits⟩ := hsuits items rfl
    have hone {name : String} {ns : Option Namespace} (hname : IsName name) (hns : CanDeclare ns) :
        ∀ value ∈ items, ∃ node, CarriesOne name ns item value node := by
      intro value hmem
      exact exists_carriesOne hsingle
        (exists_carries item value hplace hitem (hitems value hmem) (hsuits value hmem) hname hns)
    cases flattened with
    | true =>
      obtain ⟨nodes, hnodes⟩ := exists_carries_flattened_list shape itemName (hnonempty rfl)
        (hone hname hns)
      exact ⟨nodes, hnodes, fun hnot => absurd rfl hnot⟩
    | false =>
      obtain ⟨node, hnode⟩ := exists_carries_list shape ns hname
        (hone (hitemName rfl) (by simp [CanDeclare]))
      exact ⟨[node], hnode, fun _ => ⟨node, rfl⟩⟩
  | map shape key target keyName valueName flattened =>
    obtain ⟨entries, rfl, hnodup, hentries⟩ := hfits
    obtain ⟨hkey, hvalue, hne, hsingle, htarget⟩ := helements
    obtain ⟨hnonempty, hsuits⟩ := hsuits entries rfl
    have htext : ∀ entry ∈ entries, IsText entry.1 := fun entry hmem => (hsuits entry hmem).1
    have hone : ∀ entry ∈ entries,
        ∃ node, CarriesOne (Plan.valueElement valueName) none target entry.2 node := by
      intro entry hmem
      have hnone : CanDeclare none := by simp [CanDeclare]
      exact exists_carriesOne hsingle (exists_carries target entry.2 hplace htarget
        (hentries entry hmem) (hsuits entry hmem).2 hvalue hnone)
    cases flattened with
    | true =>
      obtain ⟨nodes, hnodes⟩ := exists_carries_flattened_map shape key ns hname hkey hne
        (hnonempty rfl) hnodup htext hone
      exact ⟨nodes, hnodes, fun hnot => absurd rfl hnot⟩
    | false =>
      obtain ⟨node, hnode⟩ := exists_carries_map shape key ns hname hkey hne hnodup htext hone
      exact ⟨[node], hnode, fun _ => ⟨node, rfl⟩⟩
  | «structure» heading members =>
    obtain ⟨fields, rfl, hnodup, hknown, hmembers⟩ := hfits
    obtain ⟨attributes, children, hcarries⟩ := exists_carryMembers members fields hplace.1 hplace.2
      helements.2 hmembers (hsuits _ fields rfl)
    obtain ⟨node, hnode⟩ := exists_carries_structure hname hns helements.1 hplace.1 hnodup hknown
      hcarries
    exact ⟨[node], hnode, fun _ => ⟨node, rfl⟩⟩

/-- The members that are present are read back from attributes and content. -/
theorem exists_carryMembers (members : List (Binding × Target)) (fields : Fields Value)
    (hin : InBody members) (hplace : Target.EachMember InBody members)
    (helements : HaveElements members) (hfits : Value.FitMembers IsExact fields members)
    (hsuits : SuitMembers fields members) :
    ∃ attributes children, CarryMembers members fields attributes children := by
  match members with
  | [] => exact ⟨[], [], carryMembers_nil fields⟩
  | (binding, target) :: rest =>
    obtain ⟨hinRest, hnew⟩ := hin.tail
    have hbody : binding.location = .body := hin.body (binding, target) List.mem_cons_self
    obtain ⟨helement, htarget, hothers⟩ := helements
    obtain ⟨attributes, children, hrest⟩ :=
      exists_carryMembers rest fields hinRest hplace.2 hothers hfits.2 hsuits.2
    cases hvalue : Fields.get? fields binding.name with
    | none => exact ⟨attributes, children, hrest.absent hbody hnew hvalue⟩
    | some value =>
      have hvalueFits := hfits.1 value hvalue
      have hvalueSuits := hsuits.1 value hvalue
      cases hattribute : binding.xmlAttribute with
      | true =>
        obtain ⟨hsimple, hdeclares⟩ := helement.simple hattribute
        obtain ⟨text, htext⟩ :=
          exists_tells hsimple hvalueFits (suitsElements_text hsimple hvalueSuits)
        exact ⟨_, _, hrest.attribute hbody hnew hvalue hattribute helement.name hdeclares htext⟩
      | false =>
        obtain ⟨nodes, hnodes, -⟩ := exists_carries target value hplace.1 htarget hvalueFits
          hvalueSuits helement.name helement.space
        exact ⟨_, _, hrest.content hbody hnew hvalue hattribute hnodes⟩

end

end ServiceBindings.Xml
