import Mathlib.Tactic.Common
import ServiceBindings.Proofs.Fields
import ServiceBindings.Proofs.Xml.Elements

/-! The documents of elements: attributes and the elements inside them, by their names. -/
namespace ServiceBindings.Xml

def Node.HasName (name : String) (node : Node) : Prop :=
  ∃ attributes children, node = .element name attributes children

theorem Node.HasName.isContent {name : String} {node : Node} (h : node.HasName name) :
    IsContent node.document := by
  obtain ⟨attributes, children, rfl⟩ := h
  rw [Node.document]
  exact isContent_documentOf _ _ _

theorem childDocuments_append (nodes others : List Node) :
    childDocuments (nodes ++ others) = childDocuments nodes ++ childDocuments others := by
  induction nodes with
  | nil => rfl
  | cons node rest ih =>
    cases node with
    | element name attributes children =>
      rw [List.cons_append, childDocuments, childDocuments, ih, List.cons_append]
    | text s =>
      rw [List.cons_append, childDocuments, childDocuments, ih]

theorem childDocuments_of_hasName {name : String} {nodes : List Node}
    (h : ∀ node ∈ nodes, node.HasName name) :
    childDocuments nodes = nodes.map fun node => (name, node.document) := by
  induction nodes with
  | nil => rfl
  | cons node rest ih =>
    obtain ⟨attributes, children, rfl⟩ := h node List.mem_cons_self
    rw [childDocuments, ih fun node hmem => h node (List.mem_cons_of_mem _ hmem), List.map_cons]

def AreElements (nodes : List Node) : Prop :=
  ∀ node ∈ nodes, ∃ name, node.HasName name

theorem AreElements.innerText {nodes : List Node} (h : AreElements nodes) :
    innerText nodes = "" := by
  induction nodes with
  | nil => rfl
  | cons node rest ih =>
    obtain ⟨name, attributes, children, rfl⟩ := h node List.mem_cons_self
    exact ih fun node hmem => h node (List.mem_cons_of_mem _ hmem)

theorem AreElements.eq_nil {nodes : List Node} (h : AreElements nodes)
    (hnone : childDocuments nodes = []) : nodes = [] := by
  cases nodes with
  | nil => rfl
  | cons node rest =>
    obtain ⟨name, attributes, children, rfl⟩ := h node List.mem_cons_self
    exact absurd hnone (List.cons_ne_nil _ _)

theorem valuesOf_map (name : String) (docs : List Document) :
    valuesOf name (docs.map (name, ·)) = docs := by
  unfold valuesOf
  have hown : (docs.map (name, ·)).filter (·.1 = name) = docs.map (name, ·) :=
    List.filter_eq_self.2 (by simp)
  rw [hown, List.map_map]
  exact List.map_id docs

/-- Elements of a new name in front of others make up a member of their own. -/
theorem grouped_append {name : String} {docs : List Document} (hdocs : docs ≠ [])
    {rest : List (String × Document)} (hnew : name ∉ rest.map Prod.fst) :
    grouped (docs.map (name, ·) ++ rest) = (name, together docs) :: grouped rest := by
  obtain ⟨doc, others, rfl⟩ := List.exists_cons_of_ne_nil hdocs
  have hown : valuesOf name ((doc :: others).map (name, ·) ++ rest) = doc :: others := by
    rw [valuesOf_append, valuesOf_map, valuesOf_eq_nil.2 hnew, List.append_nil]
  have hnames : (((doc :: others).map (name, ·) ++ rest).map Prod.fst).eraseDups =
      name :: (rest.map Prod.fst).eraseDups := by
    have hothers :
        ((others.map (name, ·)).map Prod.fst).filter (fun other => !other == name) = [] :=
      List.filter_eq_nil_iff.2 (by simp)
    have hkept : (rest.map Prod.fst).filter (fun other => !other == name) = rest.map Prod.fst :=
      List.filter_eq_self.2 fun other hmem => by
        simpa using fun heq : other = name => hnew (heq ▸ hmem)
    rw [List.map_append, List.map_cons, List.map_cons, List.cons_append, List.eraseDups_cons,
      List.filter_append, hothers, hkept, List.nil_append]
  have hrest : ∀ other ∈ (rest.map Prod.fst).eraseDups,
      valuesOf other ((doc :: others).map (name, ·) ++ rest) = valuesOf other rest := by
    intro other hmem
    have hne : other ≠ name := fun heq => hnew (heq ▸ List.mem_eraseDups.1 hmem)
    have hnone : valuesOf other ((doc :: others).map (name, ·)) = [] := by
      refine valuesOf_eq_nil.2 fun hother => ?_
      obtain ⟨entry, hentry, heq⟩ := List.mem_map.1 hother
      obtain ⟨value, -, rfl⟩ := List.mem_map.1 hentry
      exact hne heq.symm
    rw [valuesOf_append, hnone, List.nil_append]
  rw [grouped, hnames, List.map_cons, hown, grouped]
  congr 1
  exact List.map_congr_left fun other hmem => by rw [hrest other hmem]

theorem grouped_map {name : String} {docs : List Document} (hdocs : docs ≠ []) :
    grouped (docs.map (name, ·)) = [(name, together docs)] := by
  have h : grouped (docs.map (name, ·) ++ []) = _ := grouped_append hdocs List.not_mem_nil
  rwa [List.append_nil] at h

def membersIn (attributes : List (String × String)) (children : List Node) : Fields Document :=
  attributes.map (fun entry => (entry.1, .string entry.2)) ++ grouped (childDocuments children)

/-- Elements of a new name make up one more member. -/
theorem membersIn_perm {name : String} {attributes : List (String × String)}
    {nodes children : List Node} (hnodes : nodes ≠ []) (hnames : ∀ node ∈ nodes, node.HasName name)
    (hnew : name ∉ Fields.names (membersIn attributes children)) :
    (membersIn attributes (nodes ++ children)).Perm
      ((name, together (nodes.map Node.document)) :: membersIn attributes children) := by
  have hrest : name ∉ (childDocuments children).map Prod.fst := fun hmem => hnew (by
    rw [membersIn, Fields.names_append]
    exact List.mem_append_right _ (mem_names_grouped.2 hmem))
  have hdocs : nodes.map (fun node => (name, node.document)) =
      (nodes.map Node.document).map (name, ·) := by
    rw [List.map_map]
    rfl
  rw [membersIn, childDocuments_append, childDocuments_of_hasName hnames, hdocs,
    grouped_append (by simpa using hnodes) hrest]
  exact List.perm_middle

/-- An element whose attributes and elements have distinct names stands for them; without any it is
an empty text. -/
theorem document_element {name : String} {spaces attributes : List (String × String)}
    {children : List Node} (hspaces : ∀ entry ∈ spaces, declares entry.1 = true)
    (hattributes : ∀ entry ∈ attributes, declares entry.1 = false)
    (hchildren : AreElements children)
    (hnodup : (Fields.names (membersIn attributes children)).Nodup) :
    (Node.element name (spaces ++ attributes) children).document =
      if membersIn attributes children = [] then .string ""
      else .object (membersIn attributes children) := by
  have hkept : (spaces ++ attributes).filter (fun entry => !declares entry.1) = attributes := by
    rw [List.filter_append, List.filter_eq_nil_iff.2 fun entry hmem => by simp [hspaces entry hmem],
      List.filter_eq_self.2 fun entry hmem => by simp [hattributes entry hmem], List.nil_append]
  have hnil : (childDocuments children = [] ∧ attributes = []) ↔
      membersIn attributes children = [] := by
    rw [membersIn, List.append_eq_nil_iff, List.map_eq_nil_iff, grouped_eq_nil, and_comm]
  rw [Node.document, hkept, documentOf]
  rw [hchildren.innerText]
  by_cases h : membersIn attributes children = []
  · rw [if_pos (hnil.2 h), if_pos h]
  · rw [if_neg fun hboth => h (hnil.1 hboth), if_neg h, ← membersIn, Fields.ofList_of_nodup hnodup]

theorem document_children {name : String} {children : List Node} (hchildren : AreElements children)
    (hnodup : (Fields.names (membersIn [] children)).Nodup) :
    (Node.element name [] children).document =
      if membersIn [] children = [] then .string "" else .object (membersIn [] children) :=
  document_element (fun _ hmem => absurd hmem List.not_mem_nil)
    (fun _ hmem => absurd hmem List.not_mem_nil) hchildren hnodup

theorem document_text {name : String} {spaces : List (String × String)}
    (hspaces : ∀ entry ∈ spaces, declares entry.1 = true) (s : String) :
    (Node.element name spaces [.text s]).document = .string s := by
  have hnone : spaces.filter (fun entry => !declares entry.1) = [] :=
    List.filter_eq_nil_iff.2 fun entry hmem => by simp [hspaces entry hmem]
  rw [Node.document, hnone, documentOf, if_pos ⟨rfl, rfl⟩]
  simp [innerText]

end ServiceBindings.Xml
