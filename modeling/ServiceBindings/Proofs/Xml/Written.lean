import ServiceBindings.Proofs.Xml.Elements
import ServiceBindings.Proofs.Xml.Nesting

/-! Elements are read back from the documents as which they are written. -/
namespace ServiceBindings.Xml

def attributeItem (entry : String × String) : Item :=
  .attribute (.ofText entry.1) (String.ofList (entry.2.toList.flatMap escapeChar))

/-- The part that the characters of a text are written as, unless there are none. -/
def textItems (chars : List Char) : List Item :=
  if chars = [] then [] else [.text (String.ofList (chars.flatMap escapeChar))]

mutual

def Node.item : Node → Item
  | .element name attributes children =>
    .element (.ofText name) (attributes.map attributeItem ++ itemsOf [] children)
  | .text s => .text (escape s)

/-- The parts that nodes behind some text are written as. Texts side by side make up one. -/
def itemsOf (pending : List Char) : List Node → List Item
  | [] => textItems pending
  | node :: rest =>
    match node with
    | .element _ _ _ => textItems pending ++ node.item :: itemsOf [] rest
    | .text s => itemsOf (pending ++ s.toList) rest

end

theorem nests_attributes (attributes : List (String × String)) :
    Nests (attributes.map attributeToken) (attributes.map attributeItem) := by
  induction attributes with
  | nil => exact .nil
  | cons entry rest ih => exact .single (.attribute _ _) ih

theorem nests_textTokens (chars : List Char) : Nests (textTokens chars) (textItems chars) := by
  unfold textTokens textItems
  split_ifs
  · exact .nil
  · exact .single (.text _) .nil

/-- A tag and what follows up to the end of its element make up the parts of the element. -/
theorem exists_nests_tagTokens (name : String) (attributes : List (String × String))
    {children : List Node} (h : Nests (nodesTokens [] children) (itemsOf [] children)) :
    ∃ inner last, tagTokens name attributes children = inner ++ [last] ∧
      Nests inner (attributes.map attributeItem ++ itemsOf [] children) ∧
      Ends (.ofText name) last := by
  have hattributes := nests_attributes attributes
  unfold tagTokens
  cases children with
  | nil => exact ⟨_, .emptyEnd, rfl, by simpa [itemsOf, textItems] using hattributes, .empty⟩
  | cons child others =>
    exact ⟨attributes.map attributeToken ++ .tagEnd :: nodesTokens [] (child :: others),
      .elementEnd (.ofText name), by simp, hattributes.append (.tagEnd h), .tag rfl⟩

theorem nests_nodesTokens (nodes : List Node) :
    ∀ pending, Nests (nodesTokens pending nodes) (itemsOf pending nodes) := by
  induction nodes using content_induction with
  | nil =>
    intro pending
    rw [nodesTokens, itemsOf]
    exact nests_textTokens pending
  | text s others ih =>
    intro pending
    rw [nodesTokens, itemsOf]
    exact ih (pending ++ s.toList)
  | element name attributes children others ihchildren ih =>
    intro pending
    obtain ⟨inner, last, htag, hinner, hlast⟩ :=
      exists_nests_tagTokens name attributes (ihchildren [])
    have helement := (nests_textTokens pending).append (.element hinner hlast (ih []))
    rw [nodesTokens, itemsOf, Node.item, tokens_element, htag]
    simpa using helement

theorem resolved_flatMap (chars : List Char) :
    resolved (String.ofList (chars.flatMap escapeChar)) = String.ofList chars := by
  rw [resolved, unescape_flatMap]

theorem resolve_attributes (attributes : List (String × String)) :
    Resolve (attributes.map attributeItem) := by
  induction attributes with
  | nil => trivial
  | cons entry rest ih => exact ⟨fun _ => ⟨_, unescape_flatMap _⟩, ih⟩

theorem resolve_textItems (chars : List Char) : Resolve (textItems chars) := by
  unfold textItems
  split_ifs
  · trivial
  · exact ⟨⟨_, unescape_flatMap chars⟩, trivial⟩

/-- Every reference that is written names a character. -/
theorem resolve_itemsOf (nodes : List Node) : ∀ pending, Resolve (itemsOf pending nodes) := by
  induction nodes using content_induction with
  | nil =>
    intro pending
    rw [itemsOf]
    exact resolve_textItems pending
  | text s others ih =>
    intro pending
    rw [itemsOf]
    exact ih (pending ++ s.toList)
  | element name attributes children others ihchildren ih =>
    intro pending
    have hitem : (Node.element name attributes children).item.Resolves := by
      rw [Node.item]
      exact resolve_append.2 ⟨resolve_attributes attributes, ihchildren []⟩
    rw [itemsOf]
    exact resolve_append.2 ⟨resolve_textItems pending, hitem, ih []⟩

/-- What parts hold: attributes, text and elements. -/
structure Hold (items : List Item) (attributes : List (String × String)) (text : String)
    (children : List (String × Document)) : Prop where
  attributes : attributesIn items = attributes
  text : textIn items = text
  children : childrenIn items = children

theorem Hold.append {items others : List Item} {attributes more : List (String × String)}
    {text rest : String} {children siblings : List (String × Document)}
    (h : Hold items attributes text children) (h' : Hold others more rest siblings) :
    Hold (items ++ others) (attributes ++ more) (text ++ rest) (children ++ siblings) := by
  constructor
  · rw [attributesIn_append, h.attributes, h'.attributes]
  · rw [textIn_append, h.text, h'.text]
  · rw [childrenIn_append, h.children, h'.children]

theorem hold_attributes {attributes : List (String × String)}
    (h : ∀ entry ∈ attributes, IsName entry.1) :
    Hold (attributes.map attributeItem) (attributes.filter fun entry => !declares entry.1) ""
      [] := by
  induction attributes with
  | nil => exact ⟨rfl, rfl, rfl⟩
  | cons entry rest ih =>
    obtain ⟨hname, hothers⟩ := List.forall_mem_cons.1 h
    have hentry :
        Hold [attributeItem entry] ([entry].filter fun entry => !declares entry.1) "" [] := by
      refine ⟨?_, rfl, rfl⟩
      rw [attributesIn, attributeItem, Item.attribute?, hname.declaresNamespace, hname.text_ofText,
        resolved_flatMap, String.ofList_toList]
      by_cases hdeclares : declares entry.1 = true
      · simp [attributesIn, hdeclares]
      · simp [attributesIn, hdeclares]
    have hall := hentry.append (ih hothers)
    rwa [← List.filter_append] at hall

theorem hold_textItems (chars : List Char) :
    Hold (textItems chars) [] (String.ofList chars) [] := by
  unfold textItems
  split_ifs with hnil
  · subst hnil
    exact ⟨rfl, rfl, rfl⟩
  · refine ⟨rfl, ?_, rfl⟩
    rw [textIn, Item.ownText, resolved_flatMap]
    exact String.append_empty

/-- Content is written as parts that hold its text and its elements. -/
def ContentHolds (nodes : List Node) : Prop :=
  ∀ pending, Hold (itemsOf pending nodes) [] (String.ofList pending ++ innerText nodes)
    (childDocuments nodes)

/-- An element is written as a part that stands for its document. -/
theorem ContentHolds.child? {name : String} {attributes : List (String × String)}
    {children : List Node} (hname : IsName name)
    (hattributes : ∀ entry ∈ attributes, IsName entry.1) (h : ContentHolds children) :
    (Node.element name attributes children).item.child? =
      some (name, (Node.element name attributes children).document) := by
  have hitems := (hold_attributes hattributes).append (h [])
  rw [Node.item, Item.child?, hitems.attributes, hitems.text, hitems.children, hname.text_ofText,
    Node.document]
  simp

theorem contentHolds (nodes : List Node) (hnodes : ArePlain nodes) : ContentHolds nodes := by
  induction nodes using content_induction with
  | nil =>
    intro pending
    rw [itemsOf, innerText, childDocuments, String.append_empty]
    exact hold_textItems pending
  | text s others ih =>
    intro pending
    have hrest := ih hnodes.2 (pending ++ s.toList)
    rw [itemsOf, innerText, childDocuments]
    simpa [String.append_assoc] using hrest
  | element name attributes children others ihchildren ih =>
    intro pending
    obtain ⟨⟨hname, hattributes, hchildren⟩, hothers⟩ := hnodes
    have hchild := (ihchildren hchildren).child? hname fun entry hmem => (hattributes entry hmem).1
    have helement : Hold [(Node.element name attributes children).item] [] ""
        [(name, (Node.element name attributes children).document)] := by
      constructor
      · simp [attributesIn, Node.item, Item.attribute?]
      · simp [textIn, Node.item, Item.ownText]
      · rw [childrenIn, hchild]
        rfl
    have hall := (hold_textItems pending).append (helement.append (ih hothers []))
    rw [itemsOf, innerText, childDocuments]
    simpa using hall

/-- A plain element is read back from its document. -/
theorem read_documentText {root : Element} (h : root.toNode.IsPlain) :
    read (Text.utf8 (documentText (some root))) = .ok (some ⟨root.name, root.toNode.document⟩) := by
  have hblank : (documentText (some root)).toList.all Text.isBlank = false := by
    have htext : (documentText (some root)).toList = declaration.toList ++ root.toNode.chars :=
      String.toList_ofList
    rw [htext, List.all_append]
    rfl
  obtain ⟨inner, last, htag, hinner, hlast⟩ :=
    exists_nests_tagTokens root.name root.attributes (nests_nodesTokens root.children [])
  have hform : FormElement root.toNode.tokens (.ofText root.name)
      (root.attributes.map attributeItem ++ itemsOf [] root.children) := by
    refine ⟨[], inner, last, [], ?_, hinner, hlast, by simp⟩
    rw [Element.toNode, tokens_element, htag, List.nil_append]
  have hresolve : Resolve (root.attributes.map attributeItem ++ itemsOf [] root.children) :=
    resolve_append.2 ⟨resolve_attributes _, resolve_itemsOf _ []⟩
  obtain ⟨hname, hattributes, hchildren⟩ := id h
  have hchild := (contentHolds _ hchildren).child? hname fun entry hmem =>
    (hattributes entry hmem).1
  rw [Node.item, Item.child?, Option.some.injEq, Prod.mk.injEq] at hchild
  have hread : readTokens root.toNode.tokens true = .ok ⟨root.name, root.toNode.document⟩ :=
    readTokens_eq_ok.2 ⟨_, _, hform, hresolve, by rw [hchild.1, contentOf, hchild.2]; rfl⟩
  rw [read, Text.ofUtf8?_utf8]
  dsimp only
  rw [if_neg (by simp [hblank]), scan_documentText h, hread]
  rfl

/-- A tag without the texts in it. Texts between tags are none. -/
def Token.tag? : Token → Option Token
  | .attribute name _ => some (.attribute name "")
  | .text _ => none
  | .cdata _ => none
  | token => some token

/-- The tags of a text in order. -/
def tagsOf (s : String) : List Token :=
  (Token.scan s).1.filterMap Token.tag?

mutual

def Node.emptied : Node → Node
  | .element name attributes children =>
    .element name (attributes.map fun entry => (entry.1, "")) (emptiedNodes children)
  | .text _ => .text ""

def emptiedNodes : List Node → List Node
  | [] => []
  | node :: rest => node.emptied :: emptiedNodes rest

end

def Element.emptied (e : Element) : Element where
  name := e.name
  attributes := e.attributes.map fun entry => (entry.1, "")
  children := emptiedNodes e.children

theorem arePlain_emptiedNodes (nodes : List Node) (h : ArePlain nodes) :
    ArePlain (emptiedNodes nodes) := by
  have hempty : IsText "" := by simp [IsText]
  induction nodes using content_induction with
  | nil => trivial
  | text s others ih => exact ⟨hempty, ih h.2⟩
  | element name attributes children others ihchildren ih =>
    obtain ⟨⟨hname, hattributes, hchildren⟩, hothers⟩ := h
    refine ⟨⟨hname, fun entry hmem => ?_, ihchildren hchildren⟩, ih hothers⟩
    obtain ⟨written, hwritten, rfl⟩ := List.mem_map.1 hmem
    exact ⟨(hattributes written hwritten).1, hempty⟩

theorem tags_textTokens (chars : List Char) : (textTokens chars).filterMap Token.tag? = [] := by
  unfold textTokens
  split_ifs <;> rfl

theorem tags_attributes (attributes : List (String × String)) :
    (attributes.map attributeToken).filterMap Token.tag? =
      ((attributes.map fun entry => (entry.1, "")).map attributeToken).filterMap Token.tag? := by
  induction attributes with
  | nil => rfl
  | cons entry rest ih =>
    rw [List.map_cons, List.map_cons, List.map_cons]
    simp [attributeToken, Token.tag?, ih]

/-- The tags of an element depend on no text if those of its content do not. -/
theorem tags_tagTokens (name : String) (attributes : List (String × String))
    {children : List Node} (h : (nodesTokens [] children).filterMap Token.tag? =
      (nodesTokens [] (emptiedNodes children)).filterMap Token.tag?) :
    (tagTokens name attributes children).filterMap Token.tag? =
      (tagTokens name (attributes.map fun entry => (entry.1, "")) (emptiedNodes children)).filterMap
        Token.tag? := by
  unfold tagTokens
  rw [List.filterMap_append, List.filterMap_append, tags_attributes attributes]
  congr 1
  cases children with
  | nil => rfl
  | cons child others =>
    rw [emptiedNodes] at h ⊢
    simp [Token.tag?, h]

theorem tags_nodesTokens (nodes : List Node) : ∀ pending others : List Char,
    (nodesTokens pending nodes).filterMap Token.tag? =
      (nodesTokens others (emptiedNodes nodes)).filterMap Token.tag? := by
  induction nodes using content_induction with
  | nil =>
    intro pending others
    rw [emptiedNodes, nodesTokens, nodesTokens, tags_textTokens, tags_textTokens]
  | text s rest ih =>
    intro pending others
    rw [emptiedNodes, Node.emptied, nodesTokens, nodesTokens]
    exact ih _ _
  | element name attributes children rest ihchildren ih =>
    intro pending others
    have htag := tags_tagTokens name attributes (ihchildren [] [])
    rw [emptiedNodes, Node.emptied, nodesTokens, nodesTokens, tokens_element, tokens_element]
    simp [tags_textTokens, Token.tag?, htag, ih [] []]

/-- A plain element is read back under its name as its document, and its document has the tags that
it has without any text. -/
theorem read_and_tags_of_documentText {root : Element} (h : root.toNode.IsPlain) :
    read (Text.utf8 (documentText (some root))) = .ok (some ⟨root.name, root.toNode.document⟩) ∧
      tagsOf (documentText (some root)) = tagsOf (documentText (some root.emptied)) := by
  obtain ⟨hname, hattributes, hchildren⟩ := id h
  have hemptied : root.emptied.toNode.IsPlain :=
    arePlain_emptiedNodes [root.toNode] ⟨h, trivial⟩ |>.1
  have htags : root.toNode.tokens.filterMap Token.tag? =
      root.emptied.toNode.tokens.filterMap Token.tag? := by
    have hcontent := tags_nodesTokens root.children [] []
    have htag := tags_tagTokens root.name root.attributes hcontent
    rw [Element.toNode, Element.toNode, tokens_element, tokens_element]
    exact congrArg (Token.elementStart (.ofText root.name) :: ·) htag
  refine ⟨read_documentText h, ?_⟩
  unfold tagsOf
  rw [scan_documentText h, scan_documentText hemptied]
  exact htags

/-- An element whose texts look like markup. -/
def markupElement : Element where
  name := "p:a"
  attributes := [("xmlns:p", "u"), ("k", "\"<b>\r")]
  children := [.text "]]>", .element "b" [] [], .text "&lt;",
    .element "b" [] [.text "</b>", .text "x"]]

theorem read_and_tags_of_markupElement : markupElement.toNode.IsPlain ∧
    read (Text.utf8 (documentText (some markupElement))) = .ok (some ⟨"p:a", .object [
      ("k", .string "\"<b>\r"), ("b", .array [.string "", .string "</b>x"])]⟩) ∧
    tagsOf (documentText (some markupElement)) =
      tagsOf (documentText (some markupElement.emptied)) := by
  have hname : IsName "p:a" := by decide
  have hspace : IsName "xmlns:p" := by decide
  have hattribute : IsName "k" := by decide
  have hchild : IsName "b" := by decide
  have hattributes : ∀ entry ∈ markupElement.attributes, IsName entry.1 ∧ IsText entry.2 := by
    simp only [markupElement, List.forall_mem_cons]
    exact ⟨⟨hspace, by decide⟩, ⟨hattribute, by decide⟩, by simp⟩
  have hplain : markupElement.toNode.IsPlain := by
    refine ⟨hname, hattributes, ?_, ⟨hchild, by simp, trivial⟩, ?_,
      ⟨hchild, by simp, ?_, ?_, trivial⟩, trivial⟩
    all_goals
      unfold Node.IsPlain
      decide
  have hdocument : markupElement.toNode.document = .object [
      ("k", .string "\"<b>\r"), ("b", .array [.string "", .string "</b>x"])] := rfl
  have hread := read_and_tags_of_documentText hplain
  rw [hdocument] at hread
  exact ⟨hplain, hread⟩

end ServiceBindings.Xml
