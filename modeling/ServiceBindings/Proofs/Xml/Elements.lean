import ServiceBindings.Proofs.Xml.Document
import ServiceBindings.Proofs.Xml.Scan

/-! Elements are written as documents, which are cut into the tags and texts of the elements. -/
namespace ServiceBindings.Xml
open Token (Place placeWithin scanFrom)

/-- A text of characters that a document may hold. -/
def IsText (s : String) : Prop :=
  ∀ c ∈ s.toList, isChar c = true

instance : DecidablePred IsText := fun _ => decidable_of_iff _ List.all_eq_true

mutual

/-- Elements and attributes have names, and all texts are made up of characters that a document may
hold. -/
def Node.IsPlain : Node → Prop
  | .element name attributes children =>
    IsName name ∧ (∀ entry ∈ attributes, IsName entry.1 ∧ IsText entry.2) ∧ ArePlain children
  | .text s => IsText s

def ArePlain : List Node → Prop
  | [] => True
  | node :: rest => node.IsPlain ∧ ArePlain rest

end

/-- Content is nothing, or begins with a text or an element whose content comes before what follows
it. -/
@[elab_as_elim]
theorem content_induction {motive : List Node → Prop} (nil : motive [])
    (text : ∀ s rest, motive rest → motive (.text s :: rest))
    (element : ∀ name attributes children rest, motive children → motive rest →
      motive (.element name attributes children :: rest)) (nodes : List Node) : motive nodes := by
  match nodes with
  | [] => exact nil
  | .text s :: rest => exact text s rest (content_induction nil text element rest)
  | .element name attributes children :: rest =>
    have hchildren := content_induction nil text element children
    have hrest := content_induction nil text element rest
    exact element name attributes children rest hchildren hrest

def innerText : List Node → String
  | [] => ""
  | .text s :: rest => s ++ innerText rest
  | .element _ _ _ :: rest => innerText rest

mutual

/-- The document of a node: that of an element is made up from its attributes, except those that
declare namespaces, and from its content. -/
def Node.document : Node → Document
  | .element _ attributes children =>
    documentOf (attributes.filter fun entry => !declares entry.1) (childDocuments children)
      (innerText children)
  | .text s => .string s

def childDocuments : List Node → List (String × Document)
  | [] => []
  | node :: rest =>
    match node with
    | .element name _ _ => (name, node.document) :: childDocuments rest
    | .text _ => childDocuments rest

end

def attributeToken (entry : String × String) : Token :=
  .attribute (.ofText entry.1) (String.ofList (entry.2.toList.flatMap escapeChar))

mutual

def Node.tokens : Node → List Token
  | .element name attributes children =>
    .elementStart (.ofText name) :: (attributes.map attributeToken ++
      match children with
      | [] => [.emptyEnd]
      | _ :: _ => .tagEnd :: (nodesTokens [] children ++ [.elementEnd (.ofText name)]))
  | .text s => textTokens s.toList

/-- The tokens of nodes behind some text. Texts side by side make up one token. -/
def nodesTokens (pending : List Char) : List Node → List Token
  | [] => textTokens pending
  | node :: rest =>
    match node with
    | .element _ _ _ => textTokens pending ++ (node.tokens ++ nodesTokens [] rest)
    | .text s => nodesTokens (pending ++ s.toList) rest

end

/-- The characters of a tag behind its name, with the content and the closing tag of its element. -/
def tagChars (name : String) (attributes : List (String × String)) (children : List Node) :
    List Char :=
  attributes.flatMap attributeChars ++
    match children with
    | [] => ['/', '>']
    | _ :: _ => '>' :: (nodesChars children ++ '<' :: '/' :: (name.toList ++ ['>']))

/-- The tokens of a tag behind its name, with those of the content and of the closing tag. -/
def tagTokens (name : String) (attributes : List (String × String)) (children : List Node) :
    List Token :=
  attributes.map attributeToken ++
    match children with
    | [] => [.emptyEnd]
    | _ :: _ => .tagEnd :: (nodesTokens [] children ++ [.elementEnd (.ofText name)])

theorem chars_element (name : String) (attributes : List (String × String))
    (children : List Node) : (Node.element name attributes children).chars =
      '<' :: (name.toList ++ tagChars name attributes children) := by
  cases children with
  | nil => rw [Node.chars, tagChars]
  | cons child rest =>
    rw [Node.chars, tagChars, nodesChars]
    simp only [List.append_assoc]

theorem tokens_element (name : String) (attributes : List (String × String))
    (children : List Node) : (Node.element name attributes children).tokens =
      .elementStart (.ofText name) :: tagTokens name attributes children := by
  cases children <;> rw [Node.tokens, tagTokens]

theorem endsName_tagChars (name : String) (attributes : List (String × String))
    (children : List Node) (rest : List Char) :
    EndsName (tagChars name attributes children ++ rest) := by
  cases attributes with
  | nil =>
    cases children with
    | nil => show (!isNameChar '/') = true; decide
    | cons => show (!isNameChar '>') = true; decide
  | cons => show (!isNameChar ' ') = true; decide

theorem scans_attributes {attributes : List (String × String)}
    (h : ∀ entry ∈ attributes, IsName entry.1 ∧ IsText entry.2) (depth : Nat)
    (rest : List Char) :
    Scans (.tag depth) (attributes.flatMap attributeChars ++ rest)
      (attributes.map attributeToken) (.tag depth) rest := by
  induction attributes with
  | nil => exact .refl _ _
  | cons entry others ih =>
    obtain ⟨hname, htext⟩ := h entry List.mem_cons_self
    rw [List.flatMap_cons, List.append_assoc]
    exact (scans_attribute hname htext depth).trans
      (ih fun entry hmem => h entry (List.mem_cons_of_mem _ hmem))

/-- Content is scanned up to the tag behind it. -/
def ContentScans (nodes : List Node) : Prop :=
  ∀ pending : List Char, (∀ c ∈ pending, isChar c = true) → ∀ (depth : Nat) (rest : List Char),
    Scans (.content (depth + 1)) (pending.flatMap escapeChar ++ (nodesChars nodes ++ '<' :: rest))
      (nodesTokens pending nodes) (.content (depth + 1)) ('<' :: rest)

/-- A tag is scanned up to the end of its element. -/
theorem ContentScans.tag {name : String} {attributes : List (String × String)}
    {children : List Node} (hname : IsName name)
    (hattributes : ∀ entry ∈ attributes, IsName entry.1 ∧ IsText entry.2)
    (h : ContentScans children) (depth : Nat) (rest : List Char) :
    Scans (.tag depth) (tagChars name attributes children ++ rest)
      (tagTokens name attributes children) (placeWithin depth) rest := by
  unfold tagChars tagTokens
  rw [List.append_assoc]
  apply (scans_attributes hattributes depth _).trans
  cases children with
  | nil => exact scans_emptyEnd depth rest
  | cons child others =>
    have hnodes := h [] (by simp) depth ('/' :: (name.toList ++ '>' :: rest))
    have hend := scans_elementEnd hname depth rest
    have hcontent := hnodes.trans hend
    have htag := (scans_tagEnd depth _).trans hcontent
    simpa using htag

theorem contentScans (nodes : List Node) (hnodes : ArePlain nodes) : ContentScans nodes := by
  induction nodes using content_induction with
  | nil =>
    intro pending hpending depth rest
    rw [nodesTokens]
    exact scans_text hpending (depth + 1) rest
  | text s others ih =>
    intro pending hpending depth rest
    have hchars : ∀ c ∈ pending ++ s.toList, isChar c = true := by
      intro c hc
      exact (List.mem_append.1 hc).elim (hpending c) (hnodes.1 c)
    have hrest := ih hnodes.2 (pending ++ s.toList) hchars depth rest
    rw [nodesTokens, nodesChars, Node.chars]
    simpa using hrest
  | element name attributes children others ihchildren ih =>
    intro pending hpending depth rest
    obtain ⟨⟨hname, hattributes, hchildren⟩, hothers⟩ := hnodes
    have hrest := ih hothers [] (by simp) depth rest
    have htag := (ihchildren hchildren).tag hname hattributes (depth + 1)
      (nodesChars others ++ '<' :: rest)
    have hstart := scans_elementStart hname
      (endsName_tagChars name attributes children (nodesChars others ++ '<' :: rest)) (depth + 1)
    have htext := scans_text hpending (depth + 1)
      (name.toList ++ (tagChars name attributes children ++ (nodesChars others ++ '<' :: rest)))
    have hplace : placeWithin (depth + 1) = .content (depth + 1) := rfl
    rw [hplace] at htag
    have hall := ((htext.trans hstart).trans htag).trans hrest
    rw [nodesTokens, nodesChars, chars_element, tokens_element]
    simpa using hall

/-- The declaration in front of a document, and the line's end behind it, yield no tokens. -/
theorem scans_declaration (rest : List Char)
    (hrest : ∃ c more, rest = c :: more ∧ isSpace c = false) :
    Scans .declaration (declaration.toList ++ rest) [] .prolog rest := by
  obtain ⟨c, more, rfl, hc⟩ := hrest
  have hdeclaration : Scans .declaration (declaration.toList ++ c :: more) [] .prolog
      ('\n' :: c :: more) := .pass rfl (by simp [declaration])
  refine hdeclaration.trans (.pass ?_ (by simp))
  have hskip : Token.skipSpace ('\n' :: c :: more) = c :: more := by
    rw [Token.skipSpace, List.dropWhile_cons_of_pos (by decide)]
    exact skipSpace_cons hc more
  show some { place := Place.prolog, rest := Token.skipSpace ('\n' :: c :: more) : Token.Step } = _
  rw [hskip]

theorem startsWith_eq_false {c d : Char} (hne : c ≠ d) (expected rest : List Char) :
    Text.startsWith (String.ofList ('<' :: d :: expected)) ('<' :: c :: rest) = false := by
  simp [Text.startsWith, Text.expect?, Ne.symm hne]

/-- Neither a comment nor an instruction nor white space stands where a tag opens. -/
theorem misc?_eq_none {c : Char} (hc : isNameStart c = true) (place : Place) (rest : List Char) :
    Token.misc? place ('<' :: c :: rest) = none := by
  have hcomment : Text.startsWith "<!--" ('<' :: c :: rest) = false :=
    startsWith_eq_false (ne_of_isNameStart hc (by decide)) ['-', '-'] rest
  have hinstruction : Text.startsWith "<?" ('<' :: c :: rest) = false :=
    startsWith_eq_false (ne_of_isNameStart hc (by decide)) [] rest
  have hspace : (('<' :: c :: rest).head?.any isSpace) = false := rfl
  rw [Token.misc?, hcomment, hinstruction, hspace]
  rfl

/-- The root opens without any step that takes a character. -/
theorem scanFrom_prolog {c : Char} (hc : isNameStart c = true) (rest : List Char) (fuel : Nat) :
    scanFrom (fuel + 1) .prolog ('<' :: c :: rest) =
      scanFrom fuel .beforeRoot ('<' :: c :: rest) := by
  have hdoctype : Text.startsWith "<!DOCTYPE" ('<' :: c :: rest) = false :=
    startsWith_eq_false (ne_of_isNameStart hc (by decide)) "DOCTYPE".toList rest
  rw [scanFrom, Token.step?, Token.prologStep?, hdoctype, misc?_eq_none hc]
  rfl

theorem scans_root {root : Element} (h : root.toNode.IsPlain) :
    Scans .beforeRoot root.toNode.chars root.toNode.tokens .afterRoot [] := by
  obtain ⟨hname, hattributes, hchildren⟩ := h
  obtain ⟨c, more, hc, hstart⟩ := hname.exists_cons
  have htag := (contentScans _ hchildren).tag hname hattributes 0 []
  rw [List.append_nil] at htag
  have hends := endsName_tagChars root.name root.attributes root.children []
  rw [List.append_nil] at hends
  rw [Element.toNode, chars_element, tokens_element]
  refine Scans.trans (.one ?_ (by simp [hc]; omega)) htag
  rw [Token.step?, Token.beforeRootStep?, hc, List.cons_append, misc?_eq_none hstart,
    ← List.cons_append, ← hc]
  exact elementStart?_of_isName hname hends 0

/-- No mark of byte order is skipped in front of a tag. -/
theorem scan_of_tag {s : String} {rest : List Char} (h : s.toList = '<' :: rest) :
    Token.scan s = scanFrom (s.toList.length + 2) .declaration s.toList := by
  rw [Token.scan, h]
  rfl

theorem scan_documentText {root : Element} (h : root.toNode.IsPlain) :
    Token.scan (documentText (some root)) = (root.toNode.tokens, true) := by
  obtain ⟨c, more, hc, hstart⟩ := h.1.exists_cons
  obtain ⟨rest, hchars⟩ : ∃ rest, root.toNode.chars = '<' :: c :: rest := by
    rw [Element.toNode, chars_element, hc]
    exact ⟨_, rfl⟩
  obtain ⟨steps, hlength, hscan⟩ := scans_declaration root.toNode.chars ⟨_, _, hchars, by decide⟩
  obtain ⟨steps', hlength', hscan'⟩ := scans_root h
  have htext : (documentText (some root)).toList = declaration.toList ++ root.toNode.chars :=
    String.toList_ofList
  have hopen : (documentText (some root)).toList = '<' :: ((declaration.toList).tail ++
      root.toNode.chars) := htext
  obtain ⟨fuel, hfuel⟩ : ∃ fuel, (documentText (some root)).toList.length + 2 =
      steps + (steps' + fuel + 1) := by
    rw [htext]
    simp only [List.length_nil] at hlength'
    exact ⟨(declaration.toList ++ root.toNode.chars).length + 1 - steps - steps', by omega⟩
  rw [scan_of_tag hopen, hfuel, htext, hscan, hchars, scanFrom_prolog hstart, ← hchars, hscan',
    List.nil_append, scanFrom, List.append_nil]

end ServiceBindings.Xml
