import ServiceBindings.Proofs.Steps
import ServiceBindings.Proofs.Text.Utf8
import ServiceBindings.Proofs.Xml.Document

/-! The reader takes exactly the tokens of one element with every element inside it closed, and
comes to what recursion over these elements comes to. -/
namespace ServiceBindings.Xml

/-- A part of an element, with texts as they are written. -/
inductive Item where
  | attribute (name : Name) (value : String)
  | text (s : String)
  | cdata (s : String)
  | element (name : Name) (items : List Item)

/-- A token is a part of an element by itself. -/
inductive IsSingle : Token → Item → Prop where
  | attribute (name : Name) (value : String) :
    IsSingle (.attribute name value) (.attribute name value)
  | text (s : String) : IsSingle (.text s) (.text s)
  | cdata (s : String) : IsSingle (.cdata s) (.cdata s)

/-- A token ends an element. A closing tag repeats the element's name. -/
inductive Ends (name : Name) : Token → Prop where
  | empty : Ends name .emptyEnd
  | tag {other : Name} : name.text = other.text → Ends name (.elementEnd other)

/-- Tokens make up the parts of an element: what opens among them is closed among them. -/
inductive Nests : List Token → List Item → Prop where
  | nil : Nests [] []
  | tagEnd {tokens : List Token} {items : List Item} :
    Nests tokens items → Nests (.tagEnd :: tokens) items
  | single {token : Token} {tokens : List Token} {item : Item} {items : List Item} :
    IsSingle token item → Nests tokens items → Nests (token :: tokens) (item :: items)
  | element {inner tokens : List Token} {content items : List Item} {name : Name} {last : Token} :
    Nests inner content → Ends name last → Nests tokens items →
      Nests (.elementStart name :: (inner ++ last :: tokens)) (.element name content :: items)

/-- A token outside of every element that neither opens nor closes one. -/
def IsOutside : Token → Prop
  | .text _ => True
  | .cdata _ => True
  | .tagEnd => True
  | _ => False

/-- Tokens form one element. -/
def FormElement (tokens : List Token) (name : Name) (items : List Item) : Prop :=
  ∃ before inner last after, tokens = before ++ .elementStart name :: (inner ++ last :: after) ∧
    Nests inner items ∧ Ends name last ∧ ∀ token ∈ before ++ after, IsOutside token

mutual

/-- Every reference names a character, except in attributes that declare namespaces and in character
data without references. -/
def Item.Resolves : Item → Prop
  | .attribute name value => name.declaresNamespace = false → ∃ s, unescape value = .ok s
  | .text s => ∃ t, unescape s = .ok t
  | .cdata _ => True
  | .element _ items => Resolve items

/-- Every part resolves. -/
def Resolve : List Item → Prop
  | [] => True
  | item :: rest => item.Resolves ∧ Resolve rest

end

def resolved (s : String) : String :=
  match unescape s with
  | .ok t => t
  | .error _ => ""

/-- The attribute that a part is, unless it declares a namespace. -/
def Item.attribute? : Item → Option (String × String)
  | .attribute name value =>
    if name.declaresNamespace then none else some (name.text, resolved value)
  | _ => none

def Item.ownText : Item → String
  | .text s => resolved s
  | .cdata s => s
  | _ => ""

def attributesIn : List Item → List (String × String)
  | [] => []
  | item :: rest => item.attribute?.toList ++ attributesIn rest

def textIn : List Item → String
  | [] => ""
  | item :: rest => item.ownText ++ textIn rest

mutual

/-- The element that a part is, with what it stands for. -/
def Item.child? : Item → Option (String × Document)
  | .element name items =>
    some (name.text, documentOf (attributesIn items) (childrenIn items) (textIn items))
  | _ => none

def childrenIn : List Item → List (String × Document)
  | [] => []
  | item :: rest => item.child?.toList ++ childrenIn rest

end

/-- What an element of these parts stands for. -/
def contentOf (items : List Item) : Document :=
  documentOf (attributesIn items) (childrenIn items) (textIn items)

theorem Nests.append {tokens more : List Token} {items others : List Item}
    (h : Nests tokens items) (h' : Nests more others) :
    Nests (tokens ++ more) (items ++ others) := by
  induction h with
  | nil => exact h'
  | tagEnd _ ih => exact .tagEnd ih
  | single hpart _ ih => exact .single hpart ih
  | element hinner hlast _ _ ih =>
    rw [List.cons_append, List.append_assoc]
    exact .element hinner hlast ih

theorem resolve_append {items others : List Item} :
    Resolve (items ++ others) ↔ Resolve items ∧ Resolve others := by
  induction items with
  | nil => simp [Resolve]
  | cons item rest ih => simp [Resolve, ih, and_assoc]

theorem attributesIn_append (items others : List Item) :
    attributesIn (items ++ others) = attributesIn items ++ attributesIn others := by
  induction items with
  | nil => rfl
  | cons item rest ih => simp [attributesIn, ih]

theorem textIn_append (items others : List Item) :
    textIn (items ++ others) = textIn items ++ textIn others := by
  induction items with
  | nil => simp [textIn]
  | cons item rest ih => simp [textIn, ih, String.append_assoc]

theorem childrenIn_append (items others : List Item) :
    childrenIn (items ++ others) = childrenIn items ++ childrenIn others := by
  induction items with
  | nil => simp [childrenIn]
  | cons item rest ih => simp [childrenIn, ih]

theorem isContent_childrenIn (items : List Item) :
    ∀ child ∈ childrenIn items, IsContent child.2 := by
  induction items with
  | nil => simp [childrenIn]
  | cons item rest ih =>
    intro child hmem
    rw [childrenIn, List.mem_append] at hmem
    rcases hmem with hmem | hmem
    · cases item with
      | element name items =>
        rw [Item.child?, Option.toList_some, List.mem_singleton] at hmem
        subst hmem
        exact isContent_documentOf _ _ _
      | «attribute» | text | cdata => simp [Item.child?] at hmem
    · exact ih child hmem

/-- An element that is open, after these parts. -/
def frameOf (name : Name) (items : List Item) : Frame where
  name := name.text
  attributes := attributesIn items
  children := enterChildren [] (childrenIn items)
  text := textIn items

theorem frameOf_concat (name : Name) (items : List Item) (item : Item) :
    frameOf name (items ++ [item]) = {
      name := name.text
      attributes := attributesIn items ++ item.attribute?.toList
      children := enterChildren (enterChildren [] (childrenIn items)) item.child?.toList
      text := textIn items ++ item.ownText } := by
  unfold frameOf
  rw [attributesIn_append, childrenIn_append, textIn_append]
  simp [attributesIn, childrenIn, textIn, enterChildren]

namespace Reader

theorem run_append (reader : Reader) (tokens more : List Token) :
    reader.run (tokens ++ more) = reader.run tokens >>= fun next => next.run more := by
  induction tokens generalizing reader with
  | nil => rfl
  | cons token rest ih =>
    rw [List.cons_append, run, run]
    cases reader.step token with
    | ok next => exact ih next
    | error e => rfl

/-- A part that is one token is taken just when it resolves. -/
theorem step_single {token : Token} {item : Item} (hpart : IsSingle token item) {name : Name}
    {items : List Item} {stack : List Frame} {next : Reader} :
    step { stack := frameOf name items :: stack } token = .ok next ↔
      item.Resolves ∧ next = { stack := frameOf name (items ++ [item]) :: stack } := by
  rw [frameOf_concat]
  cases hpart with
  | «attribute» tag value =>
    rw [step, Item.Resolves]
    dsimp only
    by_cases hdeclares : tag.declaresNamespace = true
    · rw [if_pos hdeclares]
      simp [hdeclares, Item.attribute?, Item.child?, Item.ownText, enterChildren, frameOf, eq_comm]
    · rw [if_neg hdeclares]
      cases hvalue : unescape value with
      | ok s =>
        simp [hdeclares, Item.attribute?, Item.child?, Item.ownText, resolved, hvalue,
          enterChildren, frameOf, eq_comm]
      | error e => simp [hdeclares]
  | text s =>
    rw [step, addText, Item.Resolves]
    cases hs : unescape s with
    | ok t =>
      simp [Item.attribute?, Item.child?, Item.ownText, resolved, hs, enterChildren, frameOf,
        eq_comm]
    | error e => simp
  | cdata s =>
    rw [step, addText, Item.Resolves]
    simp [Item.attribute?, Item.child?, Item.ownText, enterChildren, frameOf, eq_comm]

/-- An element that ends goes to where it belongs with what it stands for. -/
theorem close_frameOf {name : Name} {items : List Item} {stack : List Frame} {tag : Option Name}
    {next : Reader} : close { stack := frameOf name items :: stack } tag = .ok next ↔
      (∀ other ∈ tag, name.text = other.text) ∧
        next = deliver {} stack name.text (contentOf items) := by
  have hdocument : (frameOf name items).document = contentOf items :=
    document_enterChildren _ _ (isContent_childrenIn items) _
  rw [close]
  dsimp only
  rw [hdocument]
  have hdeliver :
      deliver { stack := frameOf name items :: stack } stack name.text (contentOf items) =
        deliver {} stack name.text (contentOf items) := by
    cases stack <;> rfl
  have hname : (frameOf name items).name = name.text := rfl
  rw [hname, hdeliver]
  cases tag with
  | none => simp [eq_comm]
  | some other =>
    by_cases hother : name.text = other.text
    · simp [hother, eq_comm]
    · simp [hother]

theorem step_end {name : Name} {last : Token} (hlast : Ends name last) {items : List Item}
    {stack : List Frame} {next : Reader} :
    step { stack := frameOf name items :: stack } last = .ok next ↔
      next = deliver {} stack name.text (contentOf items) := by
  cases hlast with
  | empty => rw [step, close_frameOf]; simp
  | tag hname => rw [step, close_frameOf]; simp [hname]

theorem deliver_frameOf (parent name : Name) (items content : List Item) (stack : List Frame) :
    deliver {} (frameOf parent items :: stack) name.text (contentOf content) =
      { stack := frameOf parent (items ++ [.element name content]) :: stack } := by
  rw [deliver, frameOf_concat]
  simp [Item.attribute?, Item.child?, Item.ownText, enterChildren, frameOf, contentOf]

/-- Tokens of parts that resolve add the parts to the element around them. -/
theorem run_of_nests {tokens : List Token} {items : List Item} (h : Nests tokens items)
    (hresolve : Resolve items) (name : Name) (before : List Item) (stack : List Frame) :
    run { stack := frameOf name before :: stack } tokens =
      .ok { stack := frameOf name (before ++ items) :: stack } := by
  induction h generalizing name before stack with
  | nil => rw [run, List.append_nil]
  | tagEnd _ ih => exact ih hresolve name before stack
  | single hpart _ ih =>
    rw [run, (step_single hpart).2 ⟨hresolve.1, rfl⟩]
    dsimp only
    rw [ih hresolve.2, List.append_assoc, List.singleton_append]
  | @element inner tokens content items tag last hinner hlast htokens ihinner ih =>
    have hopen : step { stack := frameOf name before :: stack } (.elementStart tag) =
        .ok { stack := frameOf tag [] :: frameOf name before :: stack } := rfl
    have hclose : step { stack := frameOf tag content :: frameOf name before :: stack } last =
        .ok { stack := frameOf name (before ++ [.element tag content]) :: stack } := by
      rw [← deliver_frameOf]
      exact (step_end hlast).2 rfl
    rw [run, hopen]
    dsimp only
    rw [run_append, ihinner hresolve.1, List.nil_append, ok_bind, run, hclose]
    dsimp only
    rw [ih hresolve.2, List.append_assoc, List.singleton_append]

end Reader

/-- Tokens so far open elements that they do not close, the innermost first, each with its parts so
far. -/
inductive Opens : List Token → List (Name × List Item) → Prop where
  | outside {tokens : List Token} : (∀ token ∈ tokens, IsOutside token) → Opens tokens []
  | inside {tokens inner : List Token} {stack : List (Name × List Item)} {name : Name}
    {items : List Item} : Opens tokens stack → Nests inner items →
      Opens (tokens ++ .elementStart name :: inner) ((name, items) :: stack)

/-- The reader inside open elements. -/
def readerOf (stack : List (Name × List Item)) : Reader where
  stack := stack.map fun element => frameOf element.1 element.2

/-- What the reader is after tokens: it keeps the open elements, or the one that they form. -/
inductive Stands (tokens : List Token) : Reader → Prop where
  | inside {stack : List (Name × List Item)} : Opens tokens stack →
    (∀ element ∈ stack, Resolve element.2) → Stands tokens (readerOf stack)
  | done {name : Name} {items : List Item} : FormElement tokens name items → Resolve items →
    Stands tokens { root := some ⟨name.text, contentOf items⟩ }

theorem FormElement.concat {tokens : List Token} {name : Name} {items : List Item}
    (h : FormElement tokens name items) {token : Token} (htoken : IsOutside token) :
    FormElement (tokens ++ [token]) name items := by
  obtain ⟨before, inner, last, after, rfl, hinner, hlast, houtside⟩ := h
  refine ⟨before, inner, last, after ++ [token], by simp, hinner, hlast, fun other hmem => ?_⟩
  rw [← List.append_assoc, List.mem_append, List.mem_singleton] at hmem
  rcases hmem with hmem | rfl
  · exact houtside other hmem
  · exact htoken

theorem Opens.concat_outside {tokens : List Token} (h : Opens tokens []) {token : Token}
    (htoken : IsOutside token) : Opens (tokens ++ [token]) [] := by
  cases h with
  | outside houtside =>
    refine .outside fun other hmem => ?_
    rcases List.mem_append.1 hmem with hmem | hmem
    · exact houtside other hmem
    · exact List.mem_singleton.1 hmem ▸ htoken

/-- A part goes to the innermost open element. -/
theorem Opens.concat {tokens more : List Token} {name : Name} {items others : List Item}
    {stack : List (Name × List Item)} (h : Opens tokens ((name, items) :: stack))
    (hmore : Nests more others) : Opens (tokens ++ more) ((name, items ++ others) :: stack) := by
  cases h with
  | inside hstack hinner =>
    rw [List.append_assoc, List.cons_append]
    exact .inside hstack (hinner.append hmore)

/-- The innermost open element closes: it is a part of the one around it, or the one that the tokens
form. -/
theorem Opens.close {tokens : List Token} {name : Name} {items : List Item}
    {stack : List (Name × List Item)} (h : Opens tokens ((name, items) :: stack)) {last : Token}
    (hlast : Ends name last) :
    match stack with
    | [] => FormElement (tokens ++ [last]) name items
    | (parent, others) :: stack =>
      Opens (tokens ++ [last]) ((parent, others ++ [.element name items]) :: stack) := by
  cases h with
  | @inside before inner _ _ _ hstack hinner =>
    cases stack with
    | nil =>
      cases hstack with
      | outside houtside =>
        exact ⟨before, inner, last, [], by simp, hinner, hlast, by simpa using houtside⟩
    | cons element stack =>
      have hpart : Nests (.elementStart name :: (inner ++ [last])) [.element name items] :=
        .element hinner hlast .nil
      have hopens := hstack.concat hpart
      simpa using hopens

/-- What the innermost open element stands for goes to where it belongs. -/
theorem Stands.close {tokens : List Token} {name : Name} {items : List Item}
    {stack : List (Name × List Item)} (hopens : Opens tokens ((name, items) :: stack))
    (hresolve : ∀ element ∈ (name, items) :: stack, Resolve element.2) {last : Token}
    (hlast : Ends name last) :
    Stands (tokens ++ [last])
      (Reader.deliver {} (readerOf stack).stack name.text (contentOf items)) := by
  have hclosed := hopens.close hlast
  obtain ⟨hitems, hothers⟩ := List.forall_mem_cons.1 hresolve
  cases stack with
  | nil => exact .done hclosed hitems
  | cons parent stack =>
    obtain ⟨parent, others⟩ := parent
    obtain ⟨hparent, hrest⟩ := List.forall_mem_cons.1 hothers
    have hpart : Resolve (others ++ [.element name items]) :=
      resolve_append.2 ⟨hparent, hitems, trivial⟩
    have hdeliver := Reader.deliver_frameOf parent name others items (readerOf stack).stack
    exact hdeliver ▸ .inside hclosed (List.forall_mem_cons.2 ⟨hpart, hrest⟩)

/-- A token of its own goes to the innermost open element. -/
theorem Stands.single {tokens : List Token} {name : Name} {items : List Item}
    {stack : List (Name × List Item)} (hopens : Opens tokens ((name, items) :: stack))
    (hresolve : ∀ element ∈ (name, items) :: stack, Resolve element.2) {token : Token} {item : Item}
    (hsingle : IsSingle token item) {next : Reader}
    (hstep : (readerOf ((name, items) :: stack)).step token = .ok next) :
    Stands (tokens ++ [token]) next := by
  obtain ⟨hitem, rfl⟩ := (Reader.step_single hsingle).1 hstep
  obtain ⟨hitems, hothers⟩ := List.forall_mem_cons.1 hresolve
  have hpart : Resolve (items ++ [item]) := resolve_append.2 ⟨hitems, hitem, trivial⟩
  have hopens := hopens.concat (.single hsingle .nil)
  exact .inside hopens (List.forall_mem_cons.2 ⟨hpart, hothers⟩)

/-- One token takes the reader from what it is to what it is with the token. -/
theorem Stands.step {tokens : List Token} {reader next : Reader} {token : Token}
    (h : Stands tokens reader) (hstep : reader.step token = .ok next) :
    Stands (tokens ++ [token]) next := by
  cases h with
  | done hform hresolve =>
    -- Only what stands outside of elements may follow the root.
    cases token with
    | elementStart | «attribute» | emptyEnd | elementEnd => cases hstep
    | tagEnd | text | cdata =>
      obtain rfl := Except.ok.inj hstep
      exact .done (hform.concat trivial) hresolve
  | @inside stack hopens hresolve =>
    cases token with
    | elementStart tag =>
      obtain rfl := Except.ok.inj hstep
      have hopens : Opens (tokens ++ [.elementStart tag]) ((tag, []) :: stack) :=
        .inside hopens .nil
      exact .inside hopens (List.forall_mem_cons.2 ⟨trivial, hresolve⟩)
    | tagEnd =>
      obtain rfl := Except.ok.inj hstep
      cases stack with
      | nil => exact .inside (hopens.concat_outside trivial) hresolve
      | cons element stack =>
        have hopens := hopens.concat (.tagEnd .nil)
        rw [List.append_nil] at hopens
        exact .inside hopens hresolve
    | «attribute» tag value =>
      cases stack with
      | nil => cases hstep
      | cons element stack => exact .single hopens hresolve (.attribute tag value) hstep
    | text s =>
      cases stack with
      | nil =>
        obtain rfl := Except.ok.inj hstep
        exact .inside (hopens.concat_outside trivial) hresolve
      | cons element stack => exact .single hopens hresolve (.text s) hstep
    | cdata s =>
      cases stack with
      | nil =>
        obtain rfl := Except.ok.inj hstep
        exact .inside (hopens.concat_outside trivial) hresolve
      | cons element stack => exact .single hopens hresolve (.cdata s) hstep
    | emptyEnd =>
      cases stack with
      | nil => cases hstep
      | cons element stack =>
        have hclose : (readerOf (element :: stack)).close none = .ok next := hstep
        obtain ⟨-, rfl⟩ := Reader.close_frameOf.1 hclose
        exact .close hopens hresolve .empty
    | elementEnd tag =>
      cases stack with
      | nil => cases hstep
      | cons element stack =>
        have hclose : (readerOf (element :: stack)).close (some tag) = .ok next := hstep
        obtain ⟨hname, rfl⟩ := Reader.close_frameOf.1 hclose
        exact .close hopens hresolve (.tag (hname tag rfl))

/-- Tokens take the reader from what it is to what it is with all of them. -/
theorem Stands.run {tokens : List Token} {reader last : Reader} (h : Stands tokens reader)
    {more : List Token} (hrun : reader.run more = .ok last) : Stands (tokens ++ more) last := by
  induction more generalizing tokens reader with
  | nil =>
    obtain rfl := Except.ok.inj hrun
    rwa [List.append_nil]
  | cons token rest ih =>
    rw [Reader.run] at hrun
    cases hstep : reader.step token with
    | error e =>
      rw [hstep] at hrun
      cases hrun
    | ok next =>
      rw [hstep] at hrun
      have hrest := ih (h.step hstep) hrun
      rwa [List.append_assoc, List.singleton_append] at hrest

theorem Reader.run_outside {tokens : List Token} (h : ∀ token ∈ tokens, IsOutside token)
    (root : Option Root) : run { root } tokens = .ok { root } := by
  induction tokens with
  | nil => rfl
  | cons token rest ih =>
    have hrest := ih fun token hmem => h token (List.mem_cons_of_mem _ hmem)
    have htoken := h token List.mem_cons_self
    cases token with
    | tagEnd | text | cdata => exact hrest
    | elementStart | «attribute» | emptyEnd | elementEnd => exact htoken.elim

/-- The tokens of one element whose references resolve leave nothing open. -/
theorem Reader.run_of_formElement {tokens : List Token} {name : Name} {items : List Item}
    (h : FormElement tokens name items) (hresolve : Resolve items) :
    run {} tokens = .ok { root := some ⟨name.text, contentOf items⟩ } := by
  obtain ⟨before, inner, last, after, rfl, hinner, hlast, houtside⟩ := h
  obtain ⟨hbefore, hafter⟩ := List.forall_mem_append.1 houtside
  have hopen : step {} (.elementStart name) = .ok { stack := [frameOf name []] } := rfl
  have hclose : step { stack := [frameOf name items] } last =
      .ok { root := some ⟨name.text, contentOf items⟩ } := (step_end hlast).2 rfl
  rw [run_append, run_outside hbefore, ok_bind, run, hopen]
  dsimp only
  rw [run_append, run_of_nests hinner hresolve, List.nil_append, ok_bind, run, hclose]
  exact run_outside hafter _

/-- Tokens are read just when they form one element whose references resolve. -/
theorem readTokens_eq_ok {tokens : List Token} {root : Root} : readTokens tokens true = .ok root ↔
    ∃ name items, FormElement tokens name items ∧ Resolve items ∧
      root = ⟨name.text, contentOf items⟩ := by
  constructor
  · intro h
    unfold readTokens at h
    cases hrun : Reader.run {} tokens with
    | error e =>
      rw [hrun] at h
      cases h
    | ok reader =>
      rw [hrun] at h
      have hopens : Opens [] [] := .outside (by simp)
      have hstart : Stands [] {} := .inside hopens (by simp)
      have hstands := hstart.run hrun
      rw [List.nil_append] at hstands
      cases hstands with
      | done hform hresolve =>
        obtain rfl := Except.ok.inj h
        exact ⟨_, _, hform, hresolve, rfl⟩
      | @inside stack hopens hresolve =>
        -- Without a root, something is left open or there was no element.
        cases stack <;> cases h
  · rintro ⟨name, items, hform, hresolve, rfl⟩
    unfold readTokens
    rw [Reader.run_of_formElement hform hresolve]
    rfl

/-- A payload of tokens is read just when they form one element whose references resolve, and then
as what recursion over the elements inside it comes to. -/
theorem read_eq_some_iff {payload : Bytes} {s : String} {tokens : List Token}
    (htext : Text.ofUtf8? payload = some s) (hblank : s.toList.all Text.isBlank = false)
    (hscan : Token.scan s = (tokens, true)) (root : Root) : read payload = .ok (some root) ↔
      ∃ name items, FormElement tokens name items ∧ Resolve items ∧
        root = ⟨name.text, contentOf items⟩ := by
  have hread : read payload = (readTokens tokens true).map some := by
    rw [read, htext]
    dsimp only
    rw [if_neg (by simp [hblank]), hscan]
  rw [hread, ← readTokens_eq_ok]
  cases readTokens tokens true with
  | ok found => simp [Except.map]
  | error e => simp [Except.map]

/-- A text with a comment and a section in it, in front of two elements of one name. -/
def notesText : String :=
  "<a k=\"&lt;\" xmlns=\"&u;\">x<!-- y --><![CDATA[&]]><b/><b>z</b ></a>"

/-- The tokens of `notesText`. -/
def notesTokens : List Token := [
  .elementStart ⟨"", "a"⟩, .attribute ⟨"", "k"⟩ "&lt;", .attribute ⟨"", "xmlns"⟩ "&u;", .tagEnd,
  .text "x", .cdata "&", .elementStart ⟨"", "b"⟩, .emptyEnd, .elementStart ⟨"", "b"⟩, .tagEnd,
  .text "z", .elementEnd ⟨"", "b"⟩, .elementEnd ⟨"", "a"⟩]

def notesItems : List Item := [
  .attribute ⟨"", "k"⟩ "&lt;", .attribute ⟨"", "xmlns"⟩ "&u;", .text "x", .cdata "&",
  .element ⟨"", "b"⟩ [], .element ⟨"", "b"⟩ [.text "z"]]

/-- Two elements of one name make an array, and the reference in the declaration of a namespace need
not resolve. -/
theorem read_eq_some_of_notes :
    Text.ofUtf8? (Text.utf8 notesText) = some notesText ∧
      notesText.toList.all Text.isBlank = false ∧ Token.scan notesText = (notesTokens, true) ∧
      read (Text.utf8 notesText) = .ok (some ⟨"a", .object [
        ("k", .string "<"), ("b", .array [.string "", .string "z"])]⟩) := by
  have htext : Text.ofUtf8? (Text.utf8 notesText) = some notesText := Text.ofUtf8?_utf8 notesText
  have hblank : notesText.toList.all Text.isBlank = false := by decide +kernel
  have hscan : Token.scan notesText = (notesTokens, true) := by decide +kernel
  have hinner : Nests [.tagEnd, .text "z"] [.text "z"] := .tagEnd (.single (.text "z") .nil)
  have hfirst : Ends ⟨"", "b"⟩ .emptyEnd := .empty
  have hsecond : Ends ⟨"", "b"⟩ (.elementEnd ⟨"", "b"⟩) := .tag rfl
  have hnests : Nests (notesTokens.tail.dropLast) notesItems :=
    .single (.attribute _ _) <| .single (.attribute _ _) <| .tagEnd <| .single (.text _) <|
      .single (.cdata _) <| .element .nil hfirst <| .element hinner hsecond .nil
  have hform : FormElement notesTokens ⟨"", "a"⟩ notesItems :=
    ⟨[], _, .elementEnd ⟨"", "a"⟩, [], rfl, hnests, .tag rfl, by simp⟩
  have hresolve : Resolve notesItems :=
    ⟨fun _ => ⟨"<", rfl⟩, by simp [Item.Resolves, Name.declaresNamespace], ⟨"x", rfl⟩, trivial,
      trivial, ⟨⟨"z", rfl⟩, trivial⟩, trivial⟩
  refine ⟨htext, hblank, hscan, (read_eq_some_iff htext hblank hscan _).2
    ⟨_, _, hform, hresolve, ?_⟩⟩
  rfl

end ServiceBindings.Xml
