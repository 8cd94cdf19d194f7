import ServiceBindings.Proofs.Value.Looks
import ServiceBindings.Proofs.Xml.Cut
import ServiceBindings.Proofs.Xml.Nesting

/-! White space between the tags of a text changes nothing in its document but the text of the
element in which it stands. -/
namespace ServiceBindings

/-- The name under which a step goes on, if it has one. -/
def Document.Step.name? : Document.Step → Option String
  | .member name => some name
  | .item => none

/-- A document as before, or with other white space in a text to which a path of names leads. -/
def Document.RespacedAt (path : List String) (doc later : Document) : Prop :=
  doc = later ∨ ∃ steps, steps.filterMap Step.name? = path ∧ EditedAt .respace steps doc later

open Document (EditedAt RespacedAt)

namespace Fields
variable {α : Type} {r : String → α → α → Prop}

theorem forall₂_set {docs docs' : Fields α}
    (h : List.Forall₂ (fun a b => a.1 = b.1 ∧ r a.1 a.2 b.2) docs docs') {name : String} {a b : α}
    (hab : r name a b) :
    List.Forall₂ (fun a b => a.1 = b.1 ∧ r a.1 a.2 b.2) (set name a docs) (set name b docs') := by
  induction h with
  | nil => exact .cons ⟨rfl, hab⟩ .nil
  | @cons first first' rest rest' hfirst hrest ih =>
    obtain ⟨key, old⟩ := first
    obtain ⟨key', old'⟩ := first'
    obtain ⟨rfl, hold⟩ := hfirst
    rw [set, set]
    dsimp only
    split_ifs with hname
    · subst hname
      exact .cons ⟨rfl, hab⟩ hrest
    · exact .cons ⟨rfl, hold⟩ ih

theorem forall₂_ofList {entries entries' : List (String × α)}
    (h : List.Forall₂ (fun a b => a.1 = b.1 ∧ r a.1 a.2 b.2) entries entries') :
    List.Forall₂ (fun a b => a.1 = b.1 ∧ r a.1 a.2 b.2) (ofList entries) (ofList entries') := by
  suffices ∀ fields fields' : Fields α,
      List.Forall₂ (fun a b => a.1 = b.1 ∧ r a.1 a.2 b.2) fields fields' →
      List.Forall₂ (fun a b => a.1 = b.1 ∧ r a.1 a.2 b.2)
        (entries.foldl (fun fields entry => set entry.1 entry.2 fields) fields)
        (entries'.foldl (fun fields entry => set entry.1 entry.2 fields) fields') from
    this [] [] .nil
  induction h with
  | nil => exact fun _ _ h => h
  | @cons entry entry' _ _ hentry _ ih =>
    intro fields fields' hfields
    obtain ⟨name, value⟩ := entry
    obtain ⟨name', value'⟩ := entry'
    obtain ⟨rfl, hr⟩ := hentry
    exact ih _ _ (forall₂_set hfields hr)

end Fields

namespace Xml
open Token (EndsTag)

section
variable {edit : Edit} {steps : List Document.Step} {a b : Document}

/-- Several elements of a name stand as an array, of which one is edited. -/
theorem together_editedAt (h : EditedAt edit steps a b) (before after : List Document) :
    ∃ way, (way = steps ∨ way = .item :: steps) ∧
      EditedAt edit way (together (before ++ a :: after)) (together (before ++ b :: after)) := by
  have hitems : List.Forall₂ (fun x y => x = y ∨ EditedAt edit steps x y)
      (before ++ a :: after) (before ++ b :: after) :=
    List.rel_append (List.forall₂_same.2 fun _ _ => .inl rfl)
      (.cons (.inr h) (List.forall₂_same.2 fun _ _ => .inl rfl))
  rcases before with _ | ⟨first, before⟩
  · cases after with
    | nil => exact ⟨steps, .inl rfl, h⟩
    | cons second after => exact ⟨_, .inr rfl, _, _, rfl, rfl, hitems⟩
  · cases before <;> exact ⟨_, .inr rfl, _, _, rfl, rfl, hitems⟩

/-- Where an element is edited, the member is that stands for the elements of its name. -/
theorem grouped_editedAt (h : EditedAt edit steps a b) (name : String)
    (before after : List (String × Document)) :
    ∃ way, (way = steps ∨ way = .item :: steps) ∧
      List.Forall₂ (fun x y => x.1 = y.1 ∧
          (x.2 = y.2 ∨ x.1 = name ∧ EditedAt edit way x.2 y.2))
        (grouped (before ++ (name, a) :: after)) (grouped (before ++ (name, b) :: after)) := by
  have hvalues (value : Document) : valuesOf name (before ++ (name, value) :: after) =
      valuesOf name before ++ value :: valuesOf name after := by
    rw [valuesOf_append]
    simp [valuesOf]
  obtain ⟨way, hway, hedited⟩ := together_editedAt h (valuesOf name before) (valuesOf name after)
  refine ⟨way, hway, ?_⟩
  unfold grouped
  rw [List.map_append, List.map_append, List.map_cons, List.map_cons, List.forall₂_map_left_iff,
    List.forall₂_map_right_iff, List.forall₂_same]
  refine fun other _ => ⟨rfl, ?_⟩
  by_cases hother : other = name
  · subst hother
    rw [hvalues, hvalues]
    exact .inr ⟨rfl, hedited⟩
  · have hsame (value : Document) : valuesOf other (before ++ (name, value) :: after) =
        valuesOf other (before ++ after) := by
      simp [valuesOf, Ne.symm hother]
    exact .inl (by rw [hsame, hsame])

end

/-- Parts of an element that differ in the white space inside of one element, to which a path of
names leads. -/
inductive Respaced : List String → List Item → List Item → Prop where
  | here {items items' : List Item} : attributesIn items = attributesIn items' →
    childrenIn items = childrenIn items' →
      isBlankText (textIn items) = isBlankText (textIn items') → Respaced [] items items'
  | inside {name : Name} {path : List String} {content content' : List Item}
    (before after : List Item) : Respaced path content content' →
      Respaced (name.text :: path) (before ++ .element name content :: after)
        (before ++ .element name content' :: after)

/-- They stand for documents that differ in the white space at this path, if at all. -/
theorem Respaced.respacedAt {path : List String} {items items' : List Item}
    (h : Respaced path items items') : RespacedAt path (contentOf items) (contentOf items') := by
  induction h with
  | @here items items' hattributes hchildren htext =>
    unfold contentOf documentOf
    rw [hattributes, hchildren]
    split_ifs
    · exact .inr ⟨[], rfl, _, _, rfl, rfl, htext⟩
    · exact .inl rfl
  | @inside name path content content' before after hinside ih =>
    have hcontent (content : List Item) :
        contentOf (before ++ .element name content :: after) = .object (Fields.ofList
          ((attributesIn before ++ attributesIn after).map
            (fun entry => (entry.1, Document.string entry.2)) ++ grouped
              (childrenIn before ++ (name.text, contentOf content) :: childrenIn after))) := by
      unfold contentOf documentOf
      rw [attributesIn_append, childrenIn_append]
      simp [attributesIn, childrenIn, Item.attribute?, Item.child?, documentOf]
    rw [hcontent, hcontent]
    obtain hsame | ⟨steps, rfl, hedited⟩ := ih
    · exact .inl (by rw [hsame])
    · obtain ⟨way, hway, hgrouped⟩ := grouped_editedAt hedited name.text (childrenIn before)
        (childrenIn after)
      refine .inr ⟨.member name.text :: way, ?_, _, _, rfl, rfl, ?_⟩
      · rcases hway with rfl | rfl <;> rfl
      · refine Fields.forall₂_ofList (r := fun key x y =>
          x = y ∨ key = name.text ∧ EditedAt .respace way x y) (List.rel_append ?_ hgrouped)
        exact List.forall₂_same.2 fun _ _ => ⟨rfl, .inl rfl⟩

theorem isBlankText_append (s t : String) :
    isBlankText (s ++ t) = (isBlankText s && isBlankText t) := by
  rw [isBlankText, String.toList_append, List.all_append]
  rfl

theorem Respaced.append {path : List String} {items items' : List Item}
    (h : Respaced path items items') (others : List Item) :
    Respaced path (items ++ others) (items' ++ others) := by
  cases h with
  | here hattributes hchildren htext =>
    refine .here ?_ ?_ ?_
    · rw [attributesIn_append, attributesIn_append, hattributes]
    · rw [childrenIn_append, childrenIn_append, hchildren]
    · rw [textIn_append, textIn_append, isBlankText_append, isBlankText_append, htext]
  | inside before after hinside =>
    rw [List.append_assoc, List.append_assoc, List.cons_append, List.cons_append]
    exact .inside before (after ++ others) hinside

/-- The names of open elements, the outermost first. -/
def namesOfStack (stack : List (Name × List Item)) : List String :=
  (stack.map fun element => element.1.text).reverse

/-- Open elements that differ in the white space inside of one element, to which a path of names
leads. -/
inductive Differ (path : List String) :
    List (Name × List Item) → List (Name × List Item) → Prop where
  | top {name : Name} {items items' : List Item} {stack : List (Name × List Item)}
    {inner : List String} : namesOfStack stack ++ name.text :: inner = path →
      Respaced inner items items' → Differ path ((name, items) :: stack) ((name, items') :: stack)
  | under {name : Name} {items : List Item} {stack stack' : List (Name × List Item)} :
    Differ path stack stack' → Differ path ((name, items) :: stack) ((name, items) :: stack')

section
variable {path : List String} {name name' : Name} {items items' : List Item}
  {stack stack' : List (Name × List Item)}

/-- Both have the same innermost element, to which the same parts can be added. -/
theorem Differ.append (h : Differ path ((name, items) :: stack) ((name', items') :: stack'))
    (others : List Item) :
    name = name' ∧
      Differ path ((name, items ++ others) :: stack) ((name', items' ++ others) :: stack') := by
  cases h with
  | top hpath hitems => exact ⟨rfl, .top hpath (hitems.append others)⟩
  | under hstack => exact ⟨rfl, .under hstack⟩

theorem Differ.exists_cons (h : Differ path stack stack') :
    ∃ name items rest items' rest', stack = (name, items) :: rest ∧
      stack' = (name, items') :: rest' := by
  cases h with
  | top => exact ⟨_, _, _, _, _, rfl, rfl⟩
  | under => exact ⟨_, _, _, _, _, rfl, rfl⟩

end

/-- The readers of both, or the roots with which they are done. -/
inductive Alike (path : List String) : Reader → Reader → Prop where
  | inside {stack stack' : List (Name × List Item)} : Differ path stack stack' →
    Alike path (readerOf stack) (readerOf stack')
  | done {name : Name} {inner : List String} {items items' : List Item} :
    name.text :: inner = path → Respaced inner items items' →
      Alike path { root := some ⟨name.text, contentOf items⟩ }
        { root := some ⟨name.text, contentOf items'⟩ }

section
variable {path : List String} {name : Name} {items items' : List Item}
  {stack stack' : List (Name × List Item)}

/-- The innermost element closes in both. -/
theorem Differ.close (h : Differ path ((name, items) :: stack) ((name, items') :: stack')) :
    Alike path (Reader.deliver {} (readerOf stack).stack name.text (contentOf items))
      (Reader.deliver {} (readerOf stack').stack name.text (contentOf items')) := by
  cases h with
  | @top _ _ _ _ inner hpath hitems =>
    cases stack with
    | nil => exact .done hpath hitems
    | cons parent stack =>
      obtain ⟨parent, others⟩ := parent
      have hparent : namesOfStack stack ++ parent.text :: name.text :: inner = path := by
        rw [← hpath]
        simp [namesOfStack]
      have hall := Alike.inside (.top hparent (.inside others [] hitems))
      exact (Reader.deliver_frameOf parent name others items (readerOf stack).stack) ▸
        (Reader.deliver_frameOf parent name others items' (readerOf stack).stack) ▸ hall
  | under hstack =>
    obtain ⟨parent, others, rest, others', rest', rfl, rfl⟩ := hstack.exists_cons
    have hall := Alike.inside (hstack.append [.element name items]).2
    exact (Reader.deliver_frameOf parent name others items (readerOf rest).stack) ▸
      (Reader.deliver_frameOf parent name others' items (readerOf rest').stack) ▸ hall

/-- A part that is one token goes to the innermost element of both. -/
theorem Differ.single (h : Differ path ((name, items) :: stack) ((name, items') :: stack'))
    {token : Token} {item : Item} (hsingle : IsSingle token item) {next : Reader}
    (hstep : (readerOf ((name, items) :: stack)).step token = .ok next) :
    ∃ next', (readerOf ((name, items') :: stack')).step token = .ok next' ∧
      Alike path next next' := by
  obtain ⟨hitem, rfl⟩ := (Reader.step_single hsingle).1 hstep
  exact ⟨_, (Reader.step_single hsingle).2 ⟨hitem, rfl⟩, .inside (h.append [item]).2⟩

theorem Alike.step {reader reader' next : Reader} (h : Alike path reader reader') {token : Token}
    (hstep : reader.step token = .ok next) :
    ∃ next', reader'.step token = .ok next' ∧ Alike path next next' := by
  cases h with
  | done hpath hitems =>
    cases token with
    | elementStart | «attribute» | emptyEnd | elementEnd => cases hstep
    | tagEnd | text | cdata =>
      obtain rfl := Except.ok.inj hstep
      exact ⟨_, rfl, .done hpath hitems⟩
  | inside hstack =>
    obtain ⟨name, items, rest, items', rest', rfl, rfl⟩ := hstack.exists_cons
    cases token with
    | elementStart tag =>
      obtain rfl := Except.ok.inj hstep
      have hopened : Differ path ((tag, []) :: (name, items) :: rest)
          ((tag, []) :: (name, items') :: rest') := .under hstack
      exact ⟨_, rfl, .inside hopened⟩
    | tagEnd =>
      obtain rfl := Except.ok.inj hstep
      exact ⟨_, rfl, .inside hstack⟩
    | «attribute» tag value => exact hstack.single (.attribute tag value) hstep
    | text s => exact hstack.single (.text s) hstep
    | cdata s => exact hstack.single (.cdata s) hstep
    | emptyEnd =>
      have hclose : (readerOf ((name, items) :: rest)).close none = .ok next := hstep
      obtain ⟨hname, rfl⟩ := Reader.close_frameOf.1 hclose
      exact ⟨_, Reader.close_frameOf.2 ⟨hname, rfl⟩, hstack.close⟩
    | elementEnd tag =>
      have hclose : (readerOf ((name, items) :: rest)).close (some tag) = .ok next := hstep
      obtain ⟨hname, rfl⟩ := Reader.close_frameOf.1 hclose
      exact ⟨_, Reader.close_frameOf.2 ⟨hname, rfl⟩, hstack.close⟩

theorem Alike.run {reader reader' last : Reader} (h : Alike path reader reader')
    {tokens : List Token} (hrun : reader.run tokens = .ok last) :
    ∃ last', reader'.run tokens = .ok last' ∧ Alike path last last' := by
  induction tokens generalizing reader reader' with
  | nil =>
    obtain rfl := Except.ok.inj hrun
    exact ⟨reader', rfl, h⟩
  | cons token rest ih =>
    rw [Reader.run] at hrun
    cases hstep : reader.step token with
    | error e =>
      rw [hstep] at hrun
      cases hrun
    | ok next =>
      rw [hstep] at hrun
      obtain ⟨next', hstep', hnext⟩ := h.step hstep
      obtain ⟨last', hrun', hlast⟩ := ih hnext hrun
      exact ⟨last', by rw [Reader.run, hstep']; exact hrun', hlast⟩

/-- A reader that is done is so in both. -/
theorem Alike.finish {reader reader' : Reader} (h : Alike path reader reader') {root : Root}
    (hroot : reader.finish = .ok root) :
    ∃ (name : Name) (items items' : List Item) (inner : List String), name.text :: inner = path ∧
      root = ⟨name.text, contentOf items⟩ ∧
      reader'.finish = .ok ⟨name.text, contentOf items'⟩ ∧ Respaced inner items items' := by
  cases h with
  | done hpath hitems =>
    obtain rfl := Except.ok.inj hroot
    exact ⟨_, _, _, _, hpath, rfl, rfl, hitems⟩
  | inside hstack =>
    obtain ⟨name, items, rest, items', rest', rfl, rfl⟩ := hstack.exists_cons
    cases hroot

/-- The parts that character data makes. -/
def dataItems (chars : List Char) : List Item :=
  if chars = [] then [] else [.text (String.ofList chars)]

/-- Character data goes to the innermost element if its references are complete. -/
theorem run_dataTokens {chars : List Char} {next : Reader} :
    (readerOf ((name, items) :: stack)).run (dataTokens chars) = .ok next ↔
      (∃ s, unescape (String.ofList chars) = .ok s) ∧
        next = readerOf ((name, items ++ dataItems chars) :: stack) := by
  unfold dataTokens dataItems
  split_ifs with hnil
  · subst hnil
    have hempty : ∃ s, unescape (String.ofList []) = .ok s := ⟨"", rfl⟩
    rw [List.append_nil, Reader.run, and_iff_right hempty, Except.ok.injEq, eq_comm]
  · have hrun (reader : Reader) (token : Token) : reader.run [token] = reader.step token := by
      rw [Reader.run]
      cases reader.step token <;> rfl
    rw [hrun]
    exact Reader.step_single (.text _)

theorem textIn_dataItems {chars : List Char} {s : String}
    (h : unescape (String.ofList chars) = .ok s) : textIn (dataItems chars) = s := by
  unfold dataItems
  split_ifs with hnil
  · subst hnil
    exact Except.ok.inj h
  · simp [textIn, Item.ownText, resolved, h]

theorem attributesIn_dataItems (chars : List Char) : attributesIn (dataItems chars) = [] := by
  unfold dataItems
  split_ifs <;> rfl

theorem childrenIn_dataItems (chars : List Char) : childrenIn (dataItems chars) = [] := by
  unfold dataItems
  split_ifs <;> rfl

/-- White space that comes into character data only makes its text longer. -/
theorem respaced_dataItems {run after space : List Char} {s : String} (hspace : IsSpacing space)
    (hrun : unescape (String.ofList run) = .ok s) {all : String}
    (hall : unescape (String.ofList (run ++ after)) = .ok all) (items : List Item) :
    (∃ t, unescape (String.ofList (run ++ (space ++ after))) = .ok t) ∧
      Respaced [] (items ++ dataItems (run ++ after))
        (items ++ dataItems (run ++ (space ++ after))) := by
  have hplain : '&' ∉ space := fun hmem => ne_of_isBlank (hspace.2 _ hmem).1 (by decide) rfl
  have hblank : isBlankText (String.ofList space) = true := by
    rw [isBlankText, String.toList_ofList, List.all_eq_true]
    exact fun c hc => (hspace.2 c hc).1
  have hparts := hall
  rw [unescape_append hrun] at hparts
  obtain ⟨t, hafter, rfl⟩ := map_eq_ok.1 hparts
  have hnew : unescape (String.ofList (run ++ (space ++ after))) =
      .ok (s ++ (String.ofList space ++ t)) := by
    rw [unescape_append hrun, unescape_append (unescape_of_notMem hplain), hafter]
    rfl
  refine ⟨⟨_, hnew⟩, .here ?_ ?_ ?_⟩
  · rw [attributesIn_append, attributesIn_append, attributesIn_dataItems, attributesIn_dataItems]
  · rw [childrenIn_append, childrenIn_append, childrenIn_dataItems, childrenIn_dataItems]
  · rw [textIn_append, textIn_append, textIn_dataItems hall, textIn_dataItems hnew]
    simp only [isBlankText_append, hblank, Bool.true_and]

/-- The names of the elements that tokens leave open, the innermost first. -/
def openNames : List String → List Token → List String
  | names, [] => names
  | names, .elementStart name :: rest => openNames (name.text :: names) rest
  | names, .emptyEnd :: rest | names, .elementEnd _ :: rest => openNames names.tail rest
  | names, _ :: rest => openNames names rest

theorem openNames_cons (names : List String) (token : Token) (rest : List Token) :
    openNames names (token :: rest) = openNames (openNames names [token]) rest := by
  cases token <;> rfl

theorem openNames_of_close {reader next : Reader} {tag : Option Name}
    (h : reader.close tag = .ok next) :
    next.stack.map Frame.name = (reader.stack.map Frame.name).tail := by
  unfold Reader.close at h
  cases hstack : reader.stack with
  | nil =>
    rw [hstack] at h
    cases h
  | cons frame rest =>
    rw [hstack] at h
    dsimp only at h
    split_ifs at h
    obtain rfl := Except.ok.inj h
    cases rest <;> rfl

theorem openNames_of_addText {reader next : Reader} {text : Except EscapeError String}
    (h : reader.addText text = .ok next) :
    next.stack.map Frame.name = reader.stack.map Frame.name := by
  unfold Reader.addText at h
  cases hstack : reader.stack with
  | nil =>
    rw [hstack] at h
    obtain rfl := Except.ok.inj h
    rw [hstack]
  | cons frame rest =>
    rw [hstack] at h
    cases text with
    | error e => cases h
    | ok s =>
      obtain rfl := Except.ok.inj h
      rfl

theorem openNames_of_step {reader next : Reader} {token : Token}
    (h : reader.step token = .ok next) :
    next.stack.map Frame.name = openNames (reader.stack.map Frame.name) [token] := by
  cases token with
  | elementStart name =>
    rw [Reader.step] at h
    split_ifs at h
    obtain rfl := Except.ok.inj h
    rfl
  | «attribute» name value =>
    rw [Reader.step] at h
    cases hstack : reader.stack with
    | nil =>
      rw [hstack] at h
      cases h
    | cons frame rest =>
      rw [hstack] at h
      dsimp only at h
      split_ifs at h
      · obtain rfl := Except.ok.inj h
        rw [hstack]
        rfl
      · cases hvalue : unescape value with
        | error e =>
          rw [hvalue] at h
          cases h
        | ok s =>
          rw [hvalue] at h
          obtain rfl := Except.ok.inj h
          rfl
  | tagEnd =>
    obtain rfl := Except.ok.inj h
    rfl
  | emptyEnd => exact openNames_of_close h
  | elementEnd name => exact openNames_of_close h
  | text s =>
    have hadd : reader.addText (unescape s) = .ok next := h
    exact openNames_of_addText hadd
  | cdata s =>
    have hadd : reader.addText (.ok s) = .ok next := h
    exact openNames_of_addText hadd

theorem openNames_of_run {reader last : Reader} {tokens : List Token}
    (h : reader.run tokens = .ok last) :
    last.stack.map Frame.name = openNames (reader.stack.map Frame.name) tokens := by
  induction tokens generalizing reader with
  | nil =>
    obtain rfl := Except.ok.inj h
    rfl
  | cons token rest ih =>
    rw [Reader.run] at h
    cases hstep : reader.step token with
    | error e =>
      rw [hstep] at h
      cases h
    | ok next =>
      rw [hstep] at h
      rw [ih h, openNames_of_step hstep, ← openNames_cons]

end

/-- White space comes into the content of an element, to which a path of names leads from the root:
behind a tag, a comment or the like, or into the character data there, but not into a reference. -/
inductive SpacedAt (path : List String) : Bytes → Bytes → Prop where
  | intro {front run back space : List Char} {tokens : List Token} {depth : Nat} {root : String}
    {s : String} : Cut .declaration (unmarked front) tokens (.content depth) →
      EndsTag (unmarked front) → (openNames [] tokens).reverse = root :: path →
      '<' ∉ run → unescape (String.ofList run) = .ok s → IsSpacing space →
      SpacedAt path (Text.utf8 (String.ofList (front ++ (run ++ back))))
        (Text.utf8 (String.ofList (front ++ (run ++ (space ++ back)))))

theorem readTokens_eq_ok_iff_run {tokens : List Token} {whole : Bool} {root : Root} :
    readTokens tokens whole = .ok root ↔
      whole = true ∧ ∃ reader, Reader.run {} tokens = .ok reader ∧ reader.finish = .ok root := by
  unfold readTokens
  cases Reader.run {} tokens with
  | error e => simp
  | ok reader => cases whole <;> simp

/-- A payload is read if it holds more than white space and its tokens make up a root. -/
theorem read_utf8_eq_some {s : String} {root : Root} : read (Text.utf8 s) = .ok (some root) ↔
    s.toList.all Text.isBlank = false ∧ ∃ tokens, Token.scan s = (tokens, true) ∧
      ∃ reader, Reader.run {} tokens = .ok reader ∧ reader.finish = .ok root := by
  rw [read, Text.ofUtf8?_utf8]
  dsimp only
  cases s.toList.all Text.isBlank with
  | true => simp
  | false =>
    rw [if_neg Bool.false_ne_true, map_eq_ok]
    simp only [Option.some.injEq, exists_eq_right, readTokens_eq_ok_iff_run, true_and]
    constructor
    · rintro ⟨hwhole, hreader⟩
      exact ⟨_, Prod.ext rfl hwhole, hreader⟩
    · rintro ⟨tokens, hscan, hreader⟩
      rw [hscan]
      exact ⟨rfl, hreader⟩

/-- Tokens that leave elements open lead to the reader of these elements. -/
theorem exists_open_of_run {tokens : List Token} {reader : Reader}
    (h : Reader.run {} tokens = .ok reader) {path : List String}
    (hpath : (openNames [] tokens).reverse = path) (hne : path ≠ []) :
    ∃ name items stack, reader = readerOf ((name, items) :: stack) ∧
      namesOfStack ((name, items) :: stack) = path := by
  have hstart : Stands [] {} := .inside (.outside (by simp)) (by simp)
  have hnames : reader.stack.map Frame.name = openNames [] tokens := openNames_of_run h
  rw [← hnames] at hpath
  cases hstart.run h with
  | done => exact absurd hpath.symm hne
  | @inside stack =>
    have hstack : namesOfStack stack = path := by
      rw [← hpath, readerOf, List.map_map]
      rfl
    cases stack with
    | nil => exact absurd hstack.symm hne
    | cons element stack => exact ⟨_, _, _, rfl, hstack⟩

/-- After tokens with more white space in the innermost open element, the reader differs in it
alone. -/
theorem alike_of_run {tokens more : List Token} {run after space : List Char} {s : String}
    {path : List String} (hpath : (openNames [] tokens).reverse = path) (hne : path ≠ [])
    (hspace : IsSpacing space) (hrun : unescape (String.ofList run) = .ok s) {last : Reader}
    (hread : Reader.run {} (tokens ++ (dataTokens (run ++ after) ++ more)) = .ok last) :
    ∃ last', Reader.run {} (tokens ++ (dataTokens (run ++ (space ++ after)) ++ more)) = .ok last' ∧
      Alike path last last' := by
  rw [Reader.run_append, bind_eq_ok] at hread
  obtain ⟨reader, htokens, hread⟩ := hread
  rw [Reader.run_append, bind_eq_ok] at hread
  obtain ⟨inside, hdata, hmore⟩ := hread
  obtain ⟨name, items, stack, rfl, hstack⟩ := exists_open_of_run htokens hpath hne
  obtain ⟨⟨all, hall⟩, rfl⟩ := run_dataTokens.1 hdata
  obtain ⟨hnew, hrespaced⟩ := respaced_dataItems hspace hrun hall items
  have hnames : namesOfStack stack ++ [name.text] = path := by
    rw [← hstack]
    simp [namesOfStack]
  have hdiffer := Differ.top hnames hrespaced
  obtain ⟨last', hlast, halike⟩ := (Alike.inside hdiffer).run hmore
  refine ⟨last', ?_, halike⟩
  rw [Reader.run_append, htokens, ok_bind, Reader.run_append, run_dataTokens.2 ⟨hnew, rfl⟩, ok_bind,
    hlast]

/-- The root of such a payload stands for the same as before, or its document is edited at the
path. -/
theorem SpacedAt.read {path : List String} {payload later : Bytes} (h : SpacedAt path payload later)
    {root : Root} (hroot : read payload = .ok (some root)) :
    ∃ root', Xml.read later = .ok (some root') ∧ RespacedAt path root.value root'.value := by
  obtain ⟨hcut, htag, hnames, hrun, hs, hspace⟩ := h
  obtain ⟨hblank, all, hscan, last, hread, hfinish⟩ := read_utf8_eq_some.1 hroot
  obtain ⟨after, more, rfl, hscan'⟩ := scan_spaced hcut htag hrun hspace hscan
  obtain ⟨last', hread', halike⟩ := alike_of_run hnames (List.cons_ne_nil _ _) hspace hs hread
  obtain ⟨name, items, items', inner, hpath, rfl, hfinish', hrespaced⟩ := halike.finish hfinish
  obtain ⟨-, rfl⟩ := List.cons.inj hpath
  refine ⟨_, read_utf8_eq_some.2 ⟨?_, _, hscan', _, hread', hfinish'⟩, hrespaced.respacedAt⟩
  rw [String.toList_ofList] at hblank ⊢
  simp only [List.all_append, Bool.and_eq_false_iff] at hblank ⊢
  tauto

/-- The tag of an empty element, to which a path of names leads from the root, is written as two. -/
inductive Unfolds (path : List String) : Bytes → Bytes → Prop where
  | intro {front back : List Char} {before after : List Token} {name : Name} {root : String}
    {outer : List String} :
    Token.scan (String.ofList (front ++ '/' :: '>' :: back)) =
      (before ++ .emptyEnd :: after, true) →
    Token.scan (String.ofList (front ++ '>' :: '<' :: '/' :: (name.text.toList ++ '>' :: back))) =
      (before ++ .tagEnd :: .elementEnd name :: after, true) →
    openNames [] before = name.text :: outer → (name.text :: outer).reverse = root :: path →
      Unfolds path (Text.utf8 (String.ofList (front ++ '/' :: '>' :: back)))
        (Text.utf8 (String.ofList
          (front ++ '>' :: '<' :: '/' :: (name.text.toList ++ '>' :: back))))

/-- Such a payload is read as before. -/
theorem Unfolds.read {path : List String} {payload later : Bytes} (h : Unfolds path payload later)
    {root : Root} (hroot : read payload = .ok (some root)) : Xml.read later = .ok (some root) := by
  obtain @⟨front, back, before, after, name, _, outer, hscan, hscan', hnames, -⟩ := h
  obtain ⟨-, tokens, htokens, last, hread, hfinish⟩ := read_utf8_eq_some.1 hroot
  obtain ⟨rfl, -⟩ := Prod.mk.inj (hscan.symm.trans htokens)
  refine read_utf8_eq_some.2 ⟨?_, _, hscan', last, ?_, hfinish⟩
  · rw [String.toList_ofList, List.all_append, List.all_cons, List.all_cons]
    exact Bool.and_false _
  · rw [Reader.run_append, bind_eq_ok] at hread ⊢
    obtain ⟨reader, hbefore, hread⟩ := hread
    refine ⟨reader, hbefore, ?_⟩
    have hopen : reader.stack.map Frame.name = name.text :: outer :=
      (openNames_of_run hbefore).trans hnames
    have hclose : reader.close (some name) = reader.close none := by
      unfold Reader.close
      cases hstack : reader.stack with
      | nil => rfl
      | cons frame rest =>
        rw [hstack] at hopen
        have hname : frame.name = name.text := (List.cons.inj hopen).1
        simp [hname]
    have hstep : reader.step (.elementEnd name) = reader.step .emptyEnd := hclose
    rw [Reader.run] at hread
    show reader.run (.elementEnd name :: after) = _
    rw [Reader.run, hstep]
    exact hread

end Xml
end ServiceBindings
