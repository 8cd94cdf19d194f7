import ServiceBindings.Proofs.Fields
import ServiceBindings.Proofs.Value.Congruence

/-! Where a target looks in a document, and for what. After an edit that no look at its place
notices, a document is read as before. -/
namespace ServiceBindings
open Plan (Binding Target)

/-- A step from a document to a part of it. -/
inductive Document.Step where
  | member (name : String)
  | item

/-- What is looked for in a part of a document. -/
inductive Look where
  | simple
  | structure (members : List (Binding × Target))
  | items
  /-- The entries of a map, which all members are. -/
  | entries
  /-- The elements of one name, which are the items of a list or the entries of a map. -/
  | elements (name : String)
  | entry (keyName valueName : Option String)
  | key

/-- A way to change a part of a document. -/
inductive Edit where
  | insert (name : String) (value : Document)
  /-- A text gets other white space, or stays one that is not blank. -/
  | respace

/-- A part of a document is changed in this way. -/
def Edit.Applies : Edit → Document → Document → Prop
  | .insert name value, doc, later => ∃ before after, doc = .object (before ++ after) ∧
      later = .object (before ++ (name, value) :: after)
  | .respace, doc, later => ∃ s s', doc = .string s ∧ later = .string s' ∧
      isBlankText s = isBlankText s'

namespace Look

/-- A member of this name is looked for. -/
def AsksFor (origin : Origin) (name : String) : Look → Prop
  | .structure members => ∃ member ∈ members, memberKey? origin member.1 = some name
  | .elements element => name = element
  | .entry keyName valueName =>
    name = Plan.keyElement keyName ∨ name = Plan.valueElement valueName
  | .entries => True
  | .simple | .key | .items => False

/-- The characters of a text are looked at. -/
def IsText : Look → Prop
  | .simple | .key => True
  | _ => False

/-- What is looked for may be changed. -/
def Notices (origin : Origin) (look : Look) : Edit → Prop
  | .insert name _ => look.AsksFor origin name
  | .respace => look.IsText

end Look

namespace Document

/-- A document is changed at one place, which can be several parts of it: entries of one name, and
any items. -/
def EditedAt (edit : Edit) : List Step → Document → Document → Prop
  | [], doc, later => edit.Applies doc later
  | .member name :: path, doc, later => ∃ docs docs', doc = .object docs ∧ later = .object docs' ∧
      List.Forall₂ (fun a b => a.1 = b.1 ∧
        (a.2 = b.2 ∨ a.1 = name ∧ EditedAt edit path a.2 b.2)) docs docs'
  | .item :: path, doc, later => ∃ items items', doc = .array items ∧ later = .array items' ∧
      List.Forall₂ (fun a b => a = b ∨ EditedAt edit path a b) items items'

end Document

open Document (EditedAt Step)

/-- The way to an element of a list or map, which stands inside an element around all of them unless
they are flattened. One element stands for itself. -/
inductive ToElement (name : String) (rest : List Step) : Bool → List Step → Prop where
  | single : ToElement name rest true rest
  | several : ToElement name rest true (.item :: rest)
  | singleInside : ToElement name rest false (.member name :: rest)
  | severalInside : ToElement name rest false (.member name :: .item :: rest)

/-- At a place in a document, a target looks for something. -/
inductive Plan.Target.Looks (origin : Origin) : Target → List Step → Look → Prop where
  | scalar {kind : Scalar} {format : Option Time.Format} {streaming : Bool} :
    Looks origin (.scalar kind format streaming) [] .simple
  | enumeration {e : Plan.Enumeration} : Looks origin (.enumeration e) [] .simple
  | structure {heading : Plan.Heading} {members : List (Binding × Target)} :
    Looks origin (.structure heading members) [] (.structure members)
  | member {heading : Plan.Heading} {members : List (Binding × Target)}
    {member : Binding × Target} {name : String} {path : List Step} {look : Look} :
    member ∈ members → memberKey? origin member.1 = some name → Looks origin member.2 path look →
      Looks origin (.structure heading members) (.member name :: path) look
  | items {shape : String} {item : Target} {itemName : Option String} {flattened : Bool} :
    origin ≠ .xml → Looks origin (.list shape item itemName flattened) [] .items
  | item {shape : String} {item : Target} {itemName : Option String} {flattened : Bool}
    {path : List Step} {look : Look} : origin ≠ .xml → Looks origin item path look →
      Looks origin (.list shape item itemName flattened) (.item :: path) look
  | entries {shape : String} {key value : Target} {keyName valueName : Option String}
    {flattened : Bool} : origin ≠ .xml →
      Looks origin (.map shape key value keyName valueName flattened) [] .entries
  | entry {shape : String} {key value : Target} {keyName valueName : Option String}
    {flattened : Bool} {name : String} {path : List Step} {look : Look} :
    origin ≠ .xml → Looks origin value path look →
      Looks origin (.map shape key value keyName valueName flattened) (.member name :: path) look
  | itemElements {shape : String} {item : Target} {itemName : Option String} : origin = .xml →
      Looks origin (.list shape item itemName false) [] (.elements (Plan.itemElement itemName))
  | itemElement {shape : String} {item : Target} {itemName : Option String} {flattened : Bool}
    {path rest : List Step} {look : Look} : origin = .xml →
      ToElement (Plan.itemElement itemName) rest flattened path → Looks origin item rest look →
        Looks origin (.list shape item itemName flattened) path look
  | entryElements {shape : String} {key value : Target} {keyName valueName : Option String} :
    origin = .xml →
      Looks origin (.map shape key value keyName valueName false) [] (.elements "entry")
  | entryElement {shape : String} {key value : Target} {keyName valueName : Option String}
    {flattened : Bool} {path : List Step} : origin = .xml → ToElement "entry" [] flattened path →
      Looks origin (.map shape key value keyName valueName flattened) path
        (.entry keyName valueName)
  | keyElement {shape : String} {key value : Target} {keyName valueName : Option String}
    {flattened : Bool} {path : List Step} : origin = .xml →
      ToElement "entry" [.member (Plan.keyElement keyName)] flattened path →
        Looks origin (.map shape key value keyName valueName flattened) path .key
  | valueElement {shape : String} {key value : Target} {keyName valueName : Option String}
    {flattened : Bool} {path rest : List Step} {look : Look} : origin = .xml →
      ToElement "entry" (.member (Plan.valueElement valueName) :: rest) flattened path →
        Looks origin value rest look →
          Looks origin (.map shape key value keyName valueName flattened) path look

section
variable {edit : Edit} {path : List Step} {doc later : Document}

/-- An edited document is an object or an array as before, or a text that stays blank or not. -/
theorem Document.EditedAt.cases (h : EditedAt edit path doc later) :
    (∃ docs docs', doc = .object docs ∧ later = .object docs') ∨
    (∃ items items', doc = .array items ∧ later = .array items') ∨
    (path = [] ∧ edit = .respace ∧ ∃ s s', doc = .string s ∧ later = .string s' ∧
      isBlankText s = isBlankText s') := by
  match path with
  | [] =>
    cases edit with
    | insert name value =>
      obtain ⟨before, after, rfl, rfl⟩ := h
      exact .inl ⟨_, _, rfl, rfl⟩
    | respace => exact .inr (.inr ⟨rfl, rfl, h⟩)
  | .member _ :: _ =>
    obtain ⟨docs, docs', rfl, rfl, -⟩ := h
    exact .inl ⟨_, _, rfl, rfl⟩
  | .item :: _ =>
    obtain ⟨items, items', rfl, rfl, -⟩ := h
    exact .inr (.inl ⟨_, _, rfl, rfl⟩)

theorem Document.EditedAt.isNull_eq (h : EditedAt edit path doc later) :
    doc.isNull = later.isNull := by
  obtain ⟨_, _, rfl, rfl⟩ | ⟨_, _, rfl, rfl⟩ | ⟨-, -, _, _, rfl, rfl, -⟩ := h.cases <;> rfl

/-- Where no document of the kind is wanted, an edited one is as wrong as before. -/
theorem Document.EditedAt.misfit_eq {α : Type} (h : EditedAt edit path doc later)
    (position expected : String) :
    (misfit position expected doc : Except Misfit α) = misfit position expected later := by
  obtain ⟨_, _, rfl, rfl⟩ | ⟨_, _, rfl, rfl⟩ | ⟨-, -, _, _, rfl, rfl, -⟩ := h.cases <;> rfl

theorem Fields.get?_insert_of_ne {fields others : Fields Document} {name other : String}
    (h : other ≠ name) (value : Document) :
    get? (fields ++ (name, value) :: others) other = get? (fields ++ others) other := by
  rw [get?_append, get?_append, get?_cons, if_neg h]

theorem Fields.get?_of_forall₂ {r : String → Document → Document → Prop}
    {docs docs' : Fields Document}
    (h : List.Forall₂ (fun a b => a.1 = b.1 ∧ r a.1 a.2 b.2) docs docs') (name : String) :
    Option.Rel (r name) (get? docs name) (get? docs' name) := by
  induction h with
  | nil => exact .none
  | @cons a b _ _ hab _ ih =>
    obtain ⟨key, a⟩ := a
    obtain ⟨_, b⟩ := b
    obtain ⟨rfl, hr⟩ := hab
    rw [get?_cons, get?_cons]
    split_ifs with hname
    · exact .some (hname ▸ hr)
    · exact ih

/-- What an edited document holds under a name is the same as before or was edited itself, unless
the edit is an insertion under this name. -/
theorem Document.EditedAt.get? (h : EditedAt edit path doc later) (name : String)
    (hname : path = [] → ∀ value, edit ≠ .insert name value) :
    Option.Rel (fun a b => a = b ∨ ∃ rest, path = .member name :: rest ∧ EditedAt edit rest a b)
      (doc.get? name) (later.get? name) := by
  have hrefl (found : Option Document) : Option.Rel (fun a b => a = b ∨
      ∃ rest, path = .member name :: rest ∧ EditedAt edit rest a b) found found := by
    cases found with
    | none => exact .none
    | some doc => exact .some (.inl rfl)
  match path with
  | [] =>
    cases edit with
    | insert other value =>
      obtain ⟨before, after, rfl, rfl⟩ := h
      have hne : name ≠ other := by
        rintro rfl
        exact hname rfl value rfl
      have hfound : (Document.object (before ++ (other, value) :: after)).get? name =
          (Document.object (before ++ after)).get? name := Fields.get?_insert_of_ne hne value
      rw [hfound]
      exact hrefl _
    | respace =>
      obtain ⟨s, s', rfl, rfl, -⟩ := h
      exact .none
  | .member other :: rest =>
    obtain ⟨docs, docs', rfl, rfl, hdocs⟩ := h
    have hfound := Fields.get?_of_forall₂
      (r := fun key a b => a = b ∨ key = other ∧ EditedAt edit rest a b) hdocs name
    refine optionRel_imp hfound fun a b hab => hab.imp_right ?_
    rintro ⟨rfl, hedited⟩
    exact ⟨rest, rfl, hedited⟩
  | .item :: _ =>
    obtain ⟨items, items', rfl, rfl, -⟩ := h
    exact .none

/-- The documents for which a list or map of elements stands: the items of an array, and otherwise
itself. -/
def Document.elements : Document → List Document
  | .array items => items
  | single => [single]

theorem entryDocuments_flattened (position expected name : String) (doc : Document) :
    entryDocuments position expected name true doc = .ok doc.elements := by
  cases doc <;> rfl

theorem entryDocuments_object (position expected name : String) (docs : Fields Document) :
    entryDocuments position expected name false (.object docs) =
      .ok (((Fields.get? docs name).map Document.elements).getD []) := by
  rw [entryDocuments]
  cases Fields.get? docs name with
  | none => rfl
  | some doc => cases doc <;> rfl

/-- Two elements are the same, or one was edited into the other. -/
def SameOrEdited (edit : Edit) (name : String) (flattened : Bool) (path : List Step)
    (doc later : Document) : Prop :=
  doc = later ∨ ∃ rest, ToElement name rest flattened path ∧ EditedAt edit rest doc later

theorem forall₂_sameOrEdited_refl (name : String) (flattened : Bool) (docs : List Document) :
    List.Forall₂ (SameOrEdited edit name flattened path) docs docs :=
  List.forall₂_same.2 fun _ _ => .inl rfl

theorem Document.EditedAt.elements (h : EditedAt edit path doc later) (name : String) :
    List.Forall₂ (SameOrEdited edit name true path) doc.elements later.elements := by
  have hsingle : SameOrEdited edit name true path doc later := .inr ⟨path, .single, h⟩
  match path with
  | [] | .member _ :: _ =>
    obtain ⟨_, _, rfl, rfl⟩ | ⟨_, _, rfl, rfl⟩ | ⟨-, -, _, _, rfl, rfl, -⟩ := h.cases
    · exact .cons hsingle .nil
    · cases edit <;> simp [EditedAt, Edit.Applies] at h
    · exact .cons hsingle .nil
  | .item :: rest =>
    obtain ⟨items, items', rfl, rfl, hitems⟩ := h
    exact hitems.imp fun a b hab => hab.imp_right fun hedited => ⟨rest, .several, hedited⟩

theorem SameOrEdited.inside {name : String} (h : SameOrEdited edit name true path doc later) :
    SameOrEdited edit name false (.member name :: path) doc later := by
  refine h.imp_right ?_
  rintro ⟨rest, hway, hedited⟩
  cases hway with
  | single => exact ⟨_, .singleInside, hedited⟩
  | several => exact ⟨_, .severalInside, hedited⟩

/-- The elements of a list or map are the same as before or were edited themselves, unless a look
for them notices the edit. -/
theorem Document.EditedAt.entryDocuments (h : EditedAt edit path doc later) {origin : Origin}
    {name : String} {flattened : Bool} (hlook : flattened = false → path = [] →
      ¬(Look.elements name).Notices origin edit) (position expected : String) :
    Agree (List.Forall₂ (SameOrEdited edit name flattened path))
      (ServiceBindings.entryDocuments position expected name flattened doc)
      (ServiceBindings.entryDocuments position expected name flattened later) := by
  cases flattened with
  | true =>
    rw [entryDocuments_flattened, entryDocuments_flattened]
    exact .ok (h.elements name)
  | false =>
    obtain ⟨docs, docs', rfl, rfl⟩ | ⟨items, items', rfl, rfl⟩ |
      ⟨rfl, rfl, s, s', rfl, rfl, hblank⟩ := h.cases
    · rw [entryDocuments_object, entryDocuments_object]
      refine .ok ?_
      have hname : path = [] → ∀ value, edit ≠ .insert name value := by
        rintro hpath value rfl
        exact hlook rfl hpath rfl
      have hfound : Option.Rel _ (Fields.get? docs name) (Fields.get? docs' name) :=
        h.get? name hname
      obtain ⟨hdoc, hlater⟩ | ⟨a, b, hdoc, hlater, hab⟩ := optionRel_cases hfound
      · rw [hdoc, hlater]
        exact .nil
      · rw [hdoc, hlater]
        obtain rfl | ⟨rest, rfl, hedited⟩ := hab
        · exact forall₂_sameOrEdited_refl name false _
        · exact (hedited.elements name).imp fun a b hab => hab.inside
    · exact .error _
    · unfold ServiceBindings.entryDocuments
      rw [if_neg (by simp), if_neg (by simp)]
      dsimp only
      rw [hblank]
      split_ifs
      · exact .ok .nil
      · exact .error _

theorem entryOf_of_not_string {doc key : Document} {keyName valueName : Option String}
    (hkey : doc.get? (Plan.keyElement keyName) = some key) (hstring : ∀ s, key ≠ .string s)
    (position : String) :
    entryOf position keyName valueName doc = misfit position "map key" key := by
  rw [entryOf, hkey]
  cases key with
  | string s => exact absurd rfl (hstring s)
  | _ => rfl

/-- An element holds the same key as before and a value that is read as before, when no look at them
notices the edit. -/
theorem Document.EditedAt.sameEntry (h : EditedAt edit path doc later)
    {keyName valueName : Option String} {value : Target}
    (hentry : path = [] → ¬(Look.entry keyName valueName).Notices .xml edit)
    (hkey : path = [.member (Plan.keyElement keyName)] → ¬Look.key.Notices .xml edit)
    (hvalue : ∀ rest, path = .member (Plan.valueElement valueName) :: rest →
      ∀ a b, EditedAt edit rest a b → SameReading .xml value a b) :
    SameEntry keyName valueName value doc later := by
  intro position
  have hkeys := h.get? (Plan.keyElement keyName) fun hpath _ heq =>
    hentry hpath (heq ▸ .inl rfl)
  have hvalues := h.get? (Plan.valueElement valueName) fun hpath _ heq =>
    hentry hpath (heq ▸ .inr rfl)
  have hsame : SameReading .xml value ((doc.get? (Plan.valueElement valueName)).getD .null)
      ((later.get? (Plan.valueElement valueName)).getD .null) := by
    obtain ⟨hdoc, hlater⟩ | ⟨a, b, hdoc, hlater, hab⟩ := optionRel_cases hvalues
    · rw [hdoc, hlater]
      exact .refl _ _ _
    · rw [hdoc, hlater]
      obtain rfl | ⟨rest, hpath, hedited⟩ := hab
      · exact .refl _ _ _
      · exact hvalue rest hpath _ _ hedited
  obtain ⟨hdoc, hlater⟩ | ⟨key, key', hdoc, hlater, hab⟩ := optionRel_cases hkeys
  · rw [entryOf, entryOf, hdoc, hlater, h.misfit_eq]
    exact .error _
  · obtain rfl | ⟨rest, rfl, hedited⟩ := hab
    · rw [entryOf, entryOf, hdoc, hlater]
      cases key with
      | string s => exact .ok ⟨rfl, hsame⟩
      | _ => exact .error _
    · have hstrings : (∀ s, key ≠ .string s) ∧ ∀ s, key' ≠ .string s := by
        obtain ⟨_, _, rfl, rfl⟩ | ⟨_, _, rfl, rfl⟩ | ⟨rfl, rfl, -⟩ := hedited.cases
        · simp
        · simp
        · exact absurd trivial (hkey rfl)
      rw [entryOf_of_not_string hdoc hstrings.1, entryOf_of_not_string hlater hstrings.2,
        hedited.misfit_eq]
      exact .error _

/-- Data without parts are none in an edited document, unless a text was edited. -/
theorem Document.EditedAt.sameReading_simple (h : EditedAt edit path doc later) {origin : Origin}
    (hlook : path = [] → edit ≠ .respace) {target : Target}
    (htarget : (∃ kind format streaming, target = .scalar kind format streaming) ∨
      ∃ e, target = .enumeration e) : SameReading origin target doc later := by
  refine sameReading_of_readPresent h.isNull_eq fun position => ?_
  obtain ⟨docs, docs', rfl, rfl⟩ | ⟨items, items', rfl, rfl⟩ | ⟨rfl, rfl, -⟩ := h.cases
  · obtain ⟨kind, format, streaming, rfl⟩ | ⟨e, rfl⟩ := htarget
    · cases kind <;> rfl
    · rfl
  · obtain ⟨kind, format, streaming, rfl⟩ | ⟨e, rfl⟩ := htarget
    · cases kind <;> rfl
    · rfl
  · exact absurd rfl (hlook rfl)

/-- The items of an edited array are the same as before or were edited themselves; a document that
is no array is as wrong as before. -/
theorem Document.EditedAt.itemDocuments (h : EditedAt edit path doc later) {origin : Origin}
    (horigin : origin ≠ .xml) (position : String) (itemName : Option String) (flattened : Bool) :
    Agree (List.Forall₂ fun a b => a = b ∨ ∃ rest, path = .item :: rest ∧ EditedAt edit rest a b)
      (ServiceBindings.itemDocuments origin position itemName flattened doc)
      (ServiceBindings.itemDocuments origin position itemName flattened later) := by
  have hmisfit (doc : Document) (hdoc : ∀ items, doc ≠ .array items) :
      ServiceBindings.itemDocuments origin position itemName flattened doc =
        misfit position "list" doc := by
    cases origin with
    | xml => exact absurd rfl horigin
    | caller | json =>
      cases doc with
      | array items => exact absurd rfl (hdoc items)
      | _ => rfl
  match path with
  | [] | .member _ :: _ =>
    obtain ⟨_, _, rfl, rfl⟩ | ⟨_, _, rfl, rfl⟩ | ⟨-, -, _, _, rfl, rfl, -⟩ := h.cases
    · rw [hmisfit _ (by simp), hmisfit _ (by simp)]
      exact .error _
    · cases edit <;> simp [EditedAt, Edit.Applies] at h
    · rw [hmisfit _ (by simp), hmisfit _ (by simp)]
      exact .error _
  | .item :: rest =>
    obtain ⟨items, items', rfl, rfl, hitems⟩ := h
    have hok (items : List Document) :
        ServiceBindings.itemDocuments origin position itemName flattened (.array items) =
          .ok items := by
      cases origin with
      | xml => exact absurd rfl horigin
      | caller | json => rfl
    rw [hok, hok]
    exact .ok (hitems.imp fun a b hab => hab.imp_right fun hedited => ⟨rest, rfl, hedited⟩)

/-- A map is read as before when no look for its entries notices the edit. -/
theorem Document.EditedAt.sameReading_entries (h : EditedAt edit path doc later) {origin : Origin}
    (horigin : origin ≠ .xml) {shape : String} {key value : Target}
    {keyName valueName : Option String} {flattened : Bool}
    (hlook : path = [] → ¬Look.entries.Notices origin edit)
    (hvalue : ∀ name rest, path = .member name :: rest →
      ∀ a b, EditedAt edit rest a b → SameReading origin value a b) :
    SameReading origin (.map shape key value keyName valueName flattened) doc later := by
  have hmisfit (hdocs : ∀ docs, doc ≠ .object docs) (hlater : ∀ docs, later ≠ .object docs) :
      SameReading origin (.map shape key value keyName valueName flattened) doc later := by
    refine sameReading_of_readPresent h.isNull_eq fun position => ?_
    rw [readPresent_map_of_ne_xml horigin, readPresent_map_of_ne_xml horigin]
    split
    · exact absurd rfl (hdocs _)
    · exact h.misfit_eq position "map"
  match path with
  | [] =>
    cases edit with
    | insert name document => exact absurd trivial (hlook rfl)
    | respace =>
      obtain ⟨s, s', rfl, rfl, -⟩ := h
      exact hmisfit (by simp) (by simp)
  | .member name :: rest =>
    obtain ⟨docs, docs', rfl, rfl, hdocs⟩ := h
    refine ServiceBindings.sameReading_entries horigin (hdocs.imp fun a b hab => ⟨hab.1, ?_⟩)
    obtain heq | ⟨-, hedited⟩ := hab.2
    · rw [heq]
      exact .refl _ _ _
    · exact hvalue name rest rfl _ _ hedited
  | .item :: rest =>
    obtain ⟨items, items', rfl, rfl, -⟩ := h
    exact hmisfit (by simp) (by simp)

/-- A list of items is read as before when its items are. -/
theorem Document.EditedAt.sameReading_items (h : EditedAt edit path doc later) {origin : Origin}
    (horigin : origin ≠ .xml) {shape : String} {item : Target} {itemName : Option String}
    {flattened : Bool}
    (hitem : ∀ rest, path = .item :: rest →
      ∀ a b, EditedAt edit rest a b → SameReading origin item a b) :
    SameReading origin (.list shape item itemName flattened) doc later := by
  refine sameReading_list h.isNull_eq fun position => ?_
  refine (h.itemDocuments horigin position itemName flattened).imp fun docs others =>
    List.Forall₂.imp fun a b hab => ?_
  obtain rfl | ⟨rest, hpath, hedited⟩ := hab
  · exact .refl _ _ _
  · exact hitem rest hpath a b hedited

/-- A list of elements is read as before when its items are and no look for the elements notices the
edit. -/
theorem Document.EditedAt.sameReading_itemElements (h : EditedAt edit path doc later)
    {shape : String} {item : Target} {itemName : Option String} {flattened : Bool}
    (helements : flattened = false → path = [] →
      ¬(Look.elements (Plan.itemElement itemName)).Notices .xml edit)
    (hitem : ∀ rest, ToElement (Plan.itemElement itemName) rest flattened path →
      ∀ a b, EditedAt edit rest a b → SameReading .xml item a b) :
    SameReading .xml (.list shape item itemName flattened) doc later := by
  refine sameReading_list h.isNull_eq fun position => ?_
  refine (h.entryDocuments helements position "list").imp fun docs others =>
    List.Forall₂.imp fun a b hab => ?_
  obtain rfl | ⟨rest, hway, hedited⟩ := hab
  · exact .refl _ _ _
  · exact hitem rest hway a b hedited

/-- A map of elements is read as before when its entries are and no look for the elements notices
the edit. -/
theorem Document.EditedAt.sameReading_entryElements (h : EditedAt edit path doc later)
    {shape : String} {key value : Target} {keyName valueName : Option String} {flattened : Bool}
    (helements : flattened = false → path = [] → ¬(Look.elements "entry").Notices .xml edit)
    (hentry : ∀ rest, ToElement "entry" rest flattened path →
      ∀ a b, EditedAt edit rest a b → SameEntry keyName valueName value a b) :
    SameReading .xml (.map shape key value keyName valueName flattened) doc later := by
  refine sameReading_elements h.isNull_eq fun position => ?_
  refine (h.entryDocuments helements position "map").imp fun docs others =>
    List.Forall₂.imp fun a b hab => ?_
  obtain rfl | ⟨rest, hway, hedited⟩ := hab
  · exact .refl _ _ _ _
  · exact hentry rest hway a b hedited

/-- A structure is read as before when no look for its members notices the edit. -/
theorem Document.EditedAt.sameReading_structure (h : EditedAt edit path doc later) {origin : Origin}
    {heading : Plan.Heading} {members : List (Binding × Target)}
    (hlook : path = [] → ¬(Look.structure members).Notices origin edit)
    (hmember : ∀ member ∈ members, ∀ name rest, memberKey? origin member.1 = some name →
      path = .member name :: rest → ∀ a b, EditedAt edit rest a b →
        SameReading origin member.2 a b) :
    SameReading origin (.structure heading members) doc later := by
  refine ServiceBindings.sameReading_structure h.isNull_eq fun position => ?_
  obtain ⟨docs, docs', rfl, rfl⟩ | ⟨items, items', rfl, rfl⟩ |
    ⟨rfl, rfl, s, s', rfl, rfl, hblank⟩ := h.cases
  · refine .ok fun member hmem name hname => ?_
    have hfound := h.get? name fun hpath _ heq => hlook hpath (heq ▸ ⟨member, hmem, hname⟩)
    refine optionRel_imp hfound fun a b hab => ?_
    obtain rfl | ⟨rest, hpath, hedited⟩ := hab
    · exact .refl _ _ _
    · exact hmember member hmem name rest hname hpath _ _ hedited
  · exact .error _
  · unfold membersOf
    dsimp only
    rw [hblank]
    split_ifs
    · exact .ok fun _ _ _ _ => .none
    · exact .error _

end

mutual

/-- An edit that no look at its place notices changes nothing in what is read. -/
theorem Document.EditedAt.sameReading {edit : Edit} {origin : Origin} {path : List Step}
    {doc later : Document} (h : EditedAt edit path doc later) (target : Target)
    (hlook : ∀ look, target.Looks origin path look → ¬look.Notices origin edit) :
    SameReading origin target doc later := by
  cases target with
  | scalar kind format streaming =>
    refine h.sameReading_simple (fun hpath heq => ?_) (.inl ⟨_, _, _, rfl⟩)
    subst hpath heq
    exact hlook _ .scalar trivial
  | enumeration e =>
    refine h.sameReading_simple (fun hpath heq => ?_) (.inr ⟨_, rfl⟩)
    subst hpath heq
    exact hlook _ .enumeration trivial
  | list shape item itemName flattened =>
    by_cases horigin : origin = .xml
    · subst horigin
      refine h.sameReading_itemElements ?_ ?_
      · rintro rfl rfl
        exact hlook _ (.itemElements rfl)
      · rintro rest hway a b hedited
        exact hedited.sameReading item fun look h => hlook look (.itemElement rfl hway h)
    · refine h.sameReading_items horigin ?_
      rintro rest rfl a b hedited
      exact hedited.sameReading item fun look h => hlook look (.item horigin h)
  | map shape key value keyName valueName flattened =>
    by_cases horigin : origin = .xml
    · subst horigin
      refine h.sameReading_entryElements ?_ fun rest hway a b hedited => hedited.sameEntry ?_ ?_ ?_
      · rintro rfl rfl
        exact hlook _ (.entryElements rfl)
      · rintro rfl
        exact hlook _ (.entryElement rfl hway)
      · rintro rfl
        exact hlook _ (.keyElement rfl hway)
      · rintro rest rfl a b hedited
        exact hedited.sameReading value fun look h => hlook look (.valueElement rfl hway h)
    · refine h.sameReading_entries horigin ?_ ?_
      · rintro rfl
        exact hlook _ (.entries horigin)
      · rintro name rest rfl a b hedited
        exact hedited.sameReading value fun look h => hlook look (.entry horigin h)
  | «structure» heading members =>
    refine h.sameReading_structure ?_ ?_
    · rintro rfl
      exact hlook _ .structure
    · rintro member hmem name rest hname rfl a b hedited
      exact hedited.sameReading_member members hmem fun look h => hlook look (.member hmem hname h)

/-- The same for the members of a structure. -/
theorem Document.EditedAt.sameReading_member {edit : Edit} {origin : Origin} {path : List Step}
    {doc later : Document} (h : EditedAt edit path doc later) (members : List (Binding × Target))
    {member : Binding × Target} (hmem : member ∈ members)
    (hlook : ∀ look, member.2.Looks origin path look → ¬look.Notices origin edit) :
    SameReading origin member.2 doc later := by
  match members with
  | (binding, target) :: rest =>
    obtain rfl | hmem := List.mem_cons.1 hmem
    · exact h.sameReading target hlook
    · exact h.sameReading_member rest hmem hlook

end

end ServiceBindings
