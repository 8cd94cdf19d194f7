import Mathlib.Data.List.Forall2
import ServiceBindings.Generate.Compile
import ServiceBindings.Proofs.Naming.Stems
import ServiceBindings.Proofs.Steps

/-! Plans that differ in identifiers alone. -/
namespace ServiceBindings.Naming

/-- Two identifiers are alike when they differ at most in the numbers at their ends. -/
def Identifier.Alike (a b : Identifier) : Prop :=
  ∃ area base, a.IsNumbered area base ∧ b.IsNumbered area base

/-- An identifier is another one that may have got a number. -/
def Identifier.Numbers (plain ident : Identifier) : Prop :=
  ident.IsNumbered plain.area plain.name

theorem Identifier.Numbers.alike {plain a b : Identifier} (ha : plain.Numbers a)
    (hb : plain.Numbers b) : a.Alike b :=
  ⟨plain.area, plain.name, ha, hb⟩

end ServiceBindings.Naming

namespace ServiceBindings.Plan
open Naming (Identifier)

/-- Two enumerations agree in all but their identifiers, which are related. -/
structure Enumeration.Related (r : Identifier → Identifier → Prop) (a b : Enumeration) : Prop where
  ident : r a.ident b.ident
  shape : a.shape = b.shape
  constants : a.constants = b.constants

/-- Two headings agree in all but their identifiers, which are related. -/
structure Heading.Related (r : Identifier → Identifier → Prop) (a b : Heading) : Prop where
  ident : r a.ident b.ident
  shape : a.shape = b.shape
  locationName : a.locationName = b.locationName
  xmlNamespace : a.xmlNamespace = b.xmlNamespace

mutual

/-- Two targets agree in all but their identifiers, which are related. -/
def Target.Related (r : Identifier → Identifier → Prop) : Target → Target → Prop
  | .scalar kind format streaming, .scalar kind' format' streaming' =>
    kind = kind' ∧ format = format' ∧ streaming = streaming'
  | .enumeration e, .enumeration e' => e.Related r e'
  | .list shape item itemName flattened, .list shape' item' itemName' flattened' =>
    shape = shape' ∧ item.Related r item' ∧ itemName = itemName' ∧ flattened = flattened'
  | .map shape key value keyName valueName flattened,
    .map shape' key' value' keyName' valueName' flattened' =>
    shape = shape' ∧ key.Related r key' ∧ value.Related r value' ∧ keyName = keyName' ∧
      valueName = valueName' ∧ flattened = flattened'
  | .structure heading members, .structure heading' members' =>
    heading.Related r heading' ∧ RelatedMembers r members members'
  | _, _ => False

/-- Members have the same places, and related targets. -/
def RelatedMembers (r : Identifier → Identifier → Prop) :
    List (Binding × Target) → List (Binding × Target) → Prop
  | [], [] => True
  | (binding, target) :: rest, (binding', target') :: rest' =>
    binding = binding' ∧ target.Related r target' ∧ RelatedMembers r rest rest'
  | _, _ => False

end

/-- Two structures agree in all but their identifiers, which are related. -/
structure Layout.Related (r : Identifier → Identifier → Prop) (a b : Layout) : Prop where
  heading : a.heading.Related r b.heading
  members : RelatedMembers r a.members b.members

/-- Two operations agree in all but their identifiers, which are related. -/
structure Call.Related (r : Identifier → Identifier → Prop) (a b : Call) : Prop where
  service : a.service = b.service
  operation : a.operation = b.operation
  ident : r a.ident b.ident
  input : a.input.Related r b.input
  output : Option.Rel (Layout.Related r) a.output b.output
  template : a.template = b.template

/-- Two operations are alike when they differ at most in the numbers of identifiers. -/
def Call.Alike (a b : Call) : Prop :=
  a.Related Identifier.Alike b

section
variable {r s q : Identifier → Identifier → Prop}

theorem Enumeration.Related.join (hq : ∀ c a b, r c a → s c b → q a b) {c a b : Enumeration}
    (ha : c.Related r a) (hb : c.Related s b) : a.Related q b :=
  ⟨hq _ _ _ ha.ident hb.ident, ha.shape.symm.trans hb.shape, ha.constants.symm.trans hb.constants⟩

theorem Heading.Related.join (hq : ∀ c a b, r c a → s c b → q a b) {c a b : Heading}
    (ha : c.Related r a) (hb : c.Related s b) : a.Related q b :=
  ⟨hq _ _ _ ha.ident hb.ident, ha.shape.symm.trans hb.shape,
    ha.locationName.symm.trans hb.locationName, ha.xmlNamespace.symm.trans hb.xmlNamespace⟩

mutual

/-- Two plans related to a third one are related to each other. -/
theorem Target.Related.join (hq : ∀ c a b, r c a → s c b → q a b) {c a b : Target}
    (ha : c.Related r a) (hb : c.Related s b) : a.Related q b := by
  cases c with
  | scalar kind format streaming =>
    cases a <;> try exact ha.elim
    cases b <;> try exact hb.elim
    obtain ⟨rfl, rfl, rfl⟩ := ha
    obtain ⟨rfl, rfl, rfl⟩ := hb
    exact ⟨rfl, rfl, rfl⟩
  | enumeration e =>
    cases a <;> try exact ha.elim
    cases b <;> try exact hb.elim
    exact Enumeration.Related.join hq ha hb
  | list shape item itemName flattened =>
    cases a <;> try exact ha.elim
    cases b <;> try exact hb.elim
    obtain ⟨rfl, hitem, rfl, rfl⟩ := ha
    obtain ⟨rfl, hitem', rfl, rfl⟩ := hb
    exact ⟨rfl, Target.Related.join hq hitem hitem', rfl, rfl⟩
  | map shape key value keyName valueName flattened =>
    cases a <;> try exact ha.elim
    cases b <;> try exact hb.elim
    obtain ⟨rfl, hkey, hvalue, rfl, rfl, rfl⟩ := ha
    obtain ⟨rfl, hkey', hvalue', rfl, rfl, rfl⟩ := hb
    exact ⟨rfl, Target.Related.join hq hkey hkey', Target.Related.join hq hvalue hvalue', rfl, rfl,
      rfl⟩
  | «structure» heading members =>
    cases a <;> try exact ha.elim
    cases b <;> try exact hb.elim
    exact ⟨Heading.Related.join hq ha.1 hb.1, RelatedMembers.join hq ha.2 hb.2⟩

theorem RelatedMembers.join (hq : ∀ c a b, r c a → s c b → q a b)
    {c a b : List (Binding × Target)} (ha : RelatedMembers r c a) (hb : RelatedMembers s c b) :
    RelatedMembers q a b := by
  match c, a, b with
  | [], [], [] => trivial
  | (_, _) :: _, (_, _) :: _, (_, _) :: _ =>
    obtain ⟨rfl, htarget, hrest⟩ := ha
    obtain ⟨rfl, htarget', hrest'⟩ := hb
    exact ⟨rfl, Target.Related.join hq htarget htarget', RelatedMembers.join hq hrest hrest'⟩

end

theorem Layout.Related.join (hq : ∀ c a b, r c a → s c b → q a b) {c a b : Layout}
    (ha : c.Related r a) (hb : c.Related s b) : a.Related q b :=
  ⟨Heading.Related.join hq ha.heading hb.heading,
    RelatedMembers.join hq ha.members hb.members⟩

theorem optionRelated_join (hq : ∀ c a b, r c a → s c b → q a b) {c a b : Option Layout}
    (ha : Option.Rel (Layout.Related r) c a) (hb : Option.Rel (Layout.Related s) c b) :
    Option.Rel (Layout.Related q) a b := by
  cases ha with
  | none =>
    cases hb
    exact .none
  | some h =>
    cases hb with
    | some h' => exact .some (Layout.Related.join hq h h')

theorem Call.Related.join (hq : ∀ c a b, r c a → s c b → q a b) {c a b : Call}
    (ha : c.Related r a) (hb : c.Related s b) : a.Related q b where
  service := ha.service.symm.trans hb.service
  operation := ha.operation.symm.trans hb.operation
  ident := hq _ _ _ ha.ident hb.ident
  input := Layout.Related.join hq ha.input hb.input
  output := optionRelated_join hq ha.output hb.output
  template := ha.template.symm.trans hb.template

end

section
variable {r : Identifier → Identifier → Prop}

/-- Related targets name the entries of flattened lists alike. -/
theorem wireName_eq_of_related (member : Member) {a b : Target} (h : a.Related r b) :
    Generate.wireName member a = Generate.wireName member b := by
  cases a with
  | list shape item itemName flattened =>
    cases b <;> try exact h.elim
    obtain ⟨rfl, -, rfl, rfl⟩ := h
    cases flattened <;> rfl
  | _ => cases b <;> first | exact h.elim | rfl

theorem bindingOf_eq_of_related (member : Member) {a b : Target} (h : a.Related r b) :
    Generate.bindingOf member a = Generate.bindingOf member b := by
  rw [Generate.bindingOf, Generate.bindingOf, wireName_eq_of_related member h]

theorem RelatedMembers.map_fst {a b : List (Binding × Target)} (h : RelatedMembers r a b) :
    a.map Prod.fst = b.map Prod.fst := by
  induction a generalizing b with
  | nil =>
    cases b with
    | nil => rfl
    | cons => exact h.elim
  | cons first rest ih =>
    cases b with
    | nil => exact h.elim
    | cons second others =>
      obtain ⟨hbinding, -, hrest⟩ := h
      rw [List.map_cons, List.map_cons, ih hrest, hbinding]

/-- A member found by its place is found alike in related members. -/
theorem map_fst_find? (p : Binding → Bool) {a b : List (Binding × Target)}
    (h : a.map Prod.fst = b.map Prod.fst) :
    (a.find? fun member => p member.1).map Prod.fst =
      (b.find? fun member => p member.1).map Prod.fst := by
  have hfind : ∀ members : List (Binding × Target),
      (members.find? fun member => p member.1).map Prod.fst =
        (members.map Prod.fst).find? p := fun members => by
    rw [List.find?_map]
    rfl
  rw [hfind, hfind, h]

theorem map_fst_filter (p : Binding → Bool) {a b : List (Binding × Target)}
    (h : a.map Prod.fst = b.map Prod.fst) :
    (a.filter fun member => p member.1).map Prod.fst =
      (b.filter fun member => p member.1).map Prod.fst := by
  have hfilter : ∀ members : List (Binding × Target),
      (members.filter fun member => p member.1).map Prod.fst =
        (members.map Prod.fst).filter p := fun members => by
    rw [List.filter_map]
    rfl
  rw [hfilter, hfilter, h]

/-- Two structures have one name, and members in the same places. -/
structure Layout.SamePlaces (a b : Layout) : Prop where
  shape : a.heading.shape = b.heading.shape
  places : a.members.map Prod.fst = b.members.map Prod.fst

theorem Layout.Related.samePlaces {a b : Layout} (h : a.Related r b) : a.SamePlaces b :=
  ⟨h.heading.shape, h.members.map_fst⟩

namespace Layout.SamePlaces
variable {a b : Layout}

theorem member? (h : a.SamePlaces b) (name : String) :
    (a.member? name).map Prod.fst = (b.member? name).map Prod.fst :=
  map_fst_find? (fun binding => binding.name = name) h.places

theorem isSome_member? (h : a.SamePlaces b) (name : String) :
    (a.member? name).isSome = (b.member? name).isSome := by
  rw [← Option.isSome_map (f := Prod.fst), h.member? name, Option.isSome_map]

theorem labelSegment (h : a.SamePlaces b) (template : String) (chars : List Char) :
    a.labelSegment template chars = b.labelSegment template chars := by
  have hmember : ∀ name, (a.labelMember? name).map Prod.fst =
      (b.labelMember? name).map Prod.fst := fun name =>
    map_fst_find? (fun binding => binding.wireName = name ∨ binding.name = name)
      (map_fst_filter (fun binding => binding.location = .uri) h.places)
  unfold Layout.labelSegment
  dsimp only
  have := hmember (String.ofList (labelName chars).1)
  rw [h.shape]
  generalize a.labelMember? _ = x at *
  generalize b.labelMember? _ = y at *
  cases x <;> cases y <;> simp_all

mutual

theorem segments (h : a.SamePlaces b) (template : String) (before chars : List Char) :
    a.segments template before chars = b.segments template before chars := by
  cases chars with
  | nil => rw [Layout.segments, Layout.segments]
  | cons c rest =>
    rw [Layout.segments, Layout.segments, segments h template _ rest,
      labelSegments h template _ rest]

theorem labelSegments (h : a.SamePlaces b) (template : String) (name chars : List Char) :
    a.labelSegments template name chars = b.labelSegments template name chars := by
  cases chars with
  | nil => rw [Layout.labelSegments, Layout.labelSegments]
  | cons c rest =>
    rw [Layout.labelSegments, Layout.labelSegments, segments h template _ rest,
      labelSegments h template _ rest, h.labelSegment]

end

theorem templateOf (h : a.SamePlaces b) (operation : Operation) :
    Plan.templateOf operation a = Plan.templateOf operation b := by
  have hsegments := h.segments
  unfold Plan.templateOf Layout.template
  simp only [hsegments]

theorem needMember (h : a.SamePlaces b) (name : String) :
    Plan.needMember a name = Plan.needMember b name := by
  rw [Plan.needMember, Plan.needMember, h.isSome_member?, h.shape]

/-- The rules of pages look at the names of members alone. -/
theorem checkPagination (h : a.SamePlaces b) (operation : Operation)
    {output output' : Option Layout} (houtput : Option.Rel SamePlaces output output') :
    Plan.checkPagination operation a output = Plan.checkPagination operation b output' := by
  have hneed := h.needMember
  unfold Plan.checkPagination
  cases operation.pagination with
  | none => rfl
  | some pagination =>
    cases houtput with
    | none => simp only [hneed]
    | some h' => simp only [hneed, h'.needMember]

end Layout.SamePlaces

end

end ServiceBindings.Plan
