import ServiceBindings.Proofs.Plan.Bindings
import ServiceBindings.Proofs.Steps
import ServiceBindings.Proofs.Value.Reading
import ServiceBindings.Request.Tree

/-! Values that fit their targets are written without faults of their kinds. -/
namespace ServiceBindings.Request
open Plan (AreStored AttributesAreSimple Binding Target)

/-- A step of writing a request does not fail for the kind of a value. -/
def NoWrongKind {α : Type} (result : Except Error α) : Prop :=
  ∀ path expected found, result ≠ .error (.kind path expected found)

section
variable {α β : Type}

theorem noWrongKind_ok (a : α) : NoWrongKind (.ok a) := by
  simp [NoWrongKind]

theorem NoWrongKind.bind {x : Except Error α} {f : α → Except Error β} (hx : NoWrongKind x)
    (hf : ∀ a, x = .ok a → NoWrongKind (f a)) : NoWrongKind (x >>= f) := by
  cases x with
  | ok a => exact hf a rfl
  | error error =>
    intro path expected found h
    exact hx path expected found (by rw [Except.error.inj h])

theorem NoWrongKind.map {x : Except Error α} (hx : NoWrongKind x) (f : α → β) :
    NoWrongKind (x.map f) := by
  intro path expected found h
  exact hx path expected found (map_eq_error.1 h)

theorem noWrongKind_mapM {f : α → Except Error β} {items : List α}
    (h : ∀ item ∈ items, NoWrongKind (f item)) : NoWrongKind (items.mapM f) := by
  induction items with
  | nil => exact noWrongKind_ok []
  | cons item rest ih =>
    rw [List.mapM_cons]
    refine (h item List.mem_cons_self).bind fun first _ => ?_
    exact (ih fun item hmem => h item (List.mem_cons_of_mem _ hmem)).bind fun others _ =>
      noWrongKind_ok _

theorem noWrongKind_eachItem {step : String → Value → Except Error (List α)} {items : List Value}
    (h : ∀ path, ∀ value ∈ items, NoWrongKind (step path value)) (path : String)
    (position : Nat) : NoWrongKind (eachItem step path position items) := by
  induction items generalizing position with
  | nil => exact noWrongKind_ok []
  | cons item rest ih =>
    rw [eachItem]
    refine (h _ item List.mem_cons_self).bind fun first _ => ?_
    exact (ih (fun path value hmem => h path value (List.mem_cons_of_mem _ hmem)) _).bind
      fun others _ => noWrongKind_ok _

theorem noWrongKind_eachEntry {step : String → String → Value → Except Error (List α)}
    {entries : List (String × Value)}
    (h : ∀ key path, ∀ entry ∈ entries, NoWrongKind (step key path entry.2)) (path : String) :
    NoWrongKind (eachEntry step path entries) := by
  induction entries with
  | nil => exact noWrongKind_ok []
  | cons entry rest ih =>
    obtain ⟨key, value⟩ := entry
    rw [eachEntry]
    refine (h key _ (key, value) List.mem_cons_self).bind fun first _ => ?_
    exact (ih fun key path entry hmem => h key path entry (List.mem_cons_of_mem _ hmem)).bind
      fun others _ => noWrongKind_ok _

end

theorem noWrongKind_instantText (t : Instant) (form : Time.Format) :
    NoWrongKind (instantText t form) := by
  unfold instantText
  split <;> simp [NoWrongKind]

/-- Every kind of data without parts has a text. -/
theorem noWrongKind_scalarText (form : Time.Format) (path : String) {target : Target}
    {value : Value} (hsimple : target.IsSimple) (hstored : target.IsStored)
    (hfits : value.Fits Value.IsOfKind target) :
    NoWrongKind (scalarText form path target value) := by
  cases target with
  | enumeration e =>
    obtain ⟨s, rfl⟩ := hfits
    exact noWrongKind_ok s
  | scalar kind format streaming =>
    cases value with
    | string s =>
      obtain rfl : kind = .string := hfits
      exact noWrongKind_ok _
    | boolean b =>
      obtain rfl : kind = .boolean := hfits
      exact noWrongKind_ok _
    | integer i =>
      obtain rfl : kind = .integer := hfits
      exact noWrongKind_ok _
    | float x =>
      obtain rfl : kind = .float := hfits
      exact noWrongKind_ok _
    | timestamp t =>
      obtain rfl : kind = .timestamp := hfits
      exact noWrongKind_instantText _ _
    | blob bytes =>
      obtain rfl : kind = .blob := hfits
      exact noWrongKind_ok _
    | stream source =>
      obtain ⟨rfl, rfl⟩ : kind = .blob ∧ streaming = true := hfits
      cases hstored rfl
    | list _ | map _ | «structure» _ _ => exact hfits.elim
  | list | map | «structure» => exact hsimple.elim

theorem formNode_of_isSimple (path : String) (value : Value) {target : Target}
    (h : target.IsSimple) :
    formNode path value target = (scalarText .dateTime path target value).map .text := by
  cases target with
  | scalar | enumeration => rfl
  | list | map | «structure» => exact h.elim

mutual

theorem noWrongKind_formNode (path : String) (target : Target) (value : Value)
    (hstored : target.IsStored) (hfits : value.Fits Value.IsOfKind target) :
    NoWrongKind (formNode path value target) := by
  cases target with
  | scalar | enumeration =>
    rw [formNode_of_isSimple path value (by trivial)]
    exact (noWrongKind_scalarText _ path (by trivial) hstored hfits).map _
  | list shape item itemName flattened =>
    obtain ⟨items, rfl, hitems⟩ := hfits
    rw [formNode]
    refine (noWrongKind_eachItem (fun path value hmem => ?_) path 0).bind fun _ _ =>
      noWrongKind_ok _
    exact (noWrongKind_formNode path item value hstored (hitems value hmem)).bind fun _ _ =>
      noWrongKind_ok _
  | map shape key target keyName valueName flattened =>
    obtain ⟨entries, rfl, -, hentries⟩ := hfits
    rw [formNode]
    refine (noWrongKind_eachEntry (fun key path entry hmem => ?_) path).bind fun _ _ =>
      noWrongKind_ok _
    exact (noWrongKind_formNode path target entry.2 hstored (hentries entry hmem)).bind fun _ _ =>
      noWrongKind_ok _
  | «structure» heading members =>
    obtain ⟨fields, rfl, -, -, hmembers⟩ := hfits
    rw [formNode]
    exact (noWrongKind_formFields path members fields hstored hmembers).map _

theorem noWrongKind_formFields (path : String) (members : List (Binding × Target))
    (fields : Fields Value) (hstored : AreStored members)
    (hfits : Value.FitMembers Value.IsOfKind fields members) :
    NoWrongKind (formFields path fields members) := by
  match members with
  | [] => exact noWrongKind_ok []
  | (binding, target) :: rest =>
    have hrest := noWrongKind_formFields path rest fields hstored.2 hfits.2
    rw [formFields]
    cases hvalue : Fields.get? fields binding.name with
    | none => exact hrest
    | some value =>
      refine (noWrongKind_formNode _ target value hstored.1 (hfits.1 value hvalue)).bind
        fun _ _ => ?_
      exact hrest.bind fun _ _ => noWrongKind_ok _

end

theorem noWrongKind_jsonScalar (path : String) {target : Target} {value : Value}
    (hsimple : target.IsSimple) (hstored : target.IsStored)
    (hfits : value.Fits Value.IsOfKind target) : NoWrongKind (jsonScalar path target value) := by
  unfold jsonScalar
  split
  · exact noWrongKind_ok _
  · exact noWrongKind_ok _
  · exact noWrongKind_ok _
  · exact noWrongKind_ok _
  · split <;> simp [NoWrongKind]
  · exact (noWrongKind_scalarText _ path hsimple hstored hfits).map _

theorem jsonNode_of_isSimple (path : String) (value : Value) {target : Target}
    (h : target.IsSimple) : jsonNode path value target = jsonScalar path target value := by
  cases target with
  | scalar | enumeration => rfl
  | list | map | «structure» => exact h.elim

mutual

theorem noWrongKind_jsonNode (path : String) (target : Target) (value : Value)
    (hstored : target.IsStored) (hfits : value.Fits Value.IsOfKind target) :
    NoWrongKind (jsonNode path value target) := by
  cases target with
  | scalar | enumeration =>
    rw [jsonNode_of_isSimple path value (by trivial)]
    exact noWrongKind_jsonScalar path (by trivial) hstored hfits
  | list shape item itemName flattened =>
    obtain ⟨items, rfl, hitems⟩ := hfits
    rw [jsonNode]
    refine NoWrongKind.map (noWrongKind_eachItem (fun path value hmem => ?_) path 0) _
    exact (noWrongKind_jsonNode path item value hstored (hitems value hmem)).bind fun _ _ =>
      noWrongKind_ok _
  | map shape key target keyName valueName flattened =>
    obtain ⟨entries, rfl, -, hentries⟩ := hfits
    rw [jsonNode]
    refine NoWrongKind.map (noWrongKind_eachEntry (fun key path entry hmem => ?_) path) _
    exact (noWrongKind_jsonNode path target entry.2 hstored (hentries entry hmem)).bind fun _ _ =>
      noWrongKind_ok _
  | «structure» heading members =>
    obtain ⟨fields, rfl, -, -, hmembers⟩ := hfits
    rw [jsonNode]
    refine NoWrongKind.map (noWrongKind_jsonMembers path members fields ?_ hmembers) _
    exact fun member hmem _ => Plan.areStored_iff.1 hstored member hmem

/-- Members of the body have nodes; the others are passed over. -/
theorem noWrongKind_jsonMembers (path : String) (members : List (Binding × Target))
    (fields : Fields Value)
    (hstored : ∀ member ∈ members, member.1.location = .body → member.2.IsStored)
    (hfits : Value.FitMembers Value.IsOfKind fields members) :
    NoWrongKind (jsonMembers path fields members) := by
  match members with
  | [] => exact noWrongKind_ok []
  | (binding, target) :: rest =>
    have hrest := noWrongKind_jsonMembers path rest fields
      (fun member hmem => hstored member (List.mem_cons_of_mem _ hmem)) hfits.2
    rw [jsonMembers]
    split
    · next value hbody hvalue =>
      refine (noWrongKind_jsonNode _ target value (hstored _ List.mem_cons_self hbody)
        (hfits.1 value hvalue)).bind fun _ _ => ?_
      exact hrest.bind fun _ _ => noWrongKind_ok _
    · exact hrest

end

theorem xmlNodes_of_isSimple (name : String) (ns : Option Namespace) (path : String)
    (value : Value) {target : Target} (h : target.IsSimple) :
    xmlNodes name ns path value target = (scalarText .dateTime path target value).map fun text =>
      [((declare ns { name }).pushText text).toNode] := by
  rw [map_eq_bind]
  cases target with
  | scalar | enumeration => rfl
  | list | map | «structure» => exact h.elim

mutual

theorem noWrongKind_xmlNodes (name : String) (ns : Option Namespace) (path : String)
    (target : Target) (value : Value) (hstored : target.IsStored)
    (hattributes : target.EachStructure AttributesAreSimple)
    (hfits : value.Fits Value.IsOfKind target) :
    NoWrongKind (xmlNodes name ns path value target) := by
  cases target with
  | scalar | enumeration =>
    rw [xmlNodes_of_isSimple name ns path value (by trivial)]
    exact (noWrongKind_scalarText _ path (by trivial) hstored hfits).map _
  | list shape item itemName flattened =>
    obtain ⟨items, rfl, hitems⟩ := hfits
    rw [xmlNodes]
    dsimp only
    have heach (name : String) (ns : Option Namespace) := noWrongKind_eachItem
      (fun path value hmem => noWrongKind_xmlNodes name ns path item value hstored hattributes
        (hitems value hmem)) path 0
    split_ifs
    · exact heach name ns
    · exact (heach _ none).bind fun _ _ => noWrongKind_ok _
  | map shape key target keyName valueName flattened =>
    obtain ⟨entries, rfl, -, hentries⟩ := hfits
    rw [xmlNodes]
    refine (noWrongKind_eachEntry (fun key path entry hmem => ?_) path).bind fun _ _ =>
      noWrongKind_ok _
    exact (noWrongKind_xmlNodes _ none path target entry.2 hstored hattributes
      (hentries entry hmem)).bind fun _ _ => noWrongKind_ok _
  | «structure» heading members =>
    obtain ⟨fields, rfl, -, -, hmembers⟩ := hfits
    rw [xmlNodes]
    refine NoWrongKind.bind (noWrongKind_xmlMembers path members fields _ ?_ hattributes hmembers)
      fun _ _ => noWrongKind_ok _
    exact fun member hmem _ => Plan.areStored_iff.1 hstored member hmem

/-- Members of the body become attributes or content; the others are passed over. -/
theorem noWrongKind_xmlMembers (path : String) (members : List (Binding × Target))
    (fields : Fields Value) (element : Xml.Element)
    (hstored : ∀ member ∈ members, member.1.location = .body → member.2.IsStored)
    (hattributes : AttributesAreSimple members ∧ Target.EachMember AttributesAreSimple members)
    (hfits : Value.FitMembers Value.IsOfKind fields members) :
    NoWrongKind (xmlMembers path fields element members) := by
  match members with
  | [] => exact noWrongKind_ok element
  | (binding, target) :: rest =>
    obtain ⟨hsimple, htarget, htargets⟩ := hattributes
    have hrest (element : Xml.Element) := noWrongKind_xmlMembers path rest fields element
      (fun member hmem => hstored member (List.mem_cons_of_mem _ hmem))
      ⟨fun member hmem => hsimple member (List.mem_cons_of_mem _ hmem), htargets⟩ hfits.2
    rw [xmlMembers]
    split
    · next value hbody hvalue =>
      have hvalueFits := hfits.1 value hvalue
      have htargetStored := hstored _ List.mem_cons_self hbody
      dsimp only
      split_ifs with hattribute
      · refine (noWrongKind_scalarText _ _ (hsimple _ List.mem_cons_self hattribute)
          htargetStored hvalueFits).bind fun _ _ => hrest _
      · exact (noWrongKind_xmlNodes _ _ _ target value htargetStored htarget hvalueFits).bind
          fun _ _ => hrest _
    · exact hrest element

end

end ServiceBindings.Request
