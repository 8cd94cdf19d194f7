import Mathlib.Tactic.Common
import ServiceBindings.Proofs.Steps
import ServiceBindings.Value.Validity

/-! Validation reports the first of all faults, in the order in which a walk through the input meets
them. -/
namespace ServiceBindings
open Plan (Binding Layout Target)

mutual

/-- All faults in the value of a member: those of items and entries in order, where the key of an
entry comes before its value, and those of the members of a structure. -/
def faultsOf (field : String) (value : Value) : Target → List ValidationError
  | .scalar _ _ _ => []
  | .enumeration e =>
    match value with
    | .string s =>
      if s ∈ e.constants.map (·.value) then [] else [.notInEnumeration field s e.shape]
    | _ => []
  | .list _ item _ _ =>
    match value with
    | .list items => items.flatMap fun value => faultsOf field value item
    | _ => []
  | .map _ key target _ _ _ =>
    match value with
    | .map entries => entries.flatMap fun entry =>
      faultsOf field (.string entry.1) key ++ faultsOf field entry.2 target
    | _ => []
  | .structure heading members =>
    match value with
    | .structure _ fields => faultsIn heading.shape fields members
    | _ => []

def faultsIn (shape : String) (fields : Fields Value) :
    List (Binding × Target) → List ValidationError
  | [] => []
  | (binding, target) :: rest =>
    (match Fields.get? fields binding.name with
      | none => if binding.required then [.missing shape binding.name] else []
      | some value => faultsOf binding.name value target) ++ faultsIn shape fields rest

end

/-- All faults in a record. -/
def faults (layout : Layout) (record : Record) : List ValidationError :=
  faultsIn layout.heading.shape record.fields layout.members

def firstFault : List ValidationError → Except ValidationError Unit
  | [] => .ok ()
  | fault :: _ => .error fault

theorem firstFault_append (before after : List ValidationError) :
    firstFault (before ++ after) = firstFault before >>= fun _ => firstFault after := by
  cases before <;> rfl

theorem firstFault_eq_ok {faults : List ValidationError} :
    firstFault faults = .ok () ↔ faults = [] := by
  cases faults <;> simp [firstFault]

theorem firstFault_eq_error {faults : List ValidationError} {fault : ValidationError} :
    firstFault faults = .error fault ↔ faults.head? = some fault := by
  cases faults <;> simp [firstFault]

/-- A walk over items stops at the first fault of all of them. -/
theorem forM_eq_firstFault {α : Type} {items : List α} {check : α → Except ValidationError Unit}
    {list : α → List ValidationError} (h : ∀ item ∈ items, check item = firstFault (list item)) :
    items.forM check = firstFault (items.flatMap list) := by
  induction items with
  | nil => rfl
  | cons item rest ih =>
    rw [List.forM, List.flatMap_cons, firstFault_append, h item List.mem_cons_self,
      ih fun item hmem => h item (List.mem_cons_of_mem _ hmem)]

theorem contains_iff (e : Plan.Enumeration) (s : String) :
    e.contains s = true ↔ s ∈ e.constants.map (·.value) := by
  simp [Plan.Enumeration.contains]

mutual

/-- In a value, validation stops at the first fault. -/
theorem validateValue_eq_firstFault (field : String) (value : Value) (target : Target) :
    validateValue field value target = firstFault (faultsOf field value target) := by
  cases target with
  | scalar kind format streaming => rfl
  | enumeration e =>
    cases value with
    | string s =>
      rw [validateValue, faultsOf]
      by_cases h : e.contains s = true
      · rw [if_pos h, if_pos ((contains_iff e s).1 h)]
        rfl
      · rw [if_neg h, if_neg (mt (contains_iff e s).2 h)]
        rfl
    | _ => rfl
  | list shape item itemName flattened =>
    cases value with
    | list items =>
      exact forM_eq_firstFault fun value _ => validateValue_eq_firstFault field value item
    | _ => rfl
  | map shape key target keyName valueName flattened =>
    cases value with
    | map entries =>
      refine forM_eq_firstFault fun entry _ => ?_
      rw [firstFault_append, validateValue_eq_firstFault field _ key,
        validateValue_eq_firstFault field _ target]
    | _ => rfl
  | «structure» heading members =>
    cases value with
    | «structure» shape fields => exact validateMembers_eq_firstFault heading.shape fields members
    | _ => rfl

/-- In members, validation stops at the first fault. -/
theorem validateMembers_eq_firstFault (shape : String) (fields : Fields Value)
    (members : List (Binding × Target)) :
    validateMembers shape fields members = firstFault (faultsIn shape fields members) := by
  match members with
  | [] => rfl
  | (binding, target) :: rest =>
    rw [validateMembers, faultsIn, firstFault_append,
      validateMembers_eq_firstFault shape fields rest]
    cases Fields.get? fields binding.name with
    | none =>
      dsimp only
      split_ifs <;> rfl
    | some value =>
      dsimp only
      rw [validateValue_eq_firstFault binding.name value target]

end

/-- A value that stands for a target somewhere in an input, under the name of the member around it;
the input itself stands under no name. The keys of maps count as texts. -/
inductive HasValue (layout : Layout) (record : Record) : String → Value → Target → Prop
  | whole : HasValue layout record "" record.toValue layout.toTarget
  | member {field shape : String} {fields : List (String × Value)} {heading : Plan.Heading}
    {members : List (Binding × Target)} {member : Binding × Target} {value : Value} :
    HasValue layout record field (.structure shape fields) (.structure heading members) →
      member ∈ members → Fields.get? fields member.1.name = some value →
        HasValue layout record member.1.name value member.2
  | item {field shape : String} {items : List Value} {item : Target} {itemName : Option String}
    {flattened : Bool} {value : Value} :
    HasValue layout record field (.list items) (.list shape item itemName flattened) →
      value ∈ items → HasValue layout record field value item
  | key {field shape : String} {entries : List (String × Value)} {key target : Target}
    {keyName valueName : Option String} {flattened : Bool} {entry : String × Value} :
    HasValue layout record field (.map entries)
        (.map shape key target keyName valueName flattened) →
      entry ∈ entries → HasValue layout record field (.string entry.1) key
  | entry {field shape : String} {entries : List (String × Value)} {key target : Target}
    {keyName valueName : Option String} {flattened : Bool} {entry : String × Value} :
    HasValue layout record field (.map entries)
        (.map shape key target keyName valueName flattened) →
      entry ∈ entries → HasValue layout record field entry.2 target

/-- A fault somewhere in an input: a member that must be given is absent, or a text is no value of
its enumeration. -/
inductive HasFault (layout : Layout) (record : Record) : ValidationError → Prop
  | missing {field shape : String} {fields : List (String × Value)} {heading : Plan.Heading}
    {members : List (Binding × Target)} {member : Binding × Target} :
    HasValue layout record field (.structure shape fields) (.structure heading members) →
      member ∈ members → member.1.required = true → Fields.get? fields member.1.name = none →
        HasFault layout record (.missing heading.shape member.1.name)
  | notInEnumeration {field s : String} {e : Plan.Enumeration} :
    HasValue layout record field (.string s) (.enumeration e) →
      s ∉ e.constants.map (·.value) →
        HasFault layout record (.notInEnumeration field s e.shape)

theorem faultsIn_eq_flatMap (shape : String) (fields : Fields Value)
    (members : List (Binding × Target)) :
    faultsIn shape fields members = members.flatMap fun member =>
      match Fields.get? fields member.1.name with
      | none => if member.1.required then [.missing shape member.1.name] else []
      | some value => faultsOf member.1.name value member.2 := by
  induction members with
  | nil => rfl
  | cons member rest ih => rw [faultsIn, ih, List.flatMap_cons]

section
variable {layout : Layout} {record : Record} {fault : ValidationError}

/-- The faults of every value in an input are faults of the input. -/
theorem HasValue.faultsOf_subset {field : String} {value : Value} {target : Target}
    (h : HasValue layout record field value target) :
    faultsOf field value target ⊆ faults layout record := by
  induction h with
  | whole => exact List.Subset.refl _
  | @member field shape fields heading members member value _ hmem hvalue ih =>
    refine List.Subset.trans (fun fault hfault => ?_) ih
    rw [faultsOf, faultsIn_eq_flatMap]
    exact List.mem_flatMap.2 ⟨member, hmem, by rwa [hvalue]⟩
  | item _ hmem ih =>
    exact List.Subset.trans (fun _ hfault => List.mem_flatMap.2 ⟨_, hmem, hfault⟩) ih
  | key _ hmem ih =>
    exact List.Subset.trans
      (fun _ hfault => List.mem_flatMap.2 ⟨_, hmem, List.mem_append_left _ hfault⟩) ih
  | entry _ hmem ih =>
    exact List.Subset.trans
      (fun _ hfault => List.mem_flatMap.2 ⟨_, hmem, List.mem_append_right _ hfault⟩) ih

mutual

/-- What is listed for a value in an input is a fault of the input. -/
theorem hasFault_of_mem_faultsOf {field : String} {value : Value} (target : Target)
    (hvalue : HasValue layout record field value target)
    (h : fault ∈ faultsOf field value target) : HasFault layout record fault := by
  cases target with
  | scalar kind format streaming => cases h
  | enumeration e =>
    cases value with
    | string s =>
      rw [faultsOf] at h
      split_ifs at h with hlisted
      · cases h
      · obtain rfl := List.mem_singleton.1 h
        exact .notInEnumeration hvalue hlisted
    | _ => cases h
  | list shape item itemName flattened =>
    cases value with
    | list items =>
      obtain ⟨value, hmem, h⟩ := List.mem_flatMap.1 h
      exact hasFault_of_mem_faultsOf item (.item hvalue hmem) h
    | _ => cases h
  | map shape key target keyName valueName flattened =>
    cases value with
    | map entries =>
      obtain ⟨entry, hmem, h⟩ := List.mem_flatMap.1 h
      rcases List.mem_append.1 h with h | h
      · exact hasFault_of_mem_faultsOf key (.key hvalue hmem) h
      · exact hasFault_of_mem_faultsOf target (.entry hvalue hmem) h
    | _ => cases h
  | «structure» heading members =>
    cases value with
    | «structure» shape fields =>
      exact hasFault_of_mem_faultsIn members hvalue (List.Subset.refl _) h
    | _ => cases h

/-- What is listed for members of a structure in an input is a fault of the input. -/
theorem hasFault_of_mem_faultsIn {field shape : String} {fields : List (String × Value)}
    {heading : Plan.Heading} (members : List (Binding × Target)) {all : List (Binding × Target)}
    (hall : HasValue layout record field (.structure shape fields) (.structure heading all))
    (hsub : members ⊆ all) (h : fault ∈ faultsIn heading.shape fields members) :
    HasFault layout record fault := by
  match members with
  | [] => cases h
  | (binding, target) :: rest =>
    rw [faultsIn] at h
    rcases List.mem_append.1 h with h | h
    · cases hvalue : Fields.get? fields binding.name with
      | none =>
        rw [hvalue] at h
        dsimp only at h
        split_ifs at h with hrequired
        · obtain rfl := List.mem_singleton.1 h
          exact .missing hall (hsub List.mem_cons_self) hrequired hvalue
        · cases h
      | some value =>
        rw [hvalue] at h
        exact hasFault_of_mem_faultsOf target (.member hall (hsub List.mem_cons_self) hvalue) h
    · exact hasFault_of_mem_faultsIn rest hall
        (fun _ hmem => hsub (List.mem_cons_of_mem _ hmem)) h

end

/-- The walk misses no fault of an input, and lists no other. -/
theorem mem_faults_iff : fault ∈ faults layout record ↔ HasFault layout record fault := by
  constructor
  · exact hasFault_of_mem_faultsIn layout.members .whole (List.Subset.refl _)
  · intro h
    cases h with
    | @missing field shape fields heading members member hvalue hmem hrequired hnone =>
      refine hvalue.faultsOf_subset ?_
      rw [faultsOf, faultsIn_eq_flatMap]
      exact List.mem_flatMap.2 ⟨member, hmem, by simp [hnone, hrequired]⟩
    | notInEnumeration hvalue hlisted =>
      refine hvalue.faultsOf_subset ?_
      rw [faultsOf, if_neg hlisted]
      exact List.mem_singleton.2 rfl

end

/-- An input is accepted exactly when there is no fault anywhere in it, and refused for the first of
its faults in the order of the walk, which comes to all of them. -/
theorem validate_first_fault (layout : Layout) (record : Record) :
    (validate layout record = .ok () ↔ faults layout record = []) ∧
    (∀ fault, validate layout record = .error fault ↔
      (faults layout record).head? = some fault) ∧
    ∀ fault, fault ∈ faults layout record ↔ HasFault layout record fault := by
  have h : validate layout record = firstFault (faults layout record) :=
    validateMembers_eq_firstFault _ _ _
  rw [h]
  exact ⟨firstFault_eq_ok, fun _ => firstFault_eq_error, fun _ => mem_faults_iff⟩

end ServiceBindings
