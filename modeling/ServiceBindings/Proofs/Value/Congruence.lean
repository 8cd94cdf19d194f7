import ServiceBindings.Proofs.Steps
import ServiceBindings.Value.Reading

/-! Documents whose parts are read alike are read alike: as the same values, or with the same fault.
-/
namespace ServiceBindings
open Plan (Binding Heading Target)

/-- Two steps come to related results or to the same fault. -/
inductive Agree {ε α β : Type} (r : α → β → Prop) : Except ε α → Except ε β → Prop where
  | ok {a : α} {b : β} : r a b → Agree r (.ok a) (.ok b)
  | error (e : ε) : Agree r (.error e) (.error e)

theorem Agree.bind {ε α β γ : Type} {r : α → β → Prop} {x : Except ε α} {y : Except ε β}
    {f : α → Except ε γ} {g : β → Except ε γ} (h : Agree r x y) (hf : ∀ a b, r a b → f a = g b) :
    (x >>= f) = (y >>= g) := by
  cases h with
  | ok hab => exact hf _ _ hab
  | error e => rfl

theorem Agree.imp {ε α β : Type} {r q : α → β → Prop} {x : Except ε α} {y : Except ε β}
    (h : Agree r x y) (hrq : ∀ a b, r a b → q a b) : Agree q x y := by
  cases h with
  | ok hab => exact .ok (hrq _ _ hab)
  | error e => exact .error e

theorem optionRel_imp {α β : Type} {r q : α → β → Prop} {x : Option α} {y : Option β}
    (h : Option.Rel r x y) (hrq : ∀ a b, r a b → q a b) : Option.Rel q x y := by
  cases h with
  | none => exact .none
  | some hab => exact .some (hrq _ _ hab)

theorem optionRel_cases {α β : Type} {r : α → β → Prop} {x : Option α} {y : Option β}
    (h : Option.Rel r x y) : x = none ∧ y = none ∨ ∃ a b, x = some a ∧ y = some b ∧ r a b := by
  cases h with
  | none => exact .inl ⟨rfl, rfl⟩
  | some hab => exact .inr ⟨_, _, rfl, rfl, hab⟩

/-- Two documents are read alike wherever they stand. -/
def SameReading (origin : Origin) (target : Target) (doc later : Document) : Prop :=
  ∀ path, readValue origin path target doc = readValue origin path target later

theorem SameReading.refl (origin : Origin) (target : Target) (doc : Document) :
    SameReading origin target doc doc := fun _ => rfl

section
variable {origin : Origin} {doc later : Document}

theorem sameReading_of_readPresent {target : Target} (hnull : doc.isNull = later.isNull)
    (h : ∀ path, readPresent origin path doc target = readPresent origin path later target) :
    SameReading origin target doc later := by
  intro path
  rw [readValue, readValue, hnull, h path]

theorem readItems_congr {step : String → Document → Except Misfit (Option Value)}
    {docs others : List Document}
    (h : List.Forall₂ (fun a b => ∀ path, step path a = step path b) docs others) (path : String)
    (position : Nat) : readItems step path position docs = readItems step path position others := by
  induction h generalizing position with
  | nil => rfl
  | cons hstep _ ih => rw [readItems, readItems, hstep, ih]

theorem readEntries_congr {step : String → Document → Except Misfit (Option Value)}
    {docs others : List (String × Document)}
    (h : List.Forall₂ (fun a b => a.1 = b.1 ∧ ∀ path, step path a.2 = step path b.2) docs others)
    (path : String) (entries : Fields Value) :
    readEntries step path entries docs = readEntries step path entries others := by
  induction h generalizing entries with
  | nil => rfl
  | @cons a b _ _ hstep _ ih =>
    obtain ⟨key, a⟩ := a
    obtain ⟨_, b⟩ := b
    obtain ⟨rfl, hstep⟩ := hstep
    rw [readEntries, readEntries, hstep (partPath path key)]
    refine congrArg _ (funext fun found => ?_)
    cases found with
    | none => exact ih entries
    | some value => exact ih _

/-- Two elements hold the same key, or the same fault, and values that are read alike. -/
def SameEntry (keyName valueName : Option String) (value : Target) (doc later : Document) : Prop :=
  ∀ path, Agree (fun a b => a.1 = b.1 ∧ SameReading .xml value a.2 b.2)
    (entryOf path keyName valueName doc) (entryOf path keyName valueName later)

theorem SameEntry.refl (keyName valueName : Option String) (value : Target) (doc : Document) :
    SameEntry keyName valueName value doc doc := by
  intro path
  cases entryOf path keyName valueName doc with
  | ok entry => exact .ok ⟨rfl, .refl _ _ _⟩
  | error e => exact .error e

theorem readElements_congr {keyName valueName : Option String} {value : Target}
    {docs others : List Document}
    (h : List.Forall₂ (SameEntry keyName valueName value) docs others) (path : String)
    (entries : Fields Value) :
    readElements (readValue .xml · value) path keyName valueName entries docs =
      readElements (readValue .xml · value) path keyName valueName entries others := by
  induction h generalizing entries with
  | nil => rfl
  | cons hentry _ ih =>
    rw [readElements, readElements]
    refine (hentry path).bind fun a b hab => ?_
    rw [readEntries_congr (.cons hab .nil)]
    exact congrArg _ (funext fun entries => ih entries)

theorem sameReading_list {shape : String} {item : Target} {itemName : Option String}
    {flattened : Bool} (hnull : doc.isNull = later.isNull)
    (h : ∀ path, Agree (List.Forall₂ (SameReading origin item))
      (itemDocuments origin path itemName flattened doc)
      (itemDocuments origin path itemName flattened later)) :
    SameReading origin (.list shape item itemName flattened) doc later := by
  refine sameReading_of_readPresent hnull fun path => ?_
  rw [readPresent, readPresent]
  exact (h path).bind fun docs others hdocs => congrArg (· >>= _) (readItems_congr hdocs path 0)

theorem sameReading_elements {shape : String} {key value : Target}
    {keyName valueName : Option String} {flattened : Bool} (hnull : doc.isNull = later.isNull)
    (h : ∀ path, Agree (List.Forall₂ (SameEntry keyName valueName value))
      (entryDocuments path "map" "entry" flattened doc)
      (entryDocuments path "map" "entry" flattened later)) :
    SameReading .xml (.map shape key value keyName valueName flattened) doc later := by
  refine sameReading_of_readPresent hnull fun path => ?_
  rw [readPresent.eq_def, readPresent.eq_def]
  exact (h path).bind fun docs others hdocs =>
    congrArg (· >>= _) (readElements_congr hdocs path [])

/-- Elsewhere than in XML, the members of an object are the entries of a map. -/
theorem readPresent_map_of_ne_xml (horigin : origin ≠ .xml) (path : String) (doc : Document)
    (shape : String) (key value : Target) (keyName valueName : Option String) (flattened : Bool) :
    readPresent origin path doc (.map shape key value keyName valueName flattened) =
      match doc with
      | .object entries => do
        return .map (← readEntries (readValue origin · value) path [] entries)
      | _ => misfit path "map" doc := by
  rw [readPresent.eq_def]
  cases origin with
  | xml => exact absurd rfl horigin
  | caller | json => cases doc <;> rfl

theorem sameReading_entries (horigin : origin ≠ .xml) {shape : String} {key value : Target}
    {keyName valueName : Option String} {flattened : Bool}
    {entries others : List (String × Document)}
    (h : List.Forall₂ (fun a b => a.1 = b.1 ∧ SameReading origin value a.2 b.2) entries others) :
    SameReading origin (.map shape key value keyName valueName flattened) (.object entries)
      (.object others) := by
  refine sameReading_of_readPresent rfl fun path => ?_
  rw [readPresent_map_of_ne_xml horigin, readPresent_map_of_ne_xml horigin]
  exact congrArg (· >>= _) (readEntries_congr h path [])

/-- A member is read as its document is; nothing comes of an absent one. -/
theorem readMembers_cons (path : String) (docs : Fields Document) (member : Binding × Target)
    (rest : List (Binding × Target)) :
    readMembers origin path docs (member :: rest) =
      match (memberKey? origin member.1).bind (Fields.get? docs) with
      | none => readMembers origin path docs rest
      | some doc => readValue origin (partPath path member.1.name) member.2 doc >>= fun value =>
        readMembers origin path docs rest >>= fun others =>
          .ok ((value.map fun value => (member.1.name, value)).toList ++ others) := by
  obtain ⟨binding, target⟩ := member
  rw [readMembers]
  cases (memberKey? origin binding).bind (Fields.get? docs) with
  | none => rfl
  | some doc =>
    dsimp only
    rw [readValue]
    split_ifs
    · cases readMembers origin path docs rest <;> rfl
    · rw [map_eq_bind, bind_assoc]
      rfl

/-- Objects are read alike as structures when each member is found alike in both. -/
theorem readMembers_congr {docs others : Fields Document} {members : List (Binding × Target)}
    (h : ∀ member ∈ members, ∀ name, memberKey? origin member.1 = some name →
      Option.Rel (SameReading origin member.2) (Fields.get? docs name) (Fields.get? others name))
    (path : String) : readMembers origin path docs members =
      readMembers origin path others members := by
  induction members with
  | nil => rfl
  | cons member rest ih =>
    obtain ⟨hmember, hrest⟩ := List.forall_mem_cons.1 h
    rw [readMembers_cons, readMembers_cons, ih hrest]
    cases hname : memberKey? origin member.1 with
    | none => rfl
    | some name =>
      rw [Option.bind_some, Option.bind_some]
      obtain ⟨hdoc, hother⟩ | ⟨a, b, hdoc, hother, hsame⟩ := optionRel_cases (hmember name hname)
      · rw [hdoc, hother]
      · rw [hdoc, hother]
        dsimp only
        rw [hsame]

theorem sameReading_structure {heading : Heading} {members : List (Binding × Target)}
    (hnull : doc.isNull = later.isNull)
    (h : ∀ path, Agree (fun docs others => ∀ member ∈ members, ∀ name,
        memberKey? origin member.1 = some name →
          Option.Rel (SameReading origin member.2) (Fields.get? docs name)
            (Fields.get? others name))
      (membersOf origin path doc) (membersOf origin path later)) :
    SameReading origin (.structure heading members) doc later := by
  refine sameReading_of_readPresent hnull fun path => ?_
  rw [readPresent, readPresent]
  exact (h path).bind fun docs others hdocs => congrArg (· >>= _) (readMembers_congr hdocs path)

end
end ServiceBindings
