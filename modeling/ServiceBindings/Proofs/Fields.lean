import Mathlib.Data.List.Dedup
import Mathlib.Data.List.Forall2
import Mathlib.Tactic.Common
import ServiceBindings.Fields

/-! Named entries whose names are distinct. -/
namespace ServiceBindings.Fields
variable {α : Type}

theorem names_append (fields others : Fields α) :
    names (fields ++ others) = names fields ++ names others := by
  simp [names]

/-- A name that is new goes to the end. -/
theorem set_of_notMem {fields : Fields α} {name : String} (h : name ∉ names fields) (value : α) :
    set name value fields = fields ++ [(name, value)] := by
  induction fields with
  | nil => rfl
  | cons entry rest ih =>
    obtain ⟨key, old⟩ := entry
    simp only [names, List.map_cons, List.mem_cons, not_or] at h
    rw [set, if_neg (Ne.symm h.1), ih h.2, List.cons_append]

theorem foldl_set_of_nodup {fields entries : Fields α} (h : (names (fields ++ entries)).Nodup) :
    entries.foldl (fun fields entry => set entry.1 entry.2 fields) fields = fields ++ entries := by
  induction entries generalizing fields with
  | nil => simp
  | cons entry rest ih =>
    have hnew : entry.1 ∉ names fields := by
      intro hmem
      rw [names_append, List.nodup_append] at h
      exact h.2.2 _ hmem entry.1 (by simp [names]) rfl
    rw [List.append_cons] at h
    rw [List.foldl_cons, set_of_notMem hnew, ih h, ← List.append_cons]

/-- Entries with distinct names are entered as they are. -/
theorem ofList_of_nodup {entries : Fields α} (h : (names entries).Nodup) :
    ofList entries = entries := by
  rw [ofList, foldl_set_of_nodup (by simpa using h), List.nil_append]

/-- Among distinct names, every entry is found under its own. -/
theorem get?_of_mem {fields : Fields α} (h : (names fields).Nodup) {name : String} {value : α}
    (hmem : (name, value) ∈ fields) : get? fields name = some value := by
  induction fields with
  | nil => simp at hmem
  | cons entry rest ih =>
    simp only [names, List.map_cons, List.nodup_cons] at h
    rw [get?_cons]
    rcases List.mem_cons.1 hmem with rfl | hmem
    · rw [if_pos rfl]
    · have hne : name ≠ entry.1 := by
        rintro rfl
        exact h.1 (List.mem_map.2 ⟨_, hmem, rfl⟩)
      rw [if_neg hne, ih h.2 hmem]

theorem mem_of_get? {fields : Fields α} {name : String} {value : α}
    (h : get? fields name = some value) : (name, value) ∈ fields := by
  induction fields with
  | nil => simp at h
  | cons entry rest ih =>
    rw [get?_cons] at h
    split_ifs at h with hname
    · obtain rfl := Option.some.inj h
      exact hname ▸ List.mem_cons_self
    · exact List.mem_cons_of_mem _ (ih h)

theorem mem_of_mem_set {fields : Fields α} {name : String} {value : α} {entry : String × α}
    (h : entry ∈ set name value fields) : entry = (name, value) ∨ entry ∈ fields := by
  induction fields with
  | nil => exact .inl (List.mem_singleton.1 h)
  | cons first rest ih =>
    obtain ⟨key, old⟩ := first
    rw [set] at h
    split_ifs at h with hkey
    · subst hkey
      rcases List.mem_cons.1 h with rfl | h
      · exact .inl rfl
      · exact .inr (List.mem_cons_of_mem _ h)
    · rcases List.mem_cons.1 h with rfl | h
      · exact .inr List.mem_cons_self
      · exact (ih h).imp_right (List.mem_cons_of_mem _)

theorem mem_of_mem_ofList {entries : List (String × α)} {entry : String × α}
    (h : entry ∈ ofList entries) : entry ∈ entries := by
  suffices ∀ fields : Fields α,
      entry ∈ entries.foldl (fun fields entry => set entry.1 entry.2 fields) fields →
      entry ∈ fields ∨ entry ∈ entries by simpa using this [] h
  clear h
  induction entries with
  | nil => exact fun _ h => .inl h
  | cons first rest ih =>
    intro fields h
    rcases ih _ h with h | h
    · rcases mem_of_mem_set h with rfl | h
      · exact .inr List.mem_cons_self
      · exact .inl h
    · exact .inr (List.mem_cons_of_mem _ h)

/-- Every name that is entered stays, and no other comes in. -/
theorem mem_names_ofList {entries : List (String × α)} {name : String} :
    name ∈ names (ofList entries) ↔ name ∈ names entries := by
  suffices ∀ fields : Fields α,
      name ∈ names (entries.foldl (fun fields entry => set entry.1 entry.2 fields) fields) ↔
        name ∈ names fields ∨ name ∈ names entries by
    rw [ofList, this, names, List.map_nil]
    simp
  induction entries with
  | nil => simp [names]
  | cons first rest ih =>
    intro fields
    have hfirst : name ∈ names (set first.1 first.2 fields) ↔
        name ∈ names fields ∨ name = first.1 := by
      rw [names_set]
      split_ifs with h
      · exact ⟨.inl, fun hor => hor.elim id fun heq => heq ▸ h⟩
      · simp
    rw [List.foldl_cons, ih, hfirst, or_assoc]
    simp [names]

/-- Entered one after the other, entries leave one for each of their names. -/
theorem perm_names_ofList (entries : List (String × α)) :
    (names (ofList entries)).Perm (names entries).dedup :=
  (List.perm_ext_iff_of_nodup (nodup_names_ofList entries) (List.nodup_dedup _)).2 fun _ => by
    rw [mem_names_ofList, List.mem_dedup]

theorem get?_append (fields others : Fields α) (name : String) :
    get? (fields ++ others) name = (get? fields name).or (get? others name) := by
  rw [get?, List.lookup_append]
  rfl

theorem get?_eq_none {fields : Fields α} {name : String} :
    get? fields name = none ↔ name ∉ names fields := by
  rw [← isSome_get?, ← Option.not_isSome_iff_eq_none]

/-- What is made of each entry is found where the entry was. -/
theorem get?_mapEntries {β : Type} (f : String → α → β) (fields : Fields α) (name : String) :
    get? (fields.map fun entry => (entry.1, f entry.1 entry.2)) name =
      (get? fields name).map (f name) := by
  induction fields with
  | nil => rfl
  | cons entry rest ih =>
    rw [List.map_cons, get?_cons, get?_cons, ih]
    split_ifs with hname
    · rw [hname]
      rfl
    · rfl

/-- The order of entries with distinct names does not matter to what is found. -/
theorem get?_eq_of_perm {fields others : Fields α} (h : fields.Perm others)
    (hnodup : (names others).Nodup) (name : String) : get? fields name = get? others name := by
  have hnames : (names fields).Perm (names others) := h.map _
  cases hfound : get? others name with
  | none =>
    rw [get?_eq_none] at hfound ⊢
    exact fun hmem => hfound (hnames.subset hmem)
  | some value =>
    exact get?_of_mem (hnames.nodup_iff.2 hnodup) (h.symm.subset (mem_of_get? hfound))

/-- Side by side under the same names, what is found under a name is related as entries are. -/
theorem rel_get?_of_forall₂ {β : Type} {r : String → α → β → Prop} {fields : Fields α}
    {others : Fields β} (h : List.Forall₂ (fun a b => a.1 = b.1 ∧ r a.1 a.2 b.2) fields others)
    (name : String) : Option.Rel (r name) (get? fields name) (get? others name) := by
  induction h with
  | nil => exact .none
  | @cons a b fields others hab _ ih =>
    obtain ⟨key, value⟩ := a
    obtain ⟨key', value'⟩ := b
    obtain ⟨rfl, hvalue⟩ : key = key' ∧ r key value value' := hab
    rw [get?_cons, get?_cons]
    by_cases hname : name = key
    · subst hname
      rw [if_pos rfl, if_pos rfl]
      exact .some hvalue
    · rw [if_neg hname, if_neg hname]
      exact ih

end ServiceBindings.Fields
