/-!
Named entries in the order in which their names first appeared.

Setting an entry changes what is found under its own name and nothing else (`get?_set`), keeps the
order of the names (`names_set`) and keeps them distinct (`nodup_names_set`).
-/
namespace ServiceBindings

/-- Named entries. The operations below keep every name at the place where it first appeared. -/
abbrev Fields (α : Type) := List (String × α)

namespace Fields
variable {α : Type}

/-- The entry called `name`. -/
def get? (fields : Fields α) (name : String) : Option α :=
  fields.lookup name

/-- A present name keeps its place and takes the new value, a new name goes to the end. -/
def set (name : String) (value : α) : Fields α → Fields α
  | [] => [(name, value)]
  | (key, old) :: rest =>
    if key = name then (key, value) :: rest else (key, old) :: set name value rest

/-- All entries but the one called `name`, in their order. -/
def erase (fields : Fields α) (name : String) : Fields α :=
  fields.filter (·.1 ≠ name)

/-- Enters the pairs one after the other: first place, last value. -/
def ofList (entries : List (String × α)) : Fields α :=
  entries.foldl (fun fields entry => set entry.1 entry.2 fields) []

def names (fields : Fields α) : List String :=
  fields.map Prod.fst

@[simp] theorem get?_nil (name : String) : get? ([] : Fields α) name = none := rfl

theorem get?_cons (key name : String) (value : α) (rest : Fields α) :
    get? ((key, value) :: rest) name = if name = key then some value else get? rest name := by
  by_cases h : name = key
  · simp [get?, h]
  · have h' : (name == key) = false := by simpa using h
    simp [get?, List.lookup_cons, h, h']

/-- Exactly the names have entries. -/
theorem isSome_get? (fields : Fields α) (name : String) :
    (get? fields name).isSome ↔ name ∈ names fields := by
  induction fields with
  | nil => simp [names]
  | cons entry rest ih =>
    rw [get?_cons]
    by_cases h : name = entry.1
    · simp [names, h]
    · simpa [names, h] using ih

/-- Setting an entry changes what is found under its name alone. -/
theorem get?_set (fields : Fields α) (key name : String) (value : α) :
    get? (set key value fields) name = if name = key then some value else get? fields name := by
  induction fields with
  | nil => simp [set, get?_cons]
  | cons entry rest ih =>
    obtain ⟨first, old⟩ := entry
    by_cases h : first = key
    · subst h
      by_cases hn : name = first <;> simp [set, get?_cons, hn]
    · by_cases hn : name = first
      · subst hn
        simp [set, get?_cons, h]
      · simp [set, get?_cons, h, hn, ih]

/-- Setting an entry keeps the order of the names; a new one goes to the end. -/
theorem names_set (fields : Fields α) (key : String) (value : α) :
    names (set key value fields) =
      if key ∈ names fields then names fields else names fields ++ [key] := by
  induction fields with
  | nil => simp [set, names]
  | cons entry rest ih =>
    obtain ⟨first, old⟩ := entry
    by_cases h : first = key
    · simp [set, names, h]
    · have h' : key ≠ first := fun e => h e.symm
      simp only [names] at ih
      by_cases hm : key ∈ rest.map Prod.fst <;> simp [set, names, h, h', ih, hm]

/-- Setting an entry keeps the names distinct. -/
theorem nodup_names_set {fields : Fields α} (h : (names fields).Nodup) (key : String) (value : α) :
    (names (set key value fields)).Nodup := by
  rw [names_set]
  split
  · exact h
  · next hn =>
    refine List.nodup_append.2 ⟨h, by simp, ?_⟩
    intro a ha b hb e
    rw [List.mem_singleton.1 hb] at e
    exact hn (e ▸ ha)

/-- Entries that are entered one after the other have distinct names. -/
theorem nodup_names_ofList (entries : List (String × α)) : (names (ofList entries)).Nodup := by
  suffices ∀ fields : Fields α, (names fields).Nodup →
      (names (entries.foldl (fun fields entry => set entry.1 entry.2 fields) fields)).Nodup from
    this [] (by simp [names])
  induction entries with
  | nil => exact fun _ h => h
  | cons entry rest ih => exact fun _ h => ih _ (nodup_names_set h entry.1 entry.2)

end Fields

end ServiceBindings
