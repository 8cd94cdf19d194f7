import Mathlib.Data.List.Forall2
import Mathlib.Tactic.Common

/-! Steps that can fail, one after the other and over the items of a list. -/
namespace ServiceBindings
variable {α β ε : Type}

@[simp] theorem ok_bind (a : α) (f : α → Except ε β) : (Except.ok a >>= f) = f a := rfl

@[simp] theorem error_bind (e : ε) (f : α → Except ε β) :
    (Except.error e >>= f) = .error e := rfl

theorem bind_eq_ok {x : Except ε α} {f : α → Except ε β} {b : β} :
    (x >>= f) = .ok b ↔ ∃ a, x = .ok a ∧ f a = .ok b := by
  cases x <;> simp

theorem bind_eq_error {x : Except ε α} {f : α → Except ε β} {e : ε} :
    (x >>= f) = .error e ↔ x = .error e ∨ ∃ a, x = .ok a ∧ f a = .error e := by
  cases x <;> simp

theorem map_eq_bind (x : Except ε α) (f : α → β) : x.map f = x >>= fun a => .ok (f a) := by
  cases x <;> rfl

theorem map_eq_ok {x : Except ε α} {f : α → β} {b : β} :
    x.map f = .ok b ↔ ∃ a, x = .ok a ∧ f a = b := by
  cases x <;> simp [Except.map]

theorem map_eq_error {x : Except ε α} {f : α → β} {e : ε} :
    x.map f = .error e ↔ x = .error e := by
  cases x <;> simp [Except.map]

theorem mapError_eq_ok {ε' : Type} {x : Except ε α} {f : ε → ε'} {a : α} :
    x.mapError f = .ok a ↔ x = .ok a := by
  cases x <;> simp [Except.mapError]

theorem forall₂_of_mapM_eq_some {f : α → Option β} {items : List α} {results : List β}
    (h : items.mapM f = some results) :
    List.Forall₂ (fun a b => f a = some b) items results := by
  induction items generalizing results with
  | nil =>
    obtain rfl : [] = results := Option.some.inj h
    exact .nil
  | cons item rest ih =>
    rw [List.mapM_cons, Option.bind_eq_bind, Option.bind_eq_some_iff] at h
    obtain ⟨first, hfirst, h⟩ := h
    rw [Option.bind_eq_bind, Option.bind_eq_some_iff] at h
    obtain ⟨others, hothers, h⟩ := h
    obtain rfl : first :: others = results := Option.some.inj h
    exact .cons hfirst (ih hothers)

theorem forall₂_of_mapM_eq_ok {f : α → Except ε β} {items : List α} {results : List β}
    (h : items.mapM f = .ok results) :
    List.Forall₂ (fun a b => f a = .ok b) items results := by
  induction items generalizing results with
  | nil =>
    obtain rfl : [] = results := Except.ok.inj h
    exact .nil
  | cons item rest ih =>
    rw [List.mapM_cons, bind_eq_ok] at h
    obtain ⟨first, hfirst, h⟩ := h
    obtain ⟨others, hothers, h⟩ := bind_eq_ok.1 h
    obtain rfl : first :: others = results := Except.ok.inj h
    exact .cons hfirst (ih hothers)

theorem exists_of_mem_forall₂_right {r : α → β → Prop} {items : List α} {results : List β}
    (h : List.Forall₂ r items results) {b : β} (hb : b ∈ results) : ∃ a ∈ items, r a b := by
  induction h with
  | nil => simp at hb
  | cons hr _ ih =>
    rcases List.mem_cons.1 hb with rfl | hb
    · exact ⟨_, List.mem_cons_self, hr⟩
    · obtain ⟨a, ha, hr⟩ := ih hb
      exact ⟨a, List.mem_cons_of_mem _ ha, hr⟩

theorem map_eq_map_of_forall₂ {γ : Type} {r : α → β → Prop} {f : α → γ} {g : β → γ}
    {items : List α} {results : List β} (h : List.Forall₂ r items results)
    (hr : ∀ a b, r a b → g b = f a) : results.map g = items.map f := by
  induction h with
  | nil => rfl
  | cons hab _ ih => rw [List.map_cons, List.map_cons, hr _ _ hab, ih]

theorem mapM_eq_mapM_of_forall₂ {r : α → α → Prop} {f : α → Except ε β} {items others : List α}
    (h : List.Forall₂ r items others) (hr : ∀ a b, r a b → f a = f b) :
    items.mapM f = others.mapM f := by
  induction h with
  | nil => rfl
  | cons hab _ ih => rw [List.mapM_cons, List.mapM_cons, hr _ _ hab, ih]

theorem forM_eq_forM_of_forall₂ {r : α → α → Prop} {f : α → Except ε PUnit}
    {items others : List α} (h : List.Forall₂ r items others) (hr : ∀ a b, r a b → f a = f b) :
    items.forM f = others.forM f := by
  induction h with
  | nil => rfl
  | cons hab _ ih => rw [List.forM, List.forM, hr _ _ hab, ih]

/-- What exists for each item exists for all of them side by side. -/
theorem exists_forall₂ {r : α → β → Prop} {items : List α} (h : ∀ a ∈ items, ∃ b, r a b) :
    ∃ results, List.Forall₂ r items results := by
  induction items with
  | nil => exact ⟨[], .nil⟩
  | cons item rest ih =>
    obtain ⟨b, hb⟩ := h item List.mem_cons_self
    obtain ⟨results, hresults⟩ := ih fun a hmem => h a (List.mem_cons_of_mem _ hmem)
    exact ⟨b :: results, .cons hb hresults⟩

/-- What exists between each item and its result exists between all of them side by side. -/
theorem exists_between_forall₂ {γ : Type} {r : α → β → Prop} {p : γ → β → Prop} {q : γ → α → Prop}
    {items : List α} {results : List β} (h : List.Forall₂ r items results)
    (hr : ∀ a b, r a b → ∃ c, p c b ∧ q c a) :
    ∃ found, List.Forall₂ p found results ∧ List.Forall₂ q found items := by
  induction h with
  | nil => exact ⟨[], .nil, .nil⟩
  | cons hab _ ih =>
    obtain ⟨c, hp, hq⟩ := hr _ _ hab
    obtain ⟨found, hresults, hitems⟩ := ih
    exact ⟨c :: found, .cons hp hresults, .cons hq hitems⟩

/-- What holds of each item and those before it still holds with one more item at the end. -/
theorem forall_split_concat {p : List α → α → Prop} {items : List α} {item : α}
    (h : ∀ before x later, items = before ++ x :: later → p before x) (hitem : p items item) :
    ∀ before x later, items ++ [item] = before ++ x :: later → p before x := by
  intro before x later heq
  rcases List.eq_nil_or_concat later with rfl | ⟨others, last, rfl⟩
  · obtain ⟨rfl, hx⟩ := List.append_inj' heq rfl
    obtain rfl := List.singleton_inj.1 hx
    exact hitem
  · rw [List.concat_eq_append, ← List.cons_append, ← List.append_assoc] at heq
    exact h before x others (List.append_inj' heq rfl).1

end ServiceBindings
