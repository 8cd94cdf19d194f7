import Mathlib.Tactic.Common

/-! Parts joined by a separator. What stands in the whole stands in a part or in the separator. -/
namespace ServiceBindings.Text

theorem mem_intercalate {α : Type} {separator : List α} {parts : List (List α)} {a : α}
    (h : a ∈ separator.intercalate parts) : a ∈ separator ∨ ∃ part ∈ parts, a ∈ part := by
  induction parts with
  | nil => cases h
  | cons part rest ih =>
    cases rest with
    | nil => exact .inr ⟨part, List.mem_cons_self, by rwa [List.intercalate_singleton] at h⟩
    | cons next more =>
      rw [List.intercalate_cons_cons, List.mem_append, List.mem_append] at h
      rcases h with (hpart | hseparator) | hmore
      · exact .inr ⟨part, List.mem_cons_self, hpart⟩
      · exact .inl hseparator
      · rcases ih hmore with hseparator | ⟨found, hfound, ha⟩
        · exact .inl hseparator
        · exact .inr ⟨found, List.mem_cons_of_mem _ hfound, ha⟩

/-- The same for texts. -/
theorem mem_toList_intercalate {separator : String} {texts : List String} {c : Char}
    (h : c ∈ (separator.intercalate texts).toList) :
    c ∈ separator.toList ∨ ∃ text ∈ texts, c ∈ text.toList := by
  rw [String.toList_intercalate] at h
  refine (mem_intercalate h).imp_right ?_
  rintro ⟨part, hpart, hc⟩
  obtain ⟨text, htext, rfl⟩ := List.mem_map.1 hpart
  exact ⟨text, htext, hc⟩

end ServiceBindings.Text
