import Mathlib.Tactic.Common
import ServiceBindings.Text.Blank

/-! Texts without white space at their ends are left as they are. -/
namespace ServiceBindings.Text

theorem dropWhile_of_forall {chars : List Char} (h : ∀ c ∈ chars, isBlank c = false) :
    chars.dropWhile isBlank = chars := by
  cases chars with
  | nil => rfl
  | cons c rest => exact List.dropWhile_cons_of_neg (by simp [h c List.mem_cons_self])

theorem trimmed_of_forall {chars : List Char} (h : ∀ c ∈ chars, isBlank c = false) :
    trimmed chars = chars := by
  have hreverse : ∀ c ∈ chars.reverse, isBlank c = false := fun c hc => h c (List.mem_reverse.1 hc)
  rw [trimmed, dropWhile_of_forall h, dropWhile_of_forall hreverse, List.reverse_reverse]

/-- Nothing is trimmed where neither end is white space. -/
theorem trimmed_of_ends {chars : List Char} (hhead : chars.head?.all (!isBlank ·) = true)
    (hlast : chars.getLast?.all (!isBlank ·) = true) : trimmed chars = chars := by
  have hkeeps {chars : List Char} (h : chars.head?.all (!isBlank ·) = true) :
      chars.dropWhile isBlank = chars := by
    cases chars with
    | nil => rfl
    | cons c rest => exact List.dropWhile_cons_of_neg (by simpa using h)
  rw [trimmed, hkeeps hhead, hkeeps (by rwa [List.head?_reverse]), List.reverse_reverse]

theorem trimmed_cons_of_isBlank {c : Char} (h : isBlank c = true) (chars : List Char) :
    trimmed (c :: chars) = trimmed chars := by
  rw [trimmed, List.dropWhile_cons_of_pos h, trimmed]

theorem isBlank_of_isDigit {c : Char} (h : c.isDigit = true) : isBlank c = false := by
  have hc : 48 ≤ c.toNat ∧ c.toNat ≤ 57 := by
    simpa [Char.isDigit, UInt32.le_iff_toNat_le] using h
  simp only [isBlank, blankRanges, List.any_cons, List.any_nil, Bool.or_eq_false_iff,
    Bool.and_eq_false_iff, decide_eq_false_iff_not]
  refine ⟨?_, ?_, ?_, ?_, ?_, ?_, ?_, ?_, ?_, ?_, trivial⟩ <;> omega

theorem toNat_of_isAlphanum {c : Char} (h : c.isAlphanum = true) :
    ((65 ≤ c.toNat ∧ c.toNat ≤ 90) ∨ 97 ≤ c.toNat ∧ c.toNat ≤ 122) ∨
      48 ≤ c.toNat ∧ c.toNat ≤ 57 := by
  rcases (Bool.or_eq_true _ _).mp h with halpha | hdigit
  · rcases (Bool.or_eq_true _ _).mp halpha with hupper | hlower
    · exact .inl (.inl (of_decide_eq_true hupper))
    · obtain ⟨ha, hz⟩ := (Bool.and_eq_true _ _).mp hlower
      exact .inl (.inr ⟨of_decide_eq_true ha, of_decide_eq_true hz⟩)
  · exact .inr (Char.isDigit_iff_toNat.1 hdigit)

theorem isBlank_of_isAlphanum {c : Char} (h : c.isAlphanum = true) : isBlank c = false := by
  have hc := toNat_of_isAlphanum h
  simp only [isBlank, blankRanges, List.any_cons, List.any_nil, Bool.or_eq_false_iff,
    Bool.and_eq_false_iff, decide_eq_false_iff_not]
  refine ⟨?_, ?_, ?_, ?_, ?_, ?_, ?_, ?_, ?_, ?_, trivial⟩ <;> omega

end ServiceBindings.Text
