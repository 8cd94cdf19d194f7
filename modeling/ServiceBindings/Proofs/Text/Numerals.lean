import Mathlib.Data.Nat.Digits.Defs
import ServiceBindings.Proofs.Steps
import ServiceBindings.Proofs.Text.Digits

/-! Numerals of a base. A text is read as a number exactly if it is one or more digits of the base,
in small letters or capitals, and then it is the number that their values write. -/
namespace ServiceBindings.Text

/-- A digit of a base and its value. -/
structure IsDigitOf (base : Nat) (c : Char) (d : Nat) : Prop where
  lt : d < base
  spelled : c = hexDigit d ∨ c = upperHexDigit d

/-- One or more digits of a base write a number, the highest first. -/
def Writes (base : Nat) (chars : List Char) (n : Nat) : Prop :=
  chars ≠ [] ∧ ∃ values : List Nat,
    List.Forall₂ (IsDigitOf base) chars values ∧ n = Nat.ofDigits base values.reverse

variable {base : Nat} {chars : List Char}

theorem digitValue?_upperHexDigit {d : Nat} (hd : d < base) (hb : base ≤ 16) :
    digitValue? base (upperHexDigit d) = some d := by
  have h : ∀ d < 16, ∀ base ≤ 16, d < base → digitValue? base (upperHexDigit d) = some d := by
    decide
  exact h d (by omega) base hb hd

theorem digitValue?_eq_some_iff (hb : base ≤ 16) {c : Char} {d : Nat} :
    digitValue? base c = some d ↔ IsDigitOf base c d := by
  constructor
  · intro h
    obtain ⟨hvalue, hlt⟩ := Option.filter_eq_some_iff.1 h
    refine ⟨of_decide_eq_true hlt, ?_⟩
    have hle {a b : Char} (h : a ≤ b) : a.toNat ≤ b.toNat := h
    split_ifs at hvalue with hdigit hsmall hcapital
    · have hlow : 48 ≤ c.toNat := hle hdigit.1
      have hhigh : c.toNat ≤ 57 := hle hdigit.2
      obtain rfl := Option.some.inj hvalue
      left
      rw [hexDigit, if_pos (by omega), Nat.add_sub_cancel' hlow, Char.ofNat_toNat]
    · have hlow : 97 ≤ c.toNat := hle hsmall.1
      obtain rfl := Option.some.inj hvalue
      left
      rw [hexDigit, if_neg (by omega), Nat.add_sub_cancel' (by omega), Char.ofNat_toNat]
    · have hlow : 65 ≤ c.toNat := hle hcapital.1
      obtain rfl := Option.some.inj hvalue
      right
      rw [upperHexDigit, if_neg (by omega), Nat.add_sub_cancel' (by omega), Char.ofNat_toNat]
  · rintro ⟨hd, rfl | rfl⟩
    · exact digitValue?_hexDigit hd hb
    · exact digitValue?_upperHexDigit hd hb

/-- Digits are read on behind a number exactly if they have values, which are taken in turn. -/
theorem appendDigits_eq_some_iff (hb : base ≤ 16) {m n : Nat} :
    appendDigits base m chars = some n ↔ ∃ values : List Nat,
      List.Forall₂ (IsDigitOf base) chars values ∧
        n = values.foldl (fun n d => n * base + d) m := by
  induction chars generalizing m with
  | nil => simp [appendDigits, eq_comm]
  | cons c rest ih =>
    have hcons : appendDigits base m (c :: rest) =
        ((digitValue? base c).map (m * base + ·)).bind (appendDigits base · rest) := rfl
    rw [hcons, Option.bind_map, Option.bind_eq_some_iff]
    constructor
    · rintro ⟨d, hd, hrest⟩
      obtain ⟨values, hvalues, hn⟩ := ih.1 hrest
      exact ⟨d :: values, .cons ((digitValue?_eq_some_iff hb).1 hd) hvalues, hn⟩
    · rintro ⟨values, hvalues, hn⟩
      cases hvalues with
      | cons hd hvalues =>
        exact ⟨_, (digitValue?_eq_some_iff hb).2 hd, ih.2 ⟨_, hvalues, hn⟩⟩

theorem ofDigits?_eq_some_iff (hb : base ≤ 16) {n : Nat} :
    ofDigits? base chars = some n ↔ Writes base chars n := by
  have hfold (values : List Nat) : Nat.ofDigits base values.reverse =
      values.foldl (fun n d => n * base + d) 0 := by
    rw [Nat.ofDigits_eq_foldr, List.foldr_reverse]
    simp [Nat.mul_comm, Nat.add_comm]
  by_cases hne : chars = []
  · subst hne
    simp [ofDigits?, Writes]
  · rw [ofDigits?_eq_appendDigits hne, appendDigits_eq_some_iff hb, Writes, and_iff_right hne]
    simp only [hfold]

/-- Characters that are no digits do not stand in numerals. -/
theorem Writes.notMem (hb : base ≤ 16) {n : Nat} (h : Writes base chars n) {c : Char}
    (hc : ∀ d < 16, c ≠ hexDigit d ∧ c ≠ upperHexDigit d) : c ∉ chars := by
  intro hmem
  obtain ⟨-, values, hvalues, -⟩ := h
  obtain ⟨d, -, hd⟩ := exists_of_mem_forall₂_right hvalues.flip hmem
  have hd : IsDigitOf base c d := hd
  obtain ⟨hsmall, hcapital⟩ := hc d (Nat.lt_of_lt_of_le hd.lt hb)
  exact hd.spelled.elim hsmall hcapital

/-- With a plus sign before them, digits write the same number. -/
theorem ofPlusDigits?_eq_some_iff (hb : base ≤ 16) {n : Nat} :
    ofPlusDigits? base chars = some n ↔
      Writes base chars n ∨ ∃ digits, chars = '+' :: digits ∧ Writes base digits n := by
  rw [ofPlusDigits?.eq_def]
  split
  · next rest =>
    have hplus : ¬Writes base ('+' :: rest) n := fun h =>
      h.notMem hb (by decide) List.mem_cons_self
    rw [ofDigits?_eq_some_iff hb]
    simp [hplus]
  · next hplus =>
    rw [ofDigits?_eq_some_iff hb, or_iff_left]
    rintro ⟨digits, rfl, -⟩
    exact hplus digits rfl

end ServiceBindings.Text
