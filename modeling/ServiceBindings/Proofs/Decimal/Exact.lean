import Mathlib.Algebra.Field.Rat
import Mathlib.Tactic.Common
import ServiceBindings.Decimal.Shortest
import ServiceBindings.Proofs.Text.Digits

/-! Numerals as exact numbers. A numeral is read as the float that is nearest to its exact number.
-/
namespace ServiceBindings.Decimal

def numeral? (chars : List Char) : Option Numeral :=
  let (whole, rest) := spanDigits chars
  let (fraction, rest) := match rest with
    | '.' :: rest => spanDigits rest
    | rest => ([], rest)
  match Text.ofDigits? 10 (whole ++ fraction), exponent? rest with
  | some n, some e => some ⟨n, e - fraction.length⟩
  | _, _ => none

/-- The rational number `digits * 10 ^ exponent`. -/
def Numeral.toRat (d : Numeral) : ℚ :=
  d.digits * 10 ^ d.exponent

/-- The rational number that a numeral with an optional sign writes. -/
def rational? : List Char → Option ℚ
  | '-' :: rest => (numeral? rest).map fun d => -d.toRat
  | '+' :: rest => (numeral? rest).map Numeral.toRat
  | chars => (numeral? chars).map Numeral.toRat

theorem unsigned?_eq_map (chars : List Char) :
    unsigned? chars = (numeral? chars).map fun d => nearestFloat d.digits d.exponent := by
  have hmap (n? : Option Nat) (e? : Option Int) (places : Nat) :
      (match n?, e? with
        | some n, some e => some (nearestFloat n (e - places))
        | _, _ => none) =
      Option.map (fun d : Numeral => nearestFloat d.digits d.exponent) (match n?, e? with
        | some n, some e => some ⟨n, e - places⟩
        | _, _ => none) := by
    cases n? <;> cases e? <;> rfl
  exact hmap _ _ _

variable {whole fraction : List Char}

theorem numeral?_whole (hwhole : ∀ c ∈ whole, c.isDigit = true) {n : Nat}
    (hn : Text.ofDigits? 10 whole = some n) : numeral? whole = some ⟨n, 0⟩ := by
  have hspan : spanDigits whole = (whole, []) := by
    simpa using @spanDigits_append whole [] hwhole rfl
  simp [numeral?, hspan, hn, exponent?]

theorem numeral?_point (hwhole : ∀ c ∈ whole, c.isDigit = true)
    (hfraction : ∀ c ∈ fraction, c.isDigit = true) {n : Nat}
    (hn : Text.ofDigits? 10 (whole ++ fraction) = some n) :
    numeral? (whole ++ '.' :: fraction) = some ⟨n, -fraction.length⟩ := by
  have hspan : spanDigits (whole ++ '.' :: fraction) = (whole, '.' :: fraction) :=
    spanDigits_append hwhole rfl
  have hlater : spanDigits fraction = (fraction, []) := by
    simpa using @spanDigits_append fraction [] hfraction rfl
  simp [numeral?, hspan, hlater, hn, exponent?]

section FirstDigit
variable {c : Char} (hc : c.isDigit = true) (rest : List Char)
include hc

theorem ne_sign_of_isDigit : c ≠ '-' ∧ c ≠ '+' := by
  constructor
  · rintro rfl
    exact absurd hc (by decide)
  · rintro rfl
    exact absurd hc (by decide)

theorem rational?_of_isDigit :
    rational? (c :: rest) = (numeral? (c :: rest)).map Numeral.toRat := by
  unfold rational?
  split
  · next h => exact absurd (List.cons.inj h).1 (ne_sign_of_isDigit hc).1
  · next h => exact absurd (List.cons.inj h).1 (ne_sign_of_isDigit hc).2
  · rfl

theorem toLower_of_isDigit : c.toLower = c := by
  have hle : c.toNat ≤ 57 := (Char.isDigit_iff_toNat.1 hc).2
  refine dif_neg fun hupper => ?_
  have : 65 ≤ c.toNat := UInt32.le_iff_toNat_le.1 hupper.1
  omega

/-- A text that begins with a digit is none of the number words. -/
theorem magnitude?_of_isDigit : magnitude? (c :: rest) = unsigned? (c :: rest) := by
  have hdigit {word : String} (h : String.ofList ((c :: rest).map Char.toLower) = word) :
      word.toList.head?.all Char.isDigit = true := by
    rw [← h, String.toList_ofList, List.map_cons, toLower_of_isDigit hc, List.head?_cons]
    exact hc
  unfold magnitude?
  split
  · next h => exact absurd (hdigit h) (by decide)
  · next h => exact absurd (hdigit h) (by decide)
  · next h => exact absurd (hdigit h) (by decide)
  · rfl

theorem float?_of_isDigit : float? (c :: rest) = unsigned? (c :: rest) := by
  unfold float?
  split
  · next h => exact absurd (List.cons.inj h).1 (ne_sign_of_isDigit hc).1
  · next h => exact absurd (List.cons.inj h).1 (ne_sign_of_isDigit hc).2
  · exact magnitude?_of_isDigit hc rest

end FirstDigit

end ServiceBindings.Decimal
