import Mathlib.Tactic.FieldSimp
import Mathlib.Tactic.Linarith
import Mathlib.Tactic.NormNum
import ServiceBindings.Proofs.Decimal.Exact
import ServiceBindings.Proofs.Decimal.Finite
import ServiceBindings.Proofs.Time.DateTime

/-! The numeral that is written for an instant, as an exact number and as it is read. Its fraction
counts away from zero like that of every numeral, while the fraction of an instant counts forward.
-/
namespace ServiceBindings

/-- The rational number of seconds from the start of 1970 to an instant. -/
def Instant.toRat (t : Instant) : ℚ :=
  t.seconds + t.nanos / 10 ^ 9

namespace Time
open Text (digits)
open Decimal (Numeral numeral? rational?)

theorem lt_of_mul_pow_eq {q places k nanos : Nat} (hscaled : q * 10 ^ k = nanos)
    (hplaces : places + k = 9) (h : nanos < 10 ^ 9) : q < 10 ^ places := by
  rw [← hplaces, pow_add, ← hscaled] at h
  exact Nat.lt_of_mul_lt_mul_right h

/-- Whole seconds and a fraction make up one numeral, of at most nine places behind the point. -/
theorem exists_numeral (seconds : Nat) {nanos : Nat} (h : nanos < 10 ^ 9) :
    ∃ d, numeral? (digits seconds ++ fractionChars nanos) = some d ∧
      d.toRat = seconds + nanos / 10 ^ 9 ∧ d.digits < (seconds + 1) * 10 ^ 9 ∧
      -9 ≤ d.exponent ∧ d.exponent ≤ 0 := by
  by_cases hnanos : nanos = 0
  · refine ⟨⟨seconds, 0⟩, ?_, ?_, ?_, ?_, Int.le_refl 0⟩
    · rw [fractionChars, if_pos hnanos, List.append_nil]
      exact Decimal.numeral?_whole (fun _ => Text.isDigit_of_mem_digits) (Text.ofDigits?_digits _)
    · simp [Numeral.toRat, hnanos]
    all_goals
      dsimp only
      omega
  · obtain ⟨fraction, k, q, hchars, hdigits, hlength, hq, hscaled⟩ := exists_fractionChars hnanos h
    have hne : fraction ≠ [] := by
      rintro rfl
      simp [Text.ofDigits?] at hq
    have hvalue : Text.ofDigits? 10 (digits seconds ++ fraction) =
        some (seconds * 10 ^ fraction.length + q) := by
      rw [Text.ofDigits?_eq_appendDigits (by simp [hne]), Text.appendDigits_append,
        ← Text.ofDigits?_eq_appendDigits (Text.digits_ne_nil _), Text.ofDigits?_digits,
        Option.bind_some, Text.appendDigits_eq_map, ← Text.ofDigits?_eq_appendDigits hne, hq,
        Option.map_some]
    refine ⟨⟨seconds * 10 ^ fraction.length + q, -fraction.length⟩, ?_, ?_, ?_, ?_, ?_⟩
    · rw [hchars]
      exact Decimal.numeral?_point (fun _ => Text.isDigit_of_mem_digits) hdigits hvalue
    · have hpow : (10 : ℚ) ^ 9 = 10 ^ fraction.length * 10 ^ k := by rw [← pow_add, hlength]
      simp only [Numeral.toRat, zpow_neg, zpow_natCast]
      rw [← hscaled, hpow]
      push_cast
      field_simp
    · have hsmall : q < 10 ^ fraction.length := lt_of_mul_pow_eq hscaled hlength h
      calc seconds * 10 ^ fraction.length + q < (seconds + 1) * 10 ^ fraction.length := by
            rw [Nat.add_mul, Nat.one_mul]
            omega
        _ ≤ (seconds + 1) * 10 ^ 9 :=
            Nat.mul_le_mul_left _ (Nat.pow_le_pow_right (by decide) (by omega))
    all_goals
      dsimp only
      omega

/-- The characters of an instant's epoch seconds: a sign in front of a text that begins with a
digit. -/
theorem epochSeconds_chars (t : Instant) :
    ∃ c rest, c.isDigit = true ∧ digits t.seconds.natAbs ++ fractionChars t.nanos = c :: rest ∧
      chars? t .epochSeconds = some (if t.seconds < 0 then '-' :: c :: rest else c :: rest) := by
  obtain ⟨c, rest, hrest, hc⟩ := Text.exists_digits_eq_cons t.seconds.natAbs
  refine ⟨c, rest ++ fractionChars t.nanos, hc, by rw [hrest, List.cons_append], ?_⟩
  rw [chars?, List.append_assoc, hrest]
  split_ifs <;> rfl

/-- The exact number of the text that is written for an instant. -/
theorem rational?_epochSeconds (t : Instant) :
    ∃ chars, chars? t .epochSeconds = some chars ∧ rational? chars =
      some (if t.seconds < 0 then (t.seconds - t.nanos / 10 ^ 9 : ℚ) else t.toRat) := by
  obtain ⟨d, hd, hvalue, -⟩ := exists_numeral t.seconds.natAbs t.nanos_lt
  obtain ⟨c, rest, hc, hrest, hchars⟩ := epochSeconds_chars t
  rw [hrest] at hd
  refine ⟨_, hchars, ?_⟩
  split_ifs with hneg
  · have hcast : (t.seconds.natAbs : ℚ) = -t.seconds := by
      rw [← Int.cast_natCast, Int.ofNat_natAbs_of_nonpos (Int.le_of_lt hneg), Int.cast_neg]
    rw [rational?, hd, Option.map_some, hvalue, hcast]
    congr 1
    ring
  · have hcast : (t.seconds.natAbs : ℚ) = t.seconds := by
      rw [← Int.cast_natCast, Int.natAbs_of_nonneg (Int.not_lt.1 hneg)]
    rw [Decimal.rational?_of_isDigit hc, hd, Option.map_some, hvalue, hcast, Instant.toRat]

/-- The text of epoch seconds is exact from 1970 on and for whole seconds. For every other instant
it is as far below the whole second as the instant is above it. -/
theorem epochSeconds_exact_iff (t : Instant) :
    ∃ s q, format? t .epochSeconds = some s ∧ rational? s.toList = some q ∧
      q = (if t.seconds < 0 then (t.seconds - t.nanos / 10 ^ 9 : ℚ) else t.toRat) ∧
      (q = t.toRat ↔ 0 ≤ t.seconds ∨ t.nanos = 0) := by
  obtain ⟨chars, hchars, hvalue⟩ := rational?_epochSeconds t
  refine ⟨String.ofList chars, _, by rw [format?, hchars]; rfl, by simpa using hvalue, rfl, ?_⟩
  split_ifs with hneg
  · have hsame : (t.seconds - t.nanos / 10 ^ 9 : ℚ) = t.toRat ↔ t.nanos = 0 := by
      rw [← Nat.cast_eq_zero (R := ℚ), Instant.toRat]
      constructor
      · intro h
        linarith
      · intro h
        rw [h]
        ring
    rw [hsame, or_iff_right (Int.not_le.2 hneg)]
  · exact iff_of_true rfl (.inl (Int.not_lt.1 hneg))

/-- Half a second before 1970 is written as one second and a half before it. -/
theorem half_second_before_1970 :
    (⟨-1, 500000000, by decide⟩ : Instant).toRat = -1 / 2 ∧
      format? ⟨-1, 500000000, by decide⟩ .epochSeconds = some "-1.5" ∧
      rational? "-1.5".toList = some (-3 / 2) := by
  have hnumeral : numeral? ['1', '.', '5'] = some ⟨15, -1⟩ := by decide +kernel
  refine ⟨by norm_num [Instant.toRat], by decide +kernel, ?_⟩
  rw [show "-1.5".toList = ['-', '1', '.', '5'] from rfl, rational?, hnumeral, Option.map_some]
  norm_num [Numeral.toRat]

/-- Epoch seconds of 64 bits are read as a finite number of seconds. -/
theorem exists_epochSeconds? {t : Instant} (h : t.seconds.natAbs < 2 ^ 64) {chars : List Char}
    (hchars : chars? t .epochSeconds = some chars) : ∃ u, epochSeconds? chars = some u := by
  obtain ⟨d, hd, -, hlarge, hlow, hhigh⟩ := exists_numeral t.seconds.natAbs t.nanos_lt
  obtain ⟨c, rest, hc, hrest, hchars'⟩ := epochSeconds_chars t
  obtain rfl := Option.some.inj (hchars'.symm.trans hchars)
  obtain ⟨hfinite, hneg⟩ := @Decimal.isFinite_nearestFloat d.digits (by omega) d.exponent
    ⟨by omega, by omega⟩
  rw [hrest] at hd
  have hread : Decimal.unsigned? (c :: rest) = some (Decimal.nearestFloat d.digits d.exponent) := by
    rw [Decimal.unsigned?_eq_map, hd, Option.map_some]
  split_ifs
  · rw [epochSeconds?, Decimal.float?, Decimal.magnitude?_of_isDigit hc, hread, Option.map_some,
      Option.bind_some, if_pos hneg]
    exact ⟨_, rfl⟩
  · rw [epochSeconds?, Decimal.float?_of_isDigit hc, hread, Option.bind_some, if_pos hfinite]
    exact ⟨_, rfl⟩

end Time
end ServiceBindings
