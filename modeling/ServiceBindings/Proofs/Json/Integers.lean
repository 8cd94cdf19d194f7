import Mathlib.Tactic.Common
import ServiceBindings.Json.Numeral
import ServiceBindings.Proofs.Text.Digits

/-! Integers of 64 bits are read back from their numerals. -/
namespace ServiceBindings.Json

/-- What may stand behind a value in a text without white space: nothing, a comma or a closing
bracket. -/
def Closes (rest : List Char) : Prop :=
  ∀ c ∈ rest.head?, c = ',' ∨ c = ']' ∨ c = '\x7d'

theorem closes_nil : Closes [] := by
  simp [Closes]

theorem closes_cons {c : Char} (h : c = ',' ∨ c = ']' ∨ c = '\x7d') (rest : List Char) :
    Closes (c :: rest) := by
  simpa [Closes] using h

namespace Numeral
open Text (digits)

def ofInt (i : Int) : Numeral :=
  ⟨decide (i < 0), digits i.natAbs, none, none⟩

theorem whole?_digits (n : Nat) {rest : List Char} (h : Closes rest) :
    whole? (digits n ++ rest) = some (digits n, rest) := by
  have hrest : rest.head?.all (!·.isDigit) = true := by
    cases rest with
    | nil => rfl
    | cons c rest => rcases h c rfl with rfl | rfl | rfl <;> rfl
  rw [whole?, Decimal.spanDigits_append (fun _ => Text.isDigit_of_mem_digits) hrest]
  split
  · next heq => exact absurd (Prod.mk.inj heq).1 (Text.digits_ne_nil n)
  · next c tail rest' heq =>
    -- only zero begins with a zero, and it has no second digit
    have hdigits : digits n = '0' :: c :: tail := (Prod.mk.inj heq).1
    obtain rfl | hn := Nat.eq_zero_or_pos n
    · rw [Text.digits_of_lt (by decide)] at hdigits
      simp at hdigits
    · exact absurd (by rw [hdigits]; rfl) (Text.head?_digits_ne_zero hn)
  · next heq => rw [(Prod.mk.inj heq).1, (Prod.mk.inj heq).2]

theorem fraction?_of_closes {rest : List Char} (h : Closes rest) :
    fraction? rest = some (none, rest) := by
  cases rest with
  | nil => rfl
  | cons c rest => rcases h c rfl with rfl | rfl | rfl <;> simp [fraction?]

theorem exponent?_of_closes {rest : List Char} (h : Closes rest) :
    exponent? rest = some (none, rest) := by
  cases rest with
  | nil => rfl
  | cons c rest => rcases h c rfl with rfl | rfl | rfl <;> simp [exponent?]

/-- The numeral of an integer is read from its text, as far as it goes. -/
theorem read?_integer (i : Int) {rest : List Char} (h : Closes rest) :
    read? ((Text.integer i).toList ++ rest) = some (ofInt i, rest) := by
  rw [Text.integer_toList]
  split_ifs with hneg
  · simp [read?, whole?_digits _ h, fraction?_of_closes h, exponent?_of_closes h, ofInt, hneg]
  · obtain ⟨c, tail, hc, hd⟩ := Text.exists_digits_eq_cons i.natAbs
    have hsign : c ≠ '-' := by
      rintro rfl
      exact absurd hd (by decide)
    have hwhole := whole?_digits i.natAbs h
    rw [hc, List.cons_append] at hwhole
    simp [read?, hc, hsign, hwhole, fraction?_of_closes h, exponent?_of_closes h, ofInt, hneg]

theorem takeDigits_append {m n : Nat} {chars : List Char} (h : takeDigits m chars = (n, 0))
    (others : List Char) : takeDigits m (chars ++ others) = takeDigits n others := by
  induction chars generalizing m with
  | nil =>
    rw [takeDigits, Prod.mk.injEq] at h
    rw [List.nil_append, h.1]
  | cons c chars ih =>
    rw [takeDigits] at h
    rw [List.cons_append, takeDigits]
    split_ifs at h ⊢ with hfits
    · exact ih h
    · simp at h

/-- Digits are all taken as long as their number fits 64 bits. -/
theorem takeDigits_digits {n : Nat} (h : n < 18446744073709551616) :
    takeDigits 0 (digits n) = (n, 0) := by
  induction n using Nat.strongRecOn with
  | _ n ih =>
    by_cases hn : n < 10
    · simp [Text.digits_of_lt hn, takeDigits, Text.hexDigit_toNat hn, h]
    · have hd := Text.hexDigit_toNat (show n % 10 < 10 by omega)
      have hvalue : n / 10 * 10 + (48 + n % 10 - 48) = n := by omega
      have htake := ih (n / 10) (by omega) (by omega)
      rw [Text.digits_of_le (by omega), takeDigits_append htake, takeDigits, hd, hvalue]
      simp [takeDigits, h]

/-- Every integer of 64 bits, signed or not, is the number of its numeral. -/
theorem number?_ofInt {i : Int} (h : -Text.int64Bound ≤ i ∧ i < 18446744073709551616) :
    number? (ofInt i) = some (Number.ofInt i) := by
  have hbound : Text.int64Bound = 9223372036854775808 := rfl
  have htake : takeDigits 0 (digits i.natAbs) = (i.natAbs, 0) := takeDigits_digits (by omega)
  by_cases hneg : i < 0
  · have hfits : 0 < i.natAbs ∧ (i.natAbs : Int) ≤ Text.int64Bound := by omega
    have habs : -(i.natAbs : Int) = i := by omega
    simp only [number?, ofInt, htake, hneg, decide_true, Option.isNone_none, hfits, and_self,
      implies_true, if_true, habs, Number.ofInt]
  · have habs : i.toNat = i.natAbs := by omega
    simp only [number?, ofInt, htake, hneg, decide_false, Option.isNone_none, and_self,
      Bool.false_eq_true, false_implies, if_true, if_false, Number.ofInt, habs]

end Numeral
end ServiceBindings.Json
