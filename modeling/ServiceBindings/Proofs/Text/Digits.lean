import Mathlib.Algebra.Group.Nat.Defs
import Mathlib.Data.List.TakeDrop
import Mathlib.Tactic.Common
import Mathlib.Tactic.Ring
import ServiceBindings.Decimal.Reading
import ServiceBindings.Proofs.Text.Blank

/-! Numbers are read back from their digits. -/
namespace ServiceBindings.Text

theorem digitValue?_hexDigit {base d : Nat} (hd : d < base) (hb : base ≤ 16) :
    digitValue? base (hexDigit d) = some d := by
  have h : ∀ d < 16, ∀ base ≤ 16, d < base → digitValue? base (hexDigit d) = some d := by decide
  exact h d (by omega) base hb hd

theorem hexDigit_toNat {d : Nat} (h : d < 10) : (hexDigit d).toNat = 48 + d := by
  revert d
  decide

theorem isDigit_hexDigit {d : Nat} (h : d < 10) : (hexDigit d).isDigit = true := by
  revert d
  decide

theorem digits_of_lt {n : Nat} (h : n < 10) : digits n = [hexDigit n] := by
  rw [digits, if_pos h]

theorem digits_of_le {n : Nat} (h : 10 ≤ n) :
    digits n = digits (n / 10) ++ [hexDigit (n % 10)] := by
  rw [digits, if_neg (by omega)]

theorem isDigit_of_mem_digits {n : Nat} {c : Char} (h : c ∈ digits n) : c.isDigit = true := by
  induction n using digits.induct with
  | case1 n hn =>
    rw [digits_of_lt hn, List.mem_singleton] at h
    exact h ▸ isDigit_hexDigit hn
  | case2 n hn ih =>
    rw [digits_of_le (by omega), List.mem_append, List.mem_singleton] at h
    rcases h with h | rfl
    · exact ih h
    · exact isDigit_hexDigit (by omega)

theorem digits_ne_nil (n : Nat) : digits n ≠ [] := by
  by_cases h : n < 10
  · simp [digits_of_lt h]
  · simp [digits_of_le (show 10 ≤ n by omega)]

/-- Only the number zero has a zero as its first digit. -/
theorem head?_digits_ne_zero {n : Nat} (h : 0 < n) : (digits n).head? ≠ some '0' := by
  induction n using digits.induct with
  | case1 n hn =>
    rw [digits_of_lt hn]
    have : ∀ n < 10, 0 < n → hexDigit n ≠ '0' := by decide
    simpa using this n hn h
  | case2 n hn ih =>
    obtain ⟨c, rest, hc⟩ := List.exists_cons_of_ne_nil (digits_ne_nil (n / 10))
    rw [digits_of_le (by omega), hc, List.cons_append, List.head?_cons, ← List.head?_cons, ← hc]
    exact ih (by omega)

/-- The value of digits read after a number has been read. -/
def appendDigits (base : Nat) (n : Nat) (chars : List Char) : Option Nat :=
  chars.foldlM (fun n c => (digitValue? base c).map (n * base + ·)) n

theorem ofDigits?_eq_appendDigits {base : Nat} {chars : List Char} (h : chars ≠ []) :
    ofDigits? base chars = appendDigits base 0 chars := by
  cases chars with
  | nil => exact absurd rfl h
  | cons c rest => rfl

theorem appendDigits_append (base n : Nat) (chars others : List Char) :
    appendDigits base n (chars ++ others) =
      (appendDigits base n chars).bind (appendDigits base · others) := by
  simp [appendDigits, List.foldlM_append]

/-- A number that has been read before is moved to the left of the digits. -/
theorem appendDigits_eq_map (base n : Nat) (chars : List Char) :
    appendDigits base n chars =
      (appendDigits base 0 chars).map (n * base ^ chars.length + ·) := by
  induction chars generalizing n with
  | nil => simp [appendDigits]
  | cons c rest ih =>
    show ((digitValue? base c).map (n * base + ·)).bind (appendDigits base · rest) =
      Option.map _ (((digitValue? base c).map (0 * base + ·)).bind (appendDigits base · rest))
    cases digitValue? base c with
    | none => rfl
    | some d =>
      simp only [Option.map_some, Option.bind_some]
      rw [ih (n * base + d), ih (0 * base + d), Option.map_map]
      congr 1
      funext m
      simp only [Function.comp, List.length_cons, Nat.pow_succ]
      ring

theorem appendDigits_singleton {base d : Nat} (hd : d < base) (hb : base ≤ 16) (n : Nat) :
    appendDigits base n [hexDigit d] = some (n * base + d) := by
  simp [appendDigits, digitValue?_hexDigit hd hb]

theorem appendDigits_digits (n m : Nat) :
    appendDigits 10 m (digits n) = some (m * 10 ^ (digits n).length + n) := by
  induction n using digits.induct with
  | case1 n hn => simp [digits_of_lt hn, appendDigits_singleton hn]
  | case2 n hn ih =>
    rw [digits_of_le (by omega), appendDigits_append, ih, Option.bind_some,
      appendDigits_singleton (by omega) (by omega), List.length_append, List.length_singleton,
      Nat.pow_succ]
    congr 1
    rw [Nat.add_mul, Nat.mul_assoc]
    omega

theorem ofDigits?_digits (n : Nat) : ofDigits? 10 (digits n) = some n := by
  rw [ofDigits?_eq_appendDigits (digits_ne_nil n), appendDigits_digits]
  simp

theorem natural_injective : Function.Injective natural := by
  intro m n h
  have hdigits : digits m = digits n := String.ofList_injective h
  have hread := ofDigits?_digits m
  rw [hdigits, ofDigits?_digits n] at hread
  exact (Option.some.inj hread).symm

theorem appendDigits_zeros (k n : Nat) :
    appendDigits 10 n (List.replicate k '0') = some (n * 10 ^ k) := by
  induction k generalizing n with
  | zero => simp [appendDigits]
  | succ k ih =>
    rw [List.replicate_succ', appendDigits_append, ih, Option.bind_some]
    have := appendDigits_singleton (show 0 < 10 by omega) (by omega) (n * 10 ^ k)
    rw [Nat.pow_succ, ← Nat.mul_assoc]
    exact this

theorem length_digits_le {n width : Nat} (hw : 0 < width) (h : n < 10 ^ width) :
    (digits n).length ≤ width := by
  induction n using digits.induct generalizing width with
  | case1 n hn => simp [digits_of_lt hn, Nat.succ_le_of_lt hw]
  | case2 n hn ih =>
    obtain ⟨k, rfl⟩ : ∃ k, width = k + 1 := ⟨width - 1, by omega⟩
    rw [Nat.pow_succ] at h
    have hk : 0 < k := by
      rcases Nat.eq_zero_or_pos k with rfl | hk
      · omega
      · exact hk
    have := ih hk (by omega)
    rw [digits_of_le (by omega), List.length_append, List.length_singleton]
    omega

theorem length_paddedDigits {width n : Nat} (hw : 0 < width) (h : n < 10 ^ width) :
    (paddedDigits width n).length = width := by
  have := length_digits_le hw h
  rw [paddedDigits, List.length_append, List.length_replicate]
  omega

theorem isDigit_of_mem_paddedDigits {width n : Nat} {c : Char} (h : c ∈ paddedDigits width n) :
    c.isDigit = true := by
  rw [paddedDigits, List.mem_append, List.mem_replicate] at h
  rcases h with ⟨-, rfl⟩ | h
  · rfl
  · exact isDigit_of_mem_digits h

theorem appendDigits_paddedDigits (width n : Nat) :
    appendDigits 10 0 (paddedDigits width n) = some n := by
  rw [paddedDigits, appendDigits_append, appendDigits_zeros, Option.bind_some,
    appendDigits_digits]
  simp

theorem paddedDigits_ne_nil (width n : Nat) : paddedDigits width n ≠ [] := by
  simp [paddedDigits, digits_ne_nil]

theorem ofDigits?_paddedDigits (width n : Nat) :
    ofDigits? 10 (paddedDigits width n) = some n := by
  rw [ofDigits?_eq_appendDigits (paddedDigits_ne_nil _ _), appendDigits_paddedDigits]

/-- The characters of an integer are digits behind an optional minus sign. -/
theorem integer_toList (i : Int) :
    (integer i).toList = if i < 0 then '-' :: digits i.natAbs else digits i.natAbs := by
  rw [integer, String.toList_ofList]

theorem exists_digits_eq_cons (n : Nat) :
    ∃ c rest, digits n = c :: rest ∧ c.isDigit = true := by
  obtain ⟨c, rest, hc⟩ := List.exists_cons_of_ne_nil (digits_ne_nil n)
  exact ⟨c, rest, hc, isDigit_of_mem_digits (n := n) (hc ▸ List.mem_cons_self)⟩

theorem isDigit_of_mem_integer {i : Int} {c : Char} (h : c ∈ (integer i).toList) :
    c.isDigit = true ∨ c = '-' := by
  rw [integer_toList] at h
  split_ifs at h
  · rcases List.mem_cons.1 h with rfl | h
    · exact .inr rfl
    · exact .inl (isDigit_of_mem_digits h)
  · exact .inl (isDigit_of_mem_digits h)

/-- Integers are written without white space. -/
theorem trimmed_integer (i : Int) : trimmed (integer i).toList = (integer i).toList := by
  refine trimmed_of_forall fun c hc => ?_
  rcases isDigit_of_mem_integer hc with hc | rfl
  · exact isBlank_of_isDigit hc
  · decide

theorem ofPlusDigits?_digits (n : Nat) : ofPlusDigits? 10 (digits n) = some n := by
  obtain ⟨c, rest, hc, hd⟩ := exists_digits_eq_cons n
  rw [← ofDigits?_digits n, hc, ofPlusDigits?]
  rintro rest' h
  rw [(List.cons.inj h).1] at hd
  exact absurd hd (by decide)

/-- Every integer of 64 bits is read back from its text. -/
theorem int64?_integer {i : Int} (h : -int64Bound ≤ i ∧ i < int64Bound) :
    int64? (integer i).toList = some i := by
  rw [integer_toList]
  unfold int64?
  split_ifs with hneg
  · have hi : -(i.natAbs : Int) = i := by omega
    simp only [ofDigits?_digits]
    show Option.filter _ (some (-(i.natAbs : Int))) = some i
    rw [hi]
    exact Option.filter_some_pos (by simpa using h)
  · have hi : (i.natAbs : Int) = i := by omega
    split
    · next rest hr =>
      obtain ⟨c, rest', hc, hd⟩ := exists_digits_eq_cons i.natAbs
      rw [hc] at hr
      rw [(List.cons.inj hr).1] at hd
      exact absurd hd (by decide)
    · simp only [ofPlusDigits?_digits]
      show Option.filter _ (some (i.natAbs : Int)) = some i
      rw [hi]
      exact Option.filter_some_pos (by simpa using h)

end ServiceBindings.Text

namespace ServiceBindings.Decimal

/-- Digits are taken up to the first character that is none. -/
theorem spanDigits_append {chars rest : List Char} (h : ∀ c ∈ chars, c.isDigit = true)
    (hrest : rest.head?.all (!·.isDigit) = true) :
    spanDigits (chars ++ rest) = (chars, rest) := by
  rw [spanDigits, List.span_eq_takeWhile_dropWhile]
  cases rest with
  | nil =>
    have htake : (chars ++ []).takeWhile Char.isDigit = chars ++ [] :=
      List.takeWhile_append_of_pos h
    have hdrop : (chars ++ []).dropWhile Char.isDigit = [] := List.dropWhile_append_of_pos h
    simpa using And.intro htake hdrop
  | cons c rest =>
    have hc : c.isDigit = false := by simpa using hrest
    rw [List.takeWhile_append_of_pos h, List.dropWhile_append_of_pos h,
      List.takeWhile_cons_of_neg (by simp [hc]), List.dropWhile_cons_of_neg (by simp [hc]),
      List.append_nil]

end ServiceBindings.Decimal
