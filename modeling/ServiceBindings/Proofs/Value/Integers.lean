import Mathlib.Tactic.Common
import ServiceBindings.Proofs.Decimal.Floats
import ServiceBindings.Proofs.Json.Documents
import ServiceBindings.Value.Reading

/-! Numbers read as integers. A number is read as the integer that it is if that integer has 64
bits. The one number read as another integer is the float of `2 ^ 63`, the bound itself. -/
namespace ServiceBindings
open Text (int64Bound)

namespace Number

/-- The rational number that a number is; none for floats without one. -/
def rational? : Number → Option ℚ
  | unsigned n => some n
  | signed i => some i
  | float x => Decimal.floatRational? x

/-- An integer of 64 bits, a signed one if it is negative, or any float. -/
def IsStored : Number → Prop
  | float _ => True
  | n => n.IsInteger

/-- A float that is `2 ^ 63`, by one above every signed integer of 64 bits. -/
def IsBound : Number → Prop
  | float x => Decimal.floatRational? x = some (int64Bound : ℚ)
  | _ => False

/-- A number is taken for the integer that it is, the bound apart. -/
theorem int64?_eq_some_iff {n : Number} (hn : n.IsStored) {i : Int} :
    n.int64? = some i ↔ n.rational? = some (i : ℚ) ∧ -int64Bound ≤ i ∧ i < int64Bound ∨
      n.IsBound ∧ i = int64Bound - 1 := by
  have hbound : int64Bound = 9223372036854775808 := rfl
  cases n with
  | unsigned n =>
    have hcast : (n : ℚ) = i ↔ (n : Int) = i := by norm_cast
    simp only [int64?, rational?, IsBound, false_and, or_false, Option.some_inj, hcast]
    split_ifs with hfits
    · rw [Option.some_inj]
      omega
    · simp only [false_iff]
      omega
  | signed j =>
    obtain ⟨hlow, hneg⟩ : -int64Bound ≤ j ∧ j < 0 := hn
    simp only [int64?, rational?, IsBound, false_and, or_false, Option.some_inj, Int.cast_inj]
    omega
  | float x =>
    simp only [int64?, rational?, IsBound, ← Decimal.bind_integer?_eq_some_iff]
    generalize (Decimal.Binary.ofFloat? x).bind Decimal.Binary.integer? = found
    cases found with
    | none => simp
    | some j =>
      simp only [Option.some_inj]
      split_ifs with hfits
      · rw [Option.some_inj]
        omega
      · simp only [false_iff]
        omega

end Number

/-- A number is read as an integer exactly if it is one of 64 bits, the bound apart, which is read
as the greatest of them. Every other number is of another kind. -/
theorem integer_read_iff {n : Number} (hn : n.IsStored) (origin : Origin) (path : String)
    (format : Option Time.Format) (streaming : Bool) :
    (∀ i : Int,
      readPresent origin path (.number n) (.scalar .integer format streaming) = .ok (.integer i) ↔
        n.rational? = some (i : ℚ) ∧ -int64Bound ≤ i ∧ i < int64Bound ∨
          n.IsBound ∧ i = int64Bound - 1) ∧
    ((∃ i : Int, readPresent origin path (.number n) (.scalar .integer format streaming) =
        .ok (.integer i)) ∨
      readPresent origin path (.number n) (.scalar .integer format streaming) =
        .error (.kind path "integer" "number")) := by
  have hread : readPresent origin path (.number n) (.scalar .integer format streaming) =
      (n.int64?.map fun i => .ok (.integer i)).getD (.error (.kind path "integer" "number")) := by
    rw [readPresent]
    rfl
  rw [hread]
  constructor
  · intro i
    rw [← Number.int64?_eq_some_iff hn]
    cases n.int64? <;> simp
  · cases n.int64? <;> simp

theorem integer_read_at_least :
    (Number.float (-9223372036854775808.0)).IsStored ∧
      readPresent .caller "n" (.number (.float (-9223372036854775808.0)))
        (.scalar .integer none false) = .ok (.integer (-9223372036854775808)) :=
  ⟨trivial, ((integer_read_iff (n := .float _) trivial .caller "n" none false).1 _).2
    (.inl ⟨Decimal.bind_integer?_eq_some_iff.1 (by decide +kernel), by decide, by decide⟩)⟩

/-- The float of the bound is read as the integer before it. -/
theorem bound_read_as_greatest :
    (Number.float 9223372036854775808.0).rational? = some ((9223372036854775808 : Int) : ℚ) ∧
      readPresent .caller "n" (.number (.float 9223372036854775808.0))
        (.scalar .integer none false) = .ok (.integer 9223372036854775807) := by
  refine ⟨Decimal.bind_integer?_eq_some_iff.1 (by decide +kernel), ?_⟩
  have hint : (Number.float 9223372036854775808.0).int64? = some 9223372036854775807 := by
    decide +kernel
  rw [readPresent, readScalar, hint]
  rfl

end ServiceBindings
