import Mathlib.Data.Rat.Cast.Order
import Mathlib.Tactic.FieldSimp
import Mathlib.Tactic.NormNum
import Mathlib.Tactic.Ring
import ServiceBindings.Decimal.Binary
import ServiceBindings.Proofs.Decimal.Finite

/-! Floats as exact numbers. The parts of a stored float are the fields of its bits, so that the
integer for which it is taken is its rational number. -/
namespace ServiceBindings.Decimal
open Float.Model Float.Model.UnpackedFloat

/-- The rational number that an unpacked float is; none for an infinity and for what is not a
number. -/
def unpackedRational? : UnpackedFloat → Option ℚ
  | .zero _ => some 0
  | .finite s m e _ => some (s.apply m * 2 ^ e)
  | .infinity _ | .notANumber => none

def floatRational? (x : Float) : Option ℚ :=
  unpackedRational? x.toModel.unpack

def Binary.toRat (b : Binary) : ℚ :=
  (if b.negative then -(b.coefficient : ℚ) else b.coefficient) * 2 ^ b.exponent

section Fields
variable (bits : UInt64)

theorem toNat_unpackExponent :
    (@unpackExponent .binary64 bits.toBitVec).toNat = ((bits >>> 52) &&& 0x7FF).toNat := by
  show (bits.toBitVec.extractLsb 62 52).toNat = _
  rw [BitVec.extractLsb_toNat, UInt64.toNat_and, UInt64.toNat_shiftRight]
  exact (Nat.and_two_pow_sub_one_eq_mod _ 11).symm

theorem toNat_unpackMantissa :
    (@unpackMantissa .binary64 bits.toBitVec).toNat =
      (bits &&& 0xFFFFFFFFFFFFF).toNat := by
  show (bits.toBitVec.extractLsb 51 0).toNat = _
  rw [BitVec.extractLsb_toNat, UInt64.toNat_and, Nat.shiftRight_zero]
  exact (Nat.and_two_pow_sub_one_eq_mod _ 52).symm

theorem unpackSign_eq_zero_iff :
    @unpackSign .binary64 bits.toBitVec = 0#1 ↔ (bits >>> 63 == 1) = false := by
  have hbits := bits.toNat_lt
  show bits.toBitVec.extractLsb 63 63 = 0#1 ↔ _
  rw [← BitVec.toNat_inj, BitVec.extractLsb_toNat, beq_eq_false_iff_ne, ne_eq,
    ← UInt64.toNat_inj, UInt64.toNat_shiftRight]
  simp only [Nat.shiftRight_eq_div_pow]
  simp
  omega

theorem apply_sign (n : Nat) :
    (((Sign.ofBitVec (@unpackSign .binary64 bits.toBitVec)).apply n : Int) : ℚ) =
      if bits >>> 63 == 1 then -(n : ℚ) else n := by
  unfold Sign.ofBitVec
  by_cases h : @unpackSign .binary64 bits.toBitVec = 0#1
  · rw [if_pos h, (unpackSign_eq_zero_iff bits).1 h]
    simp [Sign.apply]
  · have hset : (bits >>> 63 == 1) = true := by
      simpa using mt (unpackSign_eq_zero_iff bits).2 h
    rw [if_neg h, hset]
    simp [Sign.apply]

/-- The leading bit of a normal number is not stored. -/
theorem toNat_leading {width : Nat} (fraction : BitVec width) :
    (1#1 ++ fraction).toNat = 2 ^ width + fraction.toNat := by
  rw [BitVec.toNat_append, ← Nat.shiftLeft_add_eq_or_of_lt fraction.isLt]
  simp [Nat.shiftLeft_eq]

/-- The stored parts of a float make up its rational number. -/
theorem unpackedRational?_eq_map :
    unpackedRational? (UnpackedFloat.unpack .binary64 bits.toBitVec) =
      (Binary.ofBits? bits).map Binary.toRat := by
  have hones : (-1#11 : BitVec 11).toNat = 2047 := by decide
  have hbias : Format.binary64.exponentBias = 1023 := rfl
  unfold Binary.ofBits? UnpackedFloat.unpack
  dsimp only
  rw [← toNat_unpackExponent, ← toNat_unpackMantissa, hbias]
  by_cases hnone : @unpackExponent .binary64 bits.toBitVec = -1#11
  · have hall : (@unpackExponent .binary64 bits.toBitVec).toNat = 2047 := by
      rw [hnone]
      exact hones
    rw [if_pos hnone, if_pos hall]
    split_ifs <;> rfl
  have hfinite : (@unpackExponent .binary64 bits.toBitVec).toNat ≠ 2047 := by
    rw [← hones]
    exact mt BitVec.toNat_inj.1 hnone
  rw [if_neg hnone, if_neg hfinite]
  by_cases hzero : @unpackExponent .binary64 bits.toBitVec = 0#11
  · rw [if_pos hzero, hzero, if_pos BitVec.toNat_zero]
    by_cases hnothing : @unpackMantissa .binary64 bits.toBitVec = 0#52
    · rw [dif_pos hnothing, hnothing]
      dsimp only [unpackedRational?, Option.map_some, Binary.toRat]
      simp
    · rw [dif_neg hnothing]
      dsimp only [unpackedRational?, Option.map_some, Binary.toRat]
      rw [apply_sign]
      rfl
  · have hnormal : (@unpackExponent .binary64 bits.toBitVec).toNat ≠ 0 := by
      rw [← (BitVec.toNat_zero : (0#11).toNat = 0)]
      exact mt BitVec.toNat_inj.1 hzero
    rw [if_neg hzero, if_neg hnormal]
    dsimp only [unpackedRational?, Option.map_some, Binary.toRat]
    rw [apply_sign, toNat_leading]
    rfl

end Fields

theorem floatRational?_eq_map (x : Float) :
    floatRational? x = (Binary.ofFloat? x).map Binary.toRat :=
  unpackedRational?_eq_map x.toBits

section Integers
variable {b : Binary} {i : Int}

theorem toRat_of_nonneg (h : 0 ≤ b.exponent) :
    b.toRat = ((if b.negative then -1 else 1 : Int) * (b.coefficient * 2 ^ b.exponent.toNat : Nat) :
      Int) := by
  obtain ⟨k, hk⟩ := Int.eq_ofNat_of_zero_le h
  rw [Binary.toRat, hk]
  split_ifs <;> simp

theorem toRat_mul_of_neg (h : b.exponent < 0) :
    b.toRat * (2 ^ (-b.exponent).toNat : Nat) =
      ((if b.negative then -1 else 1 : Int) * b.coefficient : Int) := by
  obtain ⟨k, hk⟩ := Int.eq_ofNat_of_zero_le (Int.neg_nonneg.2 (Int.le_of_lt h))
  have hexponent : b.exponent = -(k : Int) := by omega
  have hpos : (2 ^ k : ℚ) ≠ 0 := by positivity
  rw [Binary.toRat, hk, hexponent]
  split_ifs <;> simp [hpos]

/-- The integer for which a float is taken is its rational number. -/
theorem integer?_eq_some_iff : b.integer? = some i ↔ b.toRat = i := by
  unfold Binary.integer?
  by_cases h : 0 ≤ b.exponent
  · rw [if_pos h, toRat_of_nonneg h, Int.cast_inj]
    split_ifs <;> simp
  · have hneg : b.exponent < 0 := Int.not_le.1 h
    have hscaled := toRat_mul_of_neg hneg
    have hpos : ((2 ^ (-b.exponent).toNat : Nat) : ℚ) ≠ 0 := by positivity
    have hiff : b.toRat = i ↔ (if b.negative then -1 else 1 : Int) * b.coefficient =
        i * (2 ^ (-b.exponent).toNat : Nat) := by
      rw [← mul_left_inj' hpos, hscaled]
      norm_cast
    have hdenominator : 0 < 2 ^ (-b.exponent).toNat := Nat.two_pow_pos _
    rw [if_neg h, hiff]
    simp only [Nat.pow_eq]
    generalize 2 ^ (-b.exponent).toNat = denominator at hdenominator ⊢
    by_cases hdvd : denominator ∣ b.coefficient
    · obtain ⟨q, hq⟩ := hdvd
      have hne : (denominator : Int) ≠ 0 := by omega
      rw [hq, if_pos (Nat.mul_mod_right _ _), Nat.mul_div_cancel_left _ hdenominator,
        Nat.cast_mul, mul_left_comm, mul_comm i, mul_right_inj' hne]
      split_ifs <;> simp
    · rw [if_neg (mt Nat.dvd_of_mod_eq_zero hdvd)]
      refine iff_of_false (by simp) fun heq => hdvd ?_
      have hmultiple : (denominator : Int) ∣ (if b.negative then -1 else 1) * b.coefficient :=
        ⟨i, heq.trans (mul_comm _ _)⟩
      split_ifs at hmultiple
      · exact Int.natCast_dvd_natCast.1 (by simpa using hmultiple)
      · exact Int.natCast_dvd_natCast.1 (by simpa using hmultiple)

theorem bind_integer?_eq_some_iff {x : Float} :
    (Binary.ofFloat? x).bind Binary.integer? = some i ↔ floatRational? x = some (i : ℚ) := by
  rw [floatRational?_eq_map]
  cases Binary.ofFloat? x with
  | none => simp
  | some b => simp [integer?_eq_some_iff]

end Integers

/-- Every float but what is not a number is equal to itself. -/
theorem beq_self_of_isNaN {x : Float} (h : x.isNaN = false) : (x == x) = true := by
  have hcompare : (x == x) = (x.toModel.unpack.compare x.toModel.unpack == some .eq) := rfl
  have hnumber : x.toModel.unpack.isNaN = false := h
  rw [hcompare]
  cases hunpacked : x.toModel.unpack with
  | notANumber =>
    rw [hunpacked] at hnumber
    cases hnumber
  | zero s => rfl
  | infinity s => cases s <;> rfl
  | finite s m e hm =>
    have hsame : (compare e e).then (compare m m) = .eq := by simp [Ordering.then]
    cases s with
    | positive =>
      show (some ((compare e e).then (compare m m)) == some .eq) = true
      rw [hsame]
      rfl
    | negative =>
      show (some ((compare e e).then (compare m m)).swap == some .eq) = true
      rw [hsame]
      rfl

end ServiceBindings.Decimal
