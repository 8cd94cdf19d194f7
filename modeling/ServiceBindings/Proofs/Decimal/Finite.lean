import Mathlib.Algebra.Order.Ring.Nat
import Mathlib.Tactic.Common
import ServiceBindings.Proofs.Text.Digits

/-! Numerals whose size and whose point are moderate are read as finite floats. Rounding raises an
exponent by at most the bits that it drops, so a bound on the exponent is carried through every step
of the arithmetic; the exact results are not needed. -/
namespace ServiceBindings.Decimal
open Float.Model Float.Model.UnpackedFloat

/-- Zero, or a finite value whose exponent is at most `bound`. -/
def ExponentAtMost (bound : Int) : UnpackedFloat → Prop
  | .zero _ => True
  | .finite _ _ e _ => e ≤ bound
  | _ => False

theorem ExponentAtMost.mono {low high : Int} {u : UnpackedFloat} (h : ExponentAtMost low u)
    (hle : low ≤ high) : ExponentAtMost high u := by
  cases u with
  | zero s => trivial
  | finite s m e hm => exact Int.le_trans h hle
  | infinity s => exact h
  | notANumber => exact h

theorem ExponentAtMost.isFinite {bound : Int} {u : UnpackedFloat} (h : ExponentAtMost bound u) :
    u.isFinite = true := by
  cases u with
  | zero s => rfl
  | finite s m e hm => rfl
  | infinity s => exact h.elim
  | notANumber => exact h.elim

theorem ExponentAtMost.neg {bound : Int} {u : UnpackedFloat} (h : ExponentAtMost bound u) :
    ExponentAtMost bound u.neg := by
  cases u with
  | zero s => trivial
  | finite s m e hm => exact h
  | infinity s => exact h
  | notANumber => exact h

section Rounding

theorem log2_le_of_lt {m width : Nat} (h : m < 2 ^ width) : m.log2 ≤ width := by
  by_cases hm : m = 0
  · simp [hm]
  · exact Nat.le_of_lt ((Nat.log2_lt hm).2 h)

theorem shiftLeft_lt {m width shift most : Nat} (h : m < 2 ^ width) (hshift : shift ≤ most) :
    m <<< shift < 2 ^ (width + most) := by
  rw [Nat.shiftLeft_eq, Nat.pow_add]
  calc m * 2 ^ shift < 2 ^ width * 2 ^ shift := Nat.mul_lt_mul_of_pos_right h (Nat.two_pow_pos _)
    _ ≤ 2 ^ width * 2 ^ most := Nat.mul_le_mul_left _ (Nat.pow_le_pow_right (by decide) hshift)

theorem mantissa_shiftRight_le (em : ExtendedMantissa) (n : Nat) :
    (em >>> n).mantissa ≤ em.mantissa := by
  induction n with
  | zero => exact Nat.le_refl _
  | succ n ih => exact Nat.le_trans (Nat.div_le_self _ 2) ih

theorem mantissa_ofMantissaAndAccuracy (m : Nat) (accuracy : Accuracy) :
    (ExtendedMantissa.ofMantissaAndAccuracy m accuracy).mantissa = m := by
  cases accuracy with
  | exact => rfl
  | inexact order => cases order <;> rfl

theorem roundedMantissa_le (em : ExtendedMantissa) : em.roundedMantissa ≤ em.mantissa + 1 := by
  unfold ExtendedMantissa.roundedMantissa
  generalize em.accuracy = accuracy
  cases accuracy with
  | exact => exact Nat.le_succ _
  | inexact order =>
    cases order <;> dsimp only [Accuracy.roundToNearestEven] <;> omega

theorem mantissaBits_binary64 : Format.binary64.mantissaBits = 53 := rfl

theorem minExponent_binary64 : Format.binary64.minExponent = -1074 := rfl

/-- Bringing a mantissa to the width of the format drops bits of it and raises the exponent by their
number. -/
theorem shiftToTargetExponent_bounds {m width : Nat} (h : m < 2 ^ width) (e : Int)
    (accuracy : Accuracy) :
    (shiftToTargetExponent .binary64 m e accuracy).1.mantissa ≤ m ∧
      (shiftToTargetExponent .binary64 m e accuracy).2 ≤ max e (-1074) + width := by
  constructor
  · refine Nat.le_trans (mantissa_shiftRight_le _ _) ?_
    exact Nat.le_of_eq (mantissa_ofMantissaAndAccuracy m accuracy)
  · have hlog := log2_le_of_lt h
    simp only [shiftToTargetExponent, shiftToExponent, Format.targetExponent, totalExponent,
      mantissaBits_binary64, minExponent_binary64]
    omega

/-- A mantissa is brought to the width twice, since rounding up may add a bit. -/
theorem exponentAtMost_roundWithAccuracy {m width : Nat} (h : m < 2 ^ width) (s : Sign) (e : Int)
    (accuracy : Accuracy) :
    ExponentAtMost (max e (-1074) + 2 * width + 1)
      (roundWithAccuracy .binary64 s m e accuracy) := by
  obtain ⟨hmantissa, hexponent⟩ := shiftToTargetExponent_bounds h e accuracy
  unfold roundWithAccuracy
  generalize shiftToTargetExponent .binary64 m e accuracy = first at *
  have hrounded : first.1.roundedMantissa < 2 ^ (width + 1) := by
    have := roundedMantissa_le first.1
    omega
  obtain ⟨-, hsecond⟩ := shiftToTargetExponent_bounds hrounded first.2 .exact
  dsimp only
  generalize shiftToTargetExponent .binary64 first.1.roundedMantissa first.2 .exact = second at *
  by_cases hzero : second.1.mantissa = 0
  · rw [dif_pos hzero]
    trivial
  · rw [dif_neg hzero]
    show _ ≤ _
    omega

theorem exponentAtMost_round {m width : Nat} (h : m < 2 ^ width) (s : Sign) (e : Int) :
    ExponentAtMost (max e (-1074) + 2 * width + 107) (UnpackedFloat.round .binary64 s m e) := by
  have hwide : (decreaseExponent m e
      (Format.binary64.targetExponent (totalExponent m e))).1 < 2 ^ (width + 53) := by
    refine shiftLeft_lt h ?_
    simp only [Format.targetExponent, totalExponent, mantissaBits_binary64, minExponent_binary64]
    omega
  have hlow : (decreaseExponent m e
      (Format.binary64.targetExponent (totalExponent m e))).2 ≤ e := by
    simp only [decreaseExponent]
    omega
  refine (exponentAtMost_roundWithAccuracy hwide s _ .exact).mono ?_
  omega

end Rounding

section Arithmetic
variable {m₁ m₂ width₁ width₂ : Nat}

theorem exponentAtMost_mul (h₁ : m₁ < 2 ^ width₁) (h₂ : m₂ < 2 ^ width₂) (s₁ s₂ : Sign)
    (e₁ e₂ : Int) (hm₁ : 0 < m₁) (hm₂ : 0 < m₂) :
    ExponentAtMost (max (e₁ + e₂) (-1074) + 2 * (width₁ + width₂) + 1)
      (mul .binary64 (.finite s₁ m₁ e₁ hm₁) (.finite s₂ m₂ e₂ hm₂)) := by
  have hwide : m₁ * m₂ < 2 ^ (width₁ + width₂) := by
    rw [Nat.pow_add]
    exact Nat.mul_lt_mul'' h₁ h₂
  refine (exponentAtMost_roundWithAccuracy hwide _ _ .exact).mono ?_
  omega

/-- A quotient is given at most the bits of the format and those of the divisor beyond the bits of
the dividend. -/
theorem exponentAtMost_div (h₁ : m₁ < 2 ^ width₁) (h₂ : m₂ < 2 ^ width₂) (s₁ s₂ : Sign)
    (e₁ e₂ : Int) (hm₁ : 0 < m₁) (hm₂ : 0 < m₂) :
    ExponentAtMost (max (e₁ - e₂) (-1074) + 2 * (width₁ + width₂) + 107)
      (div .binary64 (.finite s₁ m₁ e₁ hm₁) (.finite s₂ m₂ e₂ hm₂)) := by
  have hlog := log2_le_of_lt h₂
  have hwide : (divCore .binary64 m₁ e₁ m₂ e₂).1 < 2 ^ (width₁ + (53 + width₂)) := by
    refine Nat.lt_of_le_of_lt (Nat.div_le_self _ _) (shiftLeft_lt h₁ ?_)
    simp only [Format.targetExponent, totalExponent, mantissaBits_binary64, minExponent_binary64]
    omega
  have hlow : (divCore .binary64 m₁ e₁ m₂ e₂).2.1 ≤ e₁ - e₂ := Int.min_le_left _ _
  refine (exponentAtMost_roundWithAccuracy hwide _ _ _).mono ?_
  omega

end Arithmetic

section Packing

/-- Zero, or a finite value whose mantissa has the width of the format and whose exponent is at most
`bound`. -/
def IsStored (bound : Int) : UnpackedFloat → Prop
  | .zero _ => True
  | .finite _ m e _ => m < 2 ^ 53 ∧ e ≤ bound
  | _ => False

theorem unpack_cases (bits : BitVec Format.binary64.numBits) :
    (unpackExponent bits = -1#_ ∧ (UnpackedFloat.unpack .binary64 bits).isFinite = false) ∨
      IsStored (max (-1074) ((unpackExponent bits).toNat - 1075))
        (UnpackedFloat.unpack .binary64 bits) := by
  have hbias : Format.binary64.exponentBias = 1023 := rfl
  have hmantissa : (unpackMantissa bits).toNat < 2 ^ 52 := (unpackMantissa bits).isLt
  unfold UnpackedFloat.unpack
  dsimp only
  by_cases hnone : unpackExponent bits = -1#11
  · rw [if_pos hnone]
    refine .inl ⟨hnone, ?_⟩
    split_ifs <;> rfl
  · rw [if_neg hnone]
    refine .inr ?_
    by_cases hzero : unpackExponent bits = 0#11
    · rw [if_pos hzero]
      by_cases hnothing : unpackMantissa bits = 0#52
      · rw [dif_pos hnothing]
        trivial
      · rw [dif_neg hnothing]
        refine ⟨by omega, ?_⟩
        rw [hzero, hbias]
        decide
    · rw [if_neg hzero]
      refine ⟨BitVec.isLt _, ?_⟩
      rw [hbias]
      omega

theorem exponentAtMost_unpack {bound : Int} (hlow : -1074 ≤ bound)
    {bits : BitVec Format.binary64.numBits} {e : BitVec Format.binary64.exponentBits}
    (he : unpackExponent bits = e) (hnone : e ≠ -1#_) (hbound : (e.toNat : Int) - 1075 ≤ bound) :
    ExponentAtMost bound (UnpackedFloat.unpack .binary64 bits) := by
  subst he
  rcases unpack_cases bits with ⟨hall, -⟩ | hstored
  · exact absurd hall hnone
  · generalize UnpackedFloat.unpack .binary64 bits = u at hstored
    cases u with
    | zero s => trivial
    | finite s m e hm => exact Int.le_trans hstored.2 (Int.max_le.2 ⟨hlow, hbound⟩)
    | infinity s => exact hstored
    | notANumber => exact hstored

theorem mantissa_lt_of_unpack {bits : BitVec Format.binary64.numBits} {s : Sign} {m : Nat}
    {e : Int} {hm : 0 < m} (h : UnpackedFloat.unpack .binary64 bits = .finite s m e hm) :
    m < 2 ^ 53 := by
  rcases unpack_cases bits with ⟨-, hnone⟩ | hstored
  · rw [h] at hnone
    cases hnone
  · rw [h] at hstored
    exact hstored.1

/-- Packing keeps a value finite whose exponent the format has. -/
theorem exponentAtMost_unpack_pack {bound : Int} (hlow : -1074 ≤ bound) (hhigh : bound ≤ 971)
    {u : UnpackedFloat} (h : ExponentAtMost bound u) :
    ExponentAtMost bound (Float.Model.pack u).unpack := by
  show ExponentAtMost bound (UnpackedFloat.unpack .binary64 (UnpackedFloat.pack .binary64 u))
  cases u with
  | infinity s => exact h.elim
  | notANumber => exact h.elim
  | zero s => cases s <;> trivial
  | finite s m e hm =>
    have he : e ≤ bound := h
    have hbias : Format.binary64.exponentBias = 1023 := rfl
    unfold UnpackedFloat.pack
    dsimp only
    rw [hbias]
    generalize hbiased : (e + (1023 : Nat) + (52 : Nat)).toNat = biased
    have hsmall : biased < 2047 := by omega
    have htoNat : (BitVec.ofNat 11 biased).toNat = biased := by
      rw [BitVec.toNat_ofNat]
      omega
    rw [if_neg (by omega)]
    split_ifs
    · refine exponentAtMost_unpack hlow (unpackExponent_packComponents ..) (fun heq => ?_)
        (by rw [htoNat]; omega)
      have hones := congrArg BitVec.toNat heq
      rw [htoNat, show (-1#11 : BitVec 11).toNat = 2047 by decide] at hones
      omega
    · exact exponentAtMost_unpack hlow (unpackExponent_packComponents ..) (by decide)
        (by simp; omega)

end Packing

section Numerals

/-- Whether a value has the exponent of a power of ten up to the twenty-second. -/
def IsStoredPower : UnpackedFloat → Prop
  | .finite _ _ e _ => -60 ≤ e ∧ e ≤ 60
  | _ => False

instance : DecidablePred IsStoredPower := fun u => by
  cases u <;> unfold IsStoredPower <;> infer_instance

theorem isStoredPower {k : Nat} (h : k < Float.exactlyRepresentablePowersOfTen.size) :
    IsStoredPower (Float.exactlyRepresentablePowersOfTen[k]).toModel.unpack := by
  revert k
  decide +kernel

theorem exponentAtMost_toFloat (n : UInt64) : ExponentAtMost 235 n.toFloat.toModel.unpack := by
  have hn : n.toNat < 2 ^ 64 := n.toNat_lt
  refine exponentAtMost_unpack_pack (by decide) (by decide) ?_
  show ExponentAtMost 235 (UnpackedFloat.normalize .binary64 (n.toNat : Int) 0 .positive)
  unfold UnpackedFloat.normalize
  split
  · next hneg => exact absurd (Int.compare_eq_lt.1 hneg) (by omega)
  · trivial
  · exact (exponentAtMost_round hn .positive 0).mono (by decide)

/-- An integer of 64 bits times or divided by a stored power of ten is finite. -/
theorem exponentAtMost_scaled {x power : Float} (hx : ExponentAtMost 235 x.toModel.unpack)
    (hpower : IsStoredPower power.toModel.unpack) :
    ExponentAtMost 971 (x * power).toModel.unpack ∧
      ExponentAtMost 971 (x / power).toModel.unpack := by
  suffices h : ExponentAtMost 971 (mul .binary64 x.toModel.unpack power.toModel.unpack) ∧
      ExponentAtMost 971 (div .binary64 x.toModel.unpack power.toModel.unpack) from
    ⟨exponentAtMost_unpack_pack (by decide) (by decide) h.1,
      exponentAtMost_unpack_pack (by decide) (by decide) h.2⟩
  cases hp : power.toModel.unpack with
  | zero s => rw [hp] at hpower; exact hpower.elim
  | infinity s => rw [hp] at hpower; exact hpower.elim
  | notANumber => rw [hp] at hpower; exact hpower.elim
  | finite s₂ m₂ e₂ hm₂ =>
    have he₂ : -60 ≤ e₂ ∧ e₂ ≤ 60 := by rwa [hp] at hpower
    have h₂ := mantissa_lt_of_unpack hp
    cases hu : x.toModel.unpack with
    | infinity s => rw [hu] at hx; exact hx.elim
    | notANumber => rw [hu] at hx; exact hx.elim
    | zero s => exact ⟨trivial, trivial⟩
    | finite s₁ m₁ e₁ hm₁ =>
      have he₁ : e₁ ≤ 235 := by rwa [hu] at hx
      have h₁ := mantissa_lt_of_unpack hu
      exact ⟨(exponentAtMost_mul h₁ h₂ s₁ s₂ e₁ e₂ hm₁ hm₂).mono (by omega),
        (exponentAtMost_div h₁ h₂ s₁ s₂ e₁ e₂ hm₁ hm₂).mono (by omega)⟩

theorem exponentAtMost_model_ofScientific {n : Nat} (hn : n < 2 ^ 128) {e : Int}
    (he : -22 ≤ e ∧ e ≤ 22) : ExponentAtMost 971 (UnpackedFloat.ofScientific .binary64 n e) := by
  have hpower {k : Nat} (hk : k ≤ 22) : 10 ^ k < 2 ^ 74 :=
    Nat.lt_of_le_of_lt (Nat.pow_le_pow_right (by decide) hk) (by decide)
  have hbits : Format.binary64.exponentBits = 11 := rfl
  unfold UnpackedFloat.ofScientific
  rw [hbits]
  by_cases hzero : n = 0
  · rw [dif_pos hzero]
    trivial
  rw [dif_neg hzero, if_neg (by omega), if_neg (by omega)]
  by_cases hsign : 0 ≤ e
  · rw [if_pos hsign]
    exact (exponentAtMost_mul (shiftLeft_lt hn (Nat.le_refl _)) (hpower (by omega)) _ _ _ _ _
      _).mono (by decide)
  · rw [if_neg hsign]
    exact (exponentAtMost_div hn (hpower (by omega)) _ _ _ _ _ _).mono (by decide)

theorem exponentAtMost_ofScientific {n : Nat} (hn : n < 2 ^ 128) {k : Nat} (hk : k ≤ 22)
    (scaled : Bool) : ExponentAtMost 971 (Float.ofScientific n scaled k).toModel.unpack := by
  have hsize : k < Float.exactlyRepresentablePowersOfTen.size := by
    have : Float.exactlyRepresentablePowersOfTen.size = 23 := rfl
    omega
  have hfast := exponentAtMost_scaled (exponentAtMost_toFloat n.toUInt64) (isStoredPower hsize)
  have hdown : Int.negOfNat k = -(k : Int) := Int.negOfNat_eq
  have hup : Int.ofNat k = (k : Int) := rfl
  unfold Float.ofScientific
  split_ifs
  · exact hfast.2
  · exact hfast.1
  all_goals
    exact exponentAtMost_unpack_pack (by decide) (by decide)
      (exponentAtMost_model_ofScientific hn (by omega))

/-- A numeral below `2 ^ 128` whose point is moved by at most 22 places is read as a finite float.
-/
theorem exponentAtMost_nearestFloat {n : Nat} (hn : n < 2 ^ 128) {e : Int}
    (he : -22 ≤ e ∧ e ≤ 22) : ExponentAtMost 971 (nearestFloat n e).toModel.unpack := by
  have hlength : (Text.digits n).length ≤ 39 :=
    Text.length_digits_le (by decide) (Nat.lt_trans hn (by decide))
  unfold nearestFloat
  dsimp only
  split_ifs with hsmall hlarge
  · exact exponentAtMost_ofScientific (by decide) (by decide) true
  · omega
  · exact exponentAtMost_ofScientific hn (by omega) _

theorem isFinite_nearestFloat {n : Nat} (hn : n < 2 ^ 128) {e : Int} (he : -22 ≤ e ∧ e ≤ 22) :
    (nearestFloat n e).isFinite = true ∧ (-nearestFloat n e).isFinite = true := by
  have h := exponentAtMost_nearestFloat hn he
  exact ⟨h.isFinite, (exponentAtMost_unpack_pack (by decide) (by decide) h.neg).isFinite⟩

end Numerals

end ServiceBindings.Decimal
