/-! Floats of 64 bits as exact numbers. -/
namespace ServiceBindings.Decimal

/-- A finite float: `coefficient * 2 ^ exponent`, with its sign. -/
structure Binary where
  /-- Whether the sign bit is set; zero has a sign too. -/
  negative : Bool
  /-- The significand as a natural number. -/
  coefficient : Nat
  exponent : Int
  /-- Whether the gap to the next float toward zero is half of the gap away from zero. -/
  narrowBelow : Bool

def Binary.ofBits? (bits : UInt64) : Option Binary :=
  let negative := bits >>> 63 == 1
  let scale := ((bits >>> 52) &&& 0x7FF).toNat
  let fraction := (bits &&& 0xFFFFFFFFFFFFF).toNat
  if scale = 2047 then none
  else if scale = 0 then some ⟨negative, fraction, -1074, false⟩
  else some ⟨negative, 4503599627370496 + fraction, (scale : Int) - 1075, fraction = 0 && 1 < scale⟩

/-- A float as an exact number; none for an infinity and for what is not a number. -/
def Binary.ofFloat? (x : Float) : Option Binary :=
  ofBits? x.toBits

def Binary.integer? (x : Binary) : Option Int :=
  let magnitude? : Option Nat :=
    if 0 ≤ x.exponent then some (x.coefficient * Nat.pow 2 x.exponent.toNat)
    else if x.coefficient % Nat.pow 2 (-x.exponent).toNat = 0 then
      some (x.coefficient / Nat.pow 2 (-x.exponent).toNat)
    else none
  magnitude?.map fun n => if x.negative then -(n : Int) else n

end ServiceBindings.Decimal
