import ServiceBindings.Decimal.Binary
import ServiceBindings.Text.Digits

/-! The fewest decimal digits that identify a float, written without an exponent. -/
namespace ServiceBindings.Decimal

/-- The decimal number `digits * 10 ^ exponent`. -/
structure Numeral where
  digits : Nat
  /-- The place of the last digit. -/
  exponent : Int
deriving DecidableEq

/-- Compares `a * 10 ^ i` with `b * 2 ^ j`. -/
def compareScaled (a : Nat) (i : Int) (b : Nat) (j : Int) : Ordering :=
  compare (a * Nat.pow 10 i.toNat * Nat.pow 2 (-j).toNat)
    (b * Nat.pow 2 j.toNat * Nat.pow 10 (-i).toNat)

/-- A numeral identifies a float when it lies within half the gaps to the float's neighbours. The
ends of that interval belong to it when the float's coefficient is even. -/
def Binary.identifiedBy (x : Binary) (d : Numeral) : Bool :=
  let below := 4 * x.coefficient - (if x.narrowBelow then 1 else 2)
  let above := 4 * x.coefficient + 2
  let even := x.coefficient % 2 = 0
  let low := compareScaled d.digits d.exponent below (x.exponent - 2)
  let high := compareScaled d.digits d.exponent above (x.exponent - 2)
  (low = .gt || even && low = .eq) && (high = .lt || even && high = .eq)

/-- The greatest numeral with its last digit at place `g` that does not exceed the magnitude. -/
def Binary.floorAt (x : Binary) (g : Int) : Numeral :=
  let above := x.coefficient * Nat.pow 2 x.exponent.toNat * Nat.pow 10 (-g).toNat
  let below := Nat.pow 2 (-x.exponent).toNat * Nat.pow 10 g.toNat
  ⟨above / below, g⟩

/-- The nearer of the numerals at place `g` around the magnitude, among those that identify it. Of
two that are equally near the greater is taken. -/
def Binary.nearestAt? (x : Binary) (g : Int) : Option Numeral :=
  let down := x.floorAt g
  let up : Numeral := ⟨down.digits + 1, g⟩
  if x.identifiedBy down then
    if x.identifiedBy up ∧
        compareScaled (2 * down.digits + 1) g (2 * x.coefficient) x.exponent ≠ .gt then some up
    else some down
  else if x.identifiedBy up then some up
  else none

/-- A place that lies above the leading digit of the magnitude, by at most three. -/
def Binary.topPlace (x : Binary) : Int :=
  ((x.coefficient.log2 : Int) + x.exponent + 1) * 1233 / 4096 + 1

/-- The numeral with the fewest digits that identifies the magnitude; should no place down to the
seventeenth digit do, the magnitude itself. -/
def Binary.shortest (x : Binary) : Numeral :=
  let places := (List.range 22).map fun (i : Nat) => x.topPlace - i
  (places.findSome? x.nearestAt?).getD
    (if 0 ≤ x.exponent then ⟨x.coefficient * Nat.pow 2 x.exponent.toNat, 0⟩
     else ⟨x.coefficient * Nat.pow 5 (-x.exponent).toNat, x.exponent⟩)

/-- A numeral in positional notation, without a point when it is an integer. -/
def Numeral.chars (d : Numeral) : List Char :=
  let shown := Text.digits d.digits
  if 0 ≤ d.exponent then shown ++ List.replicate d.exponent.toNat '0'
  else
    let places := (-d.exponent).toNat
    if places < shown.length then
      shown.take (shown.length - places) ++ '.' :: shown.drop (shown.length - places)
    else '0' :: '.' :: List.replicate (places - shown.length) '0' ++ shown

/-- A finite float: a sign before a negative one and before a negative zero, then the digits. -/
def Binary.chars (x : Binary) : List Char :=
  let magnitude := if x.coefficient = 0 then ['0'] else x.shortest.chars
  if x.negative then '-' :: magnitude else magnitude

/-- A float by its fewest digits, or by its name when it is not finite. -/
def text (x : Float) : String :=
  match Binary.ofFloat? x with
  | some b => String.ofList b.chars
  | none => if x.isNaN then "NaN" else if x < 0 then "-Infinity" else "Infinity"

end ServiceBindings.Decimal
