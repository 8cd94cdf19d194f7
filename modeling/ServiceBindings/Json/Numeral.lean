import ServiceBindings.Decimal.Reading
import ServiceBindings.Number

/-! JSON numerals: their grammar and the numbers that they stand for. -/
namespace ServiceBindings.Json

structure Numeral where
  negative : Bool
  whole : List Char
  fraction : Option (List Char)
  exponent : Option Int

namespace Numeral

/-- Digits before the point: a single zero, or digits that do not begin with one. -/
def whole? (chars : List Char) : Option (List Char × List Char) :=
  match Decimal.spanDigits chars with
  | ([], _) => none
  | ('0' :: _ :: _, _) => none
  | (digits, rest) => some (digits, rest)

/-- A point and digits behind it, if there is a point. -/
def fraction? : List Char → Option (Option (List Char) × List Char)
  | '.' :: chars =>
    match Decimal.spanDigits chars with
    | ([], _) => none
    | (digits, rest) => some (some digits, rest)
  | chars => some (none, chars)

/-- The digits of an exponent behind its sign. -/
def exponentDigits? (negative : Bool) (chars : List Char) : Option (Option Int × List Char) :=
  let (digits, rest) := Decimal.spanDigits chars
  (Text.ofDigits? 10 digits).map fun n => (some (if negative then -(n : Int) else n), rest)

/-- An exponent with its letter, if there is one. -/
def exponent? : List Char → Option (Option Int × List Char)
  | c :: chars =>
    if c = 'e' ∨ c = 'E' then
      match chars with
      | '-' :: rest => exponentDigits? true rest
      | '+' :: rest => exponentDigits? false rest
      | rest => exponentDigits? false rest
    else some (none, c :: chars)
  | [] => some (none, [])

def read? (chars : List Char) : Option (Numeral × List Char) := do
  let (negative, chars) := match chars with
    | '-' :: rest => (true, rest)
    | chars => (false, chars)
  let (whole, chars) ← whole? chars
  let (fraction, chars) ← fraction? chars
  let (exponent, chars) ← exponent? chars
  some (⟨negative, whole, fraction, exponent⟩, chars)

/-- Appends digits to a number as long as it stays below `2 ^ 64`. The answer tells how many digits
were not taken. -/
def takeDigits : Nat → List Char → Nat × Nat
  | n, [] => (n, 0)
  | n, c :: rest =>
    let next := n * 10 + (c.toNat - 48)
    if next < 18446744073709551616 then takeDigits next rest else (n, rest.length + 1)

/-- A magnitude scaled by a power of ten, with one rounding for each factor of at most `10 ^ 308`;
none if it leaves the range of floats. -/
def scaled? (x : Float) (e : Int) : Option Float :=
  if 308 < e then (if x == 0.0 then some 0.0 else none)
  else if 0 ≤ e then
    let y := x * Decimal.nearestFloat 1 e
    if y.isFinite then some y else none
  else if -308 ≤ e then some (x / Decimal.nearestFloat 1 (-e))
  else if -616 ≤ e then
    some (x / Decimal.nearestFloat 1 308 / Decimal.nearestFloat 1 (-e - 308))
  else some 0.0

/-- The number of a numeral. It is an integer when it has neither point nor exponent, is not the
negative zero and fits 64 bits. Otherwise its leading digits, as many as fit 64 bits, are turned
into a float and scaled. -/
def number? (n : Numeral) : Option Number :=
  let (whole, dropped) := takeDigits 0 n.whole
  if n.fraction.isNone ∧ n.exponent.isNone ∧ dropped = 0 ∧
      (n.negative → 0 < whole ∧ (whole : Int) ≤ Text.int64Bound) then
    some (if n.negative then .signed (-whole) else .unsigned whole)
  else
    let fraction := n.fraction.getD []
    let (significand, left) := takeDigits whole fraction
    let places : Int := (dropped : Int) - (fraction.length - left : Nat) + n.exponent.getD 0
    (scaled? (Float.ofNat significand) places).map fun x =>
      .float (if n.negative then -x else x)

end Numeral
end ServiceBindings.Json
