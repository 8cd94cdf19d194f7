import ServiceBindings.Decimal.Shortest

/-! Numbers of payloads: integers stay exact, everything else is a float. -/
namespace ServiceBindings

inductive Number where
  | unsigned (n : Nat)
  /-- A signed integer of 64 bits. Reading takes it for negative integers only. -/
  | signed (i : Int)
  | float (x : Float)

namespace Number

def ofInt (i : Int) : Number :=
  if i < 0 then signed i else unsigned i.toNat

/-- The text of a number: all digits of an integer, the fewest digits of a float. -/
def text : Number → String
  | unsigned n => Text.integer n
  | signed i => Text.integer i
  | float x => Decimal.text x

def toFloat : Number → Float
  | unsigned n => Float.ofNat n
  | signed i => Float.ofInt i
  | float x => x

/-- The signed integer of 64 bits that a number is. A float of `2 ^ 63`, the bound itself, counts as
the greatest of them. -/
def int64? : Number → Option Int
  | unsigned n => if n < Text.int64Bound then some n else none
  | signed i => some i
  | float x =>
    match (Decimal.Binary.ofFloat? x).bind Decimal.Binary.integer? with
    | some i =>
      if -Text.int64Bound ≤ i ∧ i ≤ Text.int64Bound then some (min i (Text.int64Bound - 1))
      else none
    | none => none

/-- Numbers are the same when they are of one kind and their values are equal. -/
def same : Number → Number → Bool
  | unsigned m, unsigned n => m = n
  | signed i, signed j => i = j
  | float x, float y => x == y
  | _, _ => false

end Number
end ServiceBindings
