import ServiceBindings.Decimal.Binary

/-! Instants, in seconds and nanoseconds from the start of 1970 in universal time. -/
namespace ServiceBindings

/-- An instant: the whole seconds up to it, and the nanoseconds beyond them. -/
structure Instant where
  /-- Whole seconds from the start of 1970, negative before it. -/
  seconds : Int
  nanos : Nat
  nanos_lt : nanos < 1000000000
deriving DecidableEq

namespace Instant

/-- Whole seconds and any number of nanoseconds after them. -/
def ofParts (seconds : Int) (nanos : Nat) : Instant :=
  ⟨seconds + (nanos / 1000000000 : Nat), nanos % 1000000000, Nat.mod_lt _ (by decide)⟩

/-- The instant at a fractional number of seconds, to the nearest nanosecond. Seconds beyond 64 bits
become the nearest bound, and what is not a number becomes zero. -/
def ofFloat (x : Float) : Instant :=
  ofParts x.floor.toInt64.toInt ((x - x.floor) * 1000000000.0).round.toUInt32.toNat

def toFloat (t : Instant) : Float :=
  Float.ofInt t.seconds + Float.ofNat t.nanos / 1000000000.0

def hasFraction (t : Instant) : Bool :=
  t.nanos ≠ 0

end Instant
end ServiceBindings
