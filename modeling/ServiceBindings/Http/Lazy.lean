/-! Results that are worked out when they are first asked for, and only once. -/
namespace ServiceBindings.Http

/-- A result: the work still to be polled, or its outcome once that is known. -/
inductive Lazy (ε α : Type) where
  /-- Work that is not done for another so many polls and then has an outcome. -/
  | waiting (polls : Nat) (outcome : Except ε α)
  | known (outcome : Except ε α)

namespace Lazy
variable {ε α : Type}

/-- A result that is there from the start. -/
def ready (value : α) : Lazy ε α :=
  .known (.ok value)

def get? : Lazy ε α → Option (Except ε α)
  | waiting _ _ => none
  | known outcome => some outcome

def isKnown (result : Lazy ε α) : Bool :=
  result.get?.isSome

/-- Asks once: work that is not done yet is polled, and the number of polls is one or none. -/
def poll : Lazy ε α → Lazy ε α × Nat
  | waiting 0 outcome => (known outcome, 1)
  | waiting (polls + 1) outcome => (waiting polls outcome, 1)
  | known outcome => (known outcome, 0)

/-- Polls work until it is done. The answer is its outcome and the number of polls. -/
def await (outcome : Except ε α) : Nat → Except ε α × Nat
  | 0 => (outcome, 1)
  | polls + 1 =>
    let (outcome, made) := await outcome polls
    (outcome, made + 1)

/-- Asks until the outcome is known. The answer is the outcome and the number of polls. -/
def resolve : Lazy ε α → Except ε α × Nat
  | waiting polls outcome => await outcome polls
  | known outcome => (outcome, 0)

def resolved (result : Lazy ε α) : Lazy ε α :=
  .known result.resolve.1

end Lazy
end ServiceBindings.Http
