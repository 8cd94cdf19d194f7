import Mathlib.Tactic.Common
import ServiceBindings.Text.Expect

/-! A fixed beginning is found exactly at the beginning of a text. -/
namespace ServiceBindings.Text

theorem expect?_eq_some_iff {expected chars rest : List Char} :
    expect? expected chars = some rest ↔ chars = expected ++ rest := by
  induction expected generalizing chars with
  | nil => simp [expect?, eq_comm]
  | cons e expected ih =>
    cases chars with
    | nil => simp [expect?]
    | cons c chars =>
      rw [expect?, List.cons_append, List.cons.injEq]
      split_ifs with h
      · rw [ih, and_iff_right h.symm]
      · simp [Ne.symm h]

theorem expect?_append (expected rest : List Char) :
    expect? expected (expected ++ rest) = some rest :=
  expect?_eq_some_iff.2 rfl

theorem expect?_eq_none_iff {expected chars : List Char} :
    expect? expected chars = none ↔ ¬expected <+: chars := by
  rw [← not_iff_not, not_not, ← ne_eq, Option.ne_none_iff_exists']
  exact exists_congr fun rest => expect?_eq_some_iff.trans eq_comm

end ServiceBindings.Text
