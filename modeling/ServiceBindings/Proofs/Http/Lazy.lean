import Mathlib.Tactic.Common
import ServiceBindings.Http.Lazy

/-! Results are worked out once. Whatever is asked of one, its work is polled until it is done and
never again, and the outcome of the work is the only one that is ever seen. -/
namespace ServiceBindings.Http.Lazy
variable {ε α : Type}

/-- Work that is polled until it is done is polled once more often than it is pending. -/
theorem await_eq (outcome : Except ε α) (polls : Nat) :
    await outcome polls = (outcome, polls + 1) := by
  induction polls with
  | zero => rfl
  | succ polls ih => rw [await, ih]

@[simp] theorem resolve_waiting (polls : Nat) (outcome : Except ε α) :
    (waiting polls outcome).resolve = (outcome, polls + 1) :=
  await_eq outcome polls

@[simp] theorem resolve_known (outcome : Except ε α) : (known outcome).resolve = (outcome, 0) :=
  rfl

/-- What can be asked of a result. -/
inductive Step where
  | get
  | isKnown
  /-- The outcome, but no longer than for one poll. -/
  | poll
  | resolve
  /-- The outcome, for which the result is given away. -/
  | take
deriving DecidableEq

inductive Reply (ε α : Type) where
  | outcome (outcome : Option (Except ε α))
  | isKnown (known : Bool)
  | gone

/-- A result, unless it was given away, and how often its work was polled. -/
structure Session (ε α : Type) where
  result : Option (Lazy ε α)
  polls : Nat := 0

namespace Session

/-- Nothing was asked yet of a result whose work is pending for so many polls. -/
def start (pending : Nat) (outcome : Except ε α) : Session ε α where
  result := some (waiting pending outcome)

def step (session : Session ε α) (step : Step) : Reply ε α × Session ε α :=
  match session.result with
  | none => (.gone, session)
  | some result =>
    match step with
    | .get => (.outcome result.get?, session)
    | .isKnown => (.isKnown result.isKnown, session)
    | .poll =>
      let (next, polls) := result.poll
      (.outcome next.get?, { result := some next, polls := session.polls + polls })
    | .resolve =>
      let (outcome, polls) := result.resolve
      (.outcome (some outcome),
        { result := some result.resolved, polls := session.polls + polls })
    | .take =>
      let (outcome, polls) := result.resolve
      (.outcome (some outcome), { result := none, polls := session.polls + polls })

def after (session : Session ε α) (steps : List Step) : Session ε α :=
  steps.foldl (fun session step => (session.step step).2) session

/-- The polls that were made and those that the work is still pending for add up, and the outcome is
that of the work. -/
def Sound (pending : Nat) (outcome : Except ε α) (session : Session ε α) : Prop :=
  match session.result with
  | some (waiting left found) => found = outcome ∧ session.polls + left = pending
  | some (known found) => found = outcome ∧ session.polls = pending + 1
  | none => session.polls = pending + 1

section
variable {pending : Nat} {outcome : Except ε α} {session : Session ε α}

theorem sound_start (pending : Nat) (outcome : Except ε α) :
    Sound pending outcome (start pending outcome) :=
  ⟨rfl, Nat.zero_add pending⟩

/-- A sound session waits for its work, knows the outcome, or has given it away. -/
theorem Sound.cases (h : Sound pending outcome session) :
    (∃ left, session.result = some (waiting left outcome) ∧ session.polls + left = pending) ∨
    (session.result = some (known outcome) ∧ session.polls = pending + 1) ∨
    (session.result = none ∧ session.polls = pending + 1) := by
  obtain ⟨result, polls⟩ := session
  match result with
  | some (waiting left found) =>
    obtain ⟨rfl, hpolls⟩ := h
    exact .inl ⟨left, rfl, hpolls⟩
  | some (known found) =>
    obtain ⟨rfl, hpolls⟩ := h
    exact .inr (.inl ⟨rfl, hpolls⟩)
  | none => exact .inr (.inr ⟨rfl, h⟩)

theorem Sound.polls_le (h : Sound pending outcome session) : session.polls ≤ pending + 1 := by
  rcases h.cases with ⟨left, -, hpolls⟩ | ⟨-, hpolls⟩ | ⟨-, hpolls⟩ <;> omega

/-- Every step keeps a session sound: no progress is lost, and work that is done is left alone. -/
theorem Sound.step (h : Sound pending outcome session) (step : Step) :
    Sound pending outcome (session.step step).2 := by
  obtain ⟨result, polls⟩ := session
  match result with
  | none => exact h
  | some (known found) =>
    obtain ⟨rfl, hpolls⟩ := h
    cases step with
    | get | isKnown | poll | resolve => exact ⟨rfl, hpolls⟩
    | take => exact hpolls
  | some (waiting left found) =>
    obtain ⟨rfl, hpolls⟩ := h
    have hdone : polls + (left + 1) = pending + 1 := by
      dsimp only at hpolls
      omega
    cases step with
    | get | isKnown => exact ⟨rfl, hpolls⟩
    | resolve =>
      simp only [Session.step, resolved, resolve_waiting]
      exact ⟨rfl, hdone⟩
    | take =>
      simp only [Session.step, resolve_waiting]
      exact hdone
    | poll =>
      cases left with
      | zero => exact ⟨rfl, hdone⟩
      | succ left =>
        have hleft : polls + 1 + left = pending := by omega
        exact ⟨rfl, hleft⟩

theorem Sound.after (h : Sound pending outcome session) (steps : List Step) :
    Sound pending outcome (session.after steps) := by
  induction steps generalizing session with
  | nil => exact h
  | cons step rest ih => exact ih (h.step step)

/-- A result is there until it is given away. -/
theorem result_step_eq_none {session : Session ε α} {step : Step} :
    (session.step step).2.result = none ↔ session.result = none ∨ step = .take := by
  obtain ⟨result, polls⟩ := session
  cases result with
  | none => simp [Session.step]
  | some result => cases step <;> simp [Session.step]

theorem result_after_eq_none {session : Session ε α} (steps : List Step) :
    (session.after steps).result = none ↔ session.result = none ∨ .take ∈ steps := by
  induction steps generalizing session with
  | nil => simp [Session.after]
  | cons step rest ih =>
    have hafter : session.after (step :: rest) = (session.step step).2.after rest := rfl
    rw [hafter, ih, result_step_eq_none, List.mem_cons, or_assoc, eq_comm (a := step)]

/-- Asking for the outcome makes all polls, a poll makes one of those that are left, and nothing
else makes any. -/
theorem Sound.polls_step (h : Sound pending outcome session) (step : Step) :
    (session.step step).2.polls =
      if step = .resolve ∨ step = .take then pending + 1
      else min (session.polls + if step = .poll then 1 else 0) (pending + 1) := by
  obtain ⟨result, polls⟩ := session
  rcases h.cases with ⟨left, rfl, hpolls⟩ | ⟨rfl, hpolls⟩ | ⟨rfl, hpolls⟩
  · dsimp only at hpolls
    cases step with
    | poll => cases left <;> simp [Session.step, poll] <;> omega
    | get | isKnown => simp [Session.step]; omega
    | resolve | take => simp [Session.step]; omega
  · dsimp only at hpolls
    cases step <;> simp [Session.step, poll, hpolls]
  · dsimp only at hpolls
    cases step <;> simp [Session.step, hpolls]

theorem Sound.polls_after (h : Sound pending outcome session) (steps : List Step) :
    (session.after steps).polls =
      if .resolve ∈ steps ∨ .take ∈ steps then pending + 1
      else min (session.polls + steps.count .poll) (pending + 1) := by
  induction steps generalizing session with
  | nil =>
    have hle := h.polls_le
    simp [Session.after, hle]
  | cons step rest ih =>
    have hafter : session.after (step :: rest) = (session.step step).2.after rest := rfl
    rw [hafter, ih (h.step step), h.polls_step step]
    by_cases hrest : .resolve ∈ rest ∨ .take ∈ rest
    · have hall : .resolve ∈ step :: rest ∨ .take ∈ step :: rest :=
        hrest.imp (List.mem_cons_of_mem _) (List.mem_cons_of_mem _)
      rw [if_pos hrest, if_pos hall]
    · rw [if_neg hrest]
      cases step with
      | resolve | take => simp
      | get | isKnown | poll =>
        simp only [hrest, reduceCtorEq, or_self, if_true, if_false, List.count_cons, List.mem_cons,
          false_or, beq_self_eq_true, beq_iff_eq]
        omega

/-- The replies of a sound session before its result is given away. -/
theorem Sound.replies (h : Sound pending outcome session) (hresult : session.result ≠ none) :
    (session.step .get).1 =
        .outcome (if session.polls = pending + 1 then some outcome else none) ∧
      (session.step .isKnown).1 = .isKnown (decide (session.polls = pending + 1)) ∧
      (session.step .poll).1 = .outcome (if pending ≤ session.polls then some outcome else none) ∧
      (session.step .resolve).1 = .outcome (some outcome) ∧
      (session.step .take).1 = .outcome (some outcome) := by
  obtain ⟨result, polls⟩ := session
  rcases h.cases with ⟨left, rfl, hpolls⟩ | ⟨rfl, hpolls⟩ | ⟨rfl, -⟩
  · have hleft : pending = polls + left := hpolls.symm
    have hmore : polls ≠ polls + left + 1 := by omega
    cases left with
    | zero => simp [Session.step, get?, isKnown, poll, hleft]
    | succ left => simp [Session.step, get?, isKnown, poll, hleft, hmore]
  · dsimp only at hpolls
    simp [Session.step, get?, isKnown, poll, hpolls]
  · exact absurd rfl hresult

theorem replies_gone {session : Session ε α} (hresult : session.result = none) (step : Step) :
    (session.step step).1 = .gone := by
  simp [Session.step, hresult]

/-- Work that is done is not polled again. -/
theorem Sound.polls_step_of_done (h : Sound pending outcome session)
    (hdone : session.polls = pending + 1) (step : Step) :
    (session.step step).2.polls = pending + 1 := by
  have hle := (h.step step).polls_le
  have hpolls := h.polls_step step
  split_ifs at hpolls <;> omega

/-- The only outcome that is seen is that of the work. -/
theorem Sound.eq_of_reply (h : Sound pending outcome session) {step : Step}
    {found : Except ε α} (hreply : (session.step step).1 = .outcome (some found)) :
    found = outcome := by
  by_cases hnone : session.result = none
  · rw [replies_gone hnone] at hreply
    cases hreply
  obtain ⟨hget, hknown, hpoll, hresolve, htaken⟩ := h.replies hnone
  cases step with
  | get =>
    rw [hget] at hreply
    split_ifs at hreply
    · cases hreply
      rfl
    · cases hreply
  | isKnown => cases hknown.symm.trans hreply
  | poll =>
    rw [hpoll] at hreply
    split_ifs at hreply
    · cases hreply
      rfl
    · cases hreply
  | resolve =>
    cases hresolve.symm.trans hreply
    rfl
  | take =>
    cases htaken.symm.trans hreply
    rfl

end

end Session

open Session (start)

/-- The work of a result is pending for some polls and is done with the next one. Whatever is asked
of the result, its work is polled no more often than that, and no longer once it is done. Each poll
that is given up counts as one of them, so that asking for the outcome makes those that are left.
Before the result is given away, the outcome is known from the last poll on, and all that is ever
seen is the outcome of the work. -/
theorem polled_once_after_any_steps (pending : Nat) (outcome : Except ε α) (steps : List Step) :
    let session := (start pending outcome).after steps
    session.polls ≤ pending + 1 ∧
    (∀ step, session.polls = pending + 1 → (session.step step).2.polls = pending + 1) ∧
    session.polls =
      (if .resolve ∈ steps ∨ .take ∈ steps then pending + 1
        else min (steps.count .poll) (pending + 1)) ∧
    (.take ∉ steps →
      (session.step .get).1 =
          .outcome (if session.polls = pending + 1 then some outcome else none) ∧
        (session.step .isKnown).1 = .isKnown (decide (session.polls = pending + 1)) ∧
        (session.step .poll).1 =
          .outcome (if pending ≤ session.polls then some outcome else none) ∧
        (session.step .resolve).1 = .outcome (some outcome) ∧
        (session.step .take).1 = .outcome (some outcome)) ∧
    (.take ∈ steps → ∀ step, (session.step step).1 = .gone) ∧
    ∀ step found, (session.step step).1 = .outcome (some found) → found = outcome := by
  intro session
  have hstart : (start pending outcome).Sound pending outcome := Session.sound_start pending outcome
  have hsound : session.Sound pending outcome := hstart.after steps
  have hgone : session.result = none ↔ .take ∈ steps := by
    rw [Session.result_after_eq_none]
    simp [start]
  refine ⟨hsound.polls_le, fun step hdone => hsound.polls_step_of_done hdone step, ?_,
    fun htake => hsound.replies fun hnone => htake (hgone.1 hnone),
    fun htake step => Session.replies_gone (hgone.2 htake) step,
    fun step found hreply => hsound.eq_of_reply hreply⟩
  have hpolls := hstart.polls_after steps
  have hzero : (start pending outcome).polls = 0 := rfl
  rwa [hzero, Nat.zero_add] at hpolls

/-- Work that is pending twice is done with the third poll, of which two were given up. -/
theorem polled_once_of_late_outcome :
    let session := (start 2 (.error "late" : Except String Nat)).after
      [.poll, .get, .poll, .isKnown, .resolve, .poll]
    session.polls = 3 ∧
      (session.step .get).1 = .outcome (some (.error "late")) ∧
      (session.step .take).1 = .outcome (some (.error "late")) ∧
      ∀ step, ((session.step .take).2.step step).1 = .gone := by
  intro session
  obtain ⟨-, -, hpolls, hreplies, -⟩ := polled_once_after_any_steps 2
    (.error "late" : Except String Nat) [.poll, .get, .poll, .isKnown, .resolve, .poll]
  obtain ⟨-, -, -, -, hgone, -⟩ := polled_once_after_any_steps 2
    (.error "late" : Except String Nat) [.poll, .get, .poll, .isKnown, .resolve, .poll, .take]
  obtain ⟨hget, -, -, -, htake⟩ := hreplies (by decide)
  exact ⟨hpolls, hget, htake, hgone (by decide)⟩

end ServiceBindings.Http.Lazy
