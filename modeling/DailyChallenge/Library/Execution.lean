import Mathlib
import DailyChallenge.Library.Runs

/-!
# Infinite executions

An `Execution` of a transition system goes on forever; a moment may pass without a step, so that a
run may end. Its first moments are a run (`Execution.run`). A scheduler that gives the step to take
at each moment, if any, gives an execution (`Execution.scheduled`). Where the steps of one kind are
bounded along the execution, and come again and again until something is reached, it is reached
(`Execution.eventually`).
-/

set_option autoImplicit false
set_option relaxedAutoImplicit false

namespace DailyChallenge.Library

/-- An infinite execution, with the label of the step at each moment or none. -/
structure Execution {State Label : Type*} (system : TransitionSystem State Label) where
  state : ℕ → State
  label : ℕ → Option Label
  start : system.Start (state 0)
  step : ∀ n label', label n = some label' → system.Step (state n) label' (state (n + 1))
  idle : ∀ n, label n = none → state (n + 1) = state n

namespace Execution

variable {State Label : Type*} {system : TransitionSystem State Label}

/-- The labels of the steps before a moment. -/
def trace (execution : Execution system) (n : ℕ) : List Label :=
  (List.range n).filterMap execution.label

theorem trace_succ (execution : Execution system) (n : ℕ) :
    execution.trace (n + 1) = execution.trace n ++ (execution.label n).toList := by
  unfold trace
  rw [List.range_succ, List.filterMap_append]
  cases hlabel : execution.label n <;> simp [hlabel]

/-- What happens before a moment is a run. -/
theorem run (execution : Execution system) (n : ℕ) :
    system.Run (execution.trace n) (execution.state n) := by
  induction n with
  | zero => exact .start execution.start
  | succ n ih =>
    rw [trace_succ]
    cases hlabel : execution.label n with
    | none => simpa [execution.idle n hlabel] using ih
    | some label => exact ih.step (execution.step n label hlabel)

/-- The states that a scheduler goes through. -/
def scheduledState (start : State) (next : ℕ → State → Option (Label × State)) : ℕ → State
  | 0 => start
  | n + 1 =>
    let state := scheduledState start next n
    ((next n state).map Prod.snd).getD state

/-- The execution of a scheduler. -/
def scheduled (system : TransitionSystem State Label) (start : State) (hstart : system.Start start)
    (next : ℕ → State → Option (Label × State))
    (hnext : ∀ n state label state', next n state = some (label, state') →
      system.Step state label state') : Execution system where
  state := scheduledState start next
  label n := (next n (scheduledState start next n)).map Prod.fst
  start := hstart
  step n label hlabel := by
    obtain ⟨⟨_, state'⟩, hstep, rfl⟩ := Option.map_eq_some_iff.mp hlabel
    rw [scheduledState, hstep]
    exact hnext n _ _ _ hstep
  idle n hnone := by
    rw [scheduledState, Option.map_eq_none_iff.mp hnone]
    rfl

/-- An execution from a moment on. -/
def fromMoment (execution : Execution system) (moment : ℕ) :
    Execution (system.continuing (execution.state moment)) where
  state n := execution.state (moment + n)
  label n := execution.label (moment + n)
  start := rfl
  step n := execution.step (moment + n)
  idle n := execution.idle (moment + n)

theorem trace_add (execution : Execution system) (moment n : ℕ) :
    execution.trace (moment + n) =
      execution.trace moment ++ (execution.fromMoment moment).trace n := by
  induction n with
  | zero => exact (List.append_nil _).symm
  | succ n ih => rw [← add_assoc, trace_succ, ih, trace_succ, List.append_assoc]; rfl

/-- What holds and is kept by every step holds from then on. -/
theorem stays (execution : Execution system) (holds : State → Prop)
    (hstep : ∀ n label, holds (execution.state n) →
      system.Step (execution.state n) label (execution.state (n + 1)) →
        holds (execution.state (n + 1)))
    {n m : ℕ} (hle : n ≤ m) (h : holds (execution.state n)) : holds (execution.state m) := by
  induction m, hle using Nat.le_induction with
  | base => exact h
  | succ m hle ih =>
    cases hlabel : execution.label m with
    | none => rwa [execution.idle m hlabel]
    | some label => exact hstep m label ih (execution.step m label hlabel)

/-- If steps of one kind come again and again until something is reached, but only a bounded number
of them are taken, it is reached. -/
theorem eventually (execution : Execution system) (mine : Label → Bool) {bound : ℕ}
    (hbound : ∀ n, (execution.trace n).countP mine ≤ bound) (reached : State → Prop)
    (hagain : ∀ n, ¬ reached (execution.state n) →
      ∃ m, n ≤ m ∧ ∃ label, execution.label m = some label ∧ mine label = true) :
    ∃ n, reached (execution.state n) := by
  by_contra hnever
  rw [not_exists] at hnever
  have hmono : Monotone fun n ↦ (execution.trace n).countP mine := by
    refine monotone_nat_of_le_succ fun n ↦ ?_
    rw [trace_succ, List.countP_append]
    exact Nat.le_add_right _ _
  have hmany : ∀ count, ∃ n, count ≤ (execution.trace n).countP mine := by
    intro count
    induction count with
    | zero => exact ⟨0, Nat.zero_le _⟩
    | succ count ih =>
      obtain ⟨n, hn⟩ := ih
      obtain ⟨m, hle, label, hlabel, hmine⟩ := hagain n (hnever n)
      refine ⟨m + 1, ?_⟩
      rw [trace_succ, List.countP_append, hlabel]
      have hbefore := hmono hle
      simp only [Option.toList_some, List.countP_singleton, hmine, if_true]
      dsimp only at hbefore
      omega
  obtain ⟨n, hn⟩ := hmany (bound + 1)
  have hle := hbound n
  omega

/-- What every component reaches and keeps, all of them reach. -/
theorem eventually_all (execution : Execution system) {Component : Type*} [Finite Component]
    (reached : Component → State → Prop)
    (hstays : ∀ component n m, n ≤ m → reached component (execution.state n) →
      reached component (execution.state m))
    (h : ∀ component, ∃ n, reached component (execution.state n)) :
    ∃ n, ∀ component, reached component (execution.state n) := by
  choose moment hmoment using h
  obtain ⟨last, hlast⟩ := (Set.finite_range moment).bddAbove
  exact ⟨last, fun component ↦
    hstays component _ _ (hlast (Set.mem_range_self component)) (hmoment component)⟩

end Execution

end DailyChallenge.Library
