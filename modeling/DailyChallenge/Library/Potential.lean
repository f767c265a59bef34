import Mathlib
import DailyChallenge.Library.Runs

/-!
# Potentials of runs

A bound on the cost of a run by the credit that its labels bring. A step costs some units of a
potential; a label may bring in new units (`Run.cost_add_potential_le`). Where the potential is a
sum over the components of a system, a step changes the term of the component that takes it and may
raise each of the others by a slack (`sum_add_le_of_update`).
-/

set_option autoImplicit false
set_option relaxedAutoImplicit false

namespace DailyChallenge.Library

/-- The credit that a label brings pays for the cost of its step and for the rise of the potential.
-/
theorem TransitionSystem.Run.cost_add_potential_le {State Label : Type*}
    {system : TransitionSystem State Label} (potential : State → ℕ) (cost gain : Label → ℕ)
    {initial : ℕ} (hstart : ∀ state, system.Start state → potential state ≤ initial)
    (hstep : ∀ trace state label next, system.Run trace state → system.Step state label next →
      potential next + cost label ≤ potential state + gain label)
    {trace : List Label} {state : State} (hrun : system.Run trace state) :
    (trace.map cost).sum + potential state ≤ initial + (trace.map gain).sum := by
  induction hrun with
  | start h => simpa using hstart _ h
  | @step trace state next label hbefore h ih =>
    have hcost := hstep trace state label next hbefore h
    simp only [List.map_append, List.map_singleton, List.sum_append, List.sum_singleton]
    omega

/-- A cost of one for the labels of one kind is their number. -/
theorem sum_map_toNat {Label : Type*} (kind : Label → Bool) (trace : List Label) :
    (trace.map fun label ↦ (kind label).toNat).sum = trace.countP kind := by
  induction trace with
  | nil => rfl
  | cons label trace ih =>
    rw [List.map_cons, List.sum_cons, ih, List.countP_cons, add_comm]
    cases kind label <;> rfl

section Components

variable {Component : Type*} [Fintype Component]

/-- One component pays for the rise of all others. -/
theorem sum_add_le_of_update {before after : Component → ℕ} (component : Component)
    {slack cost gain : ℕ}
    (hothers : ∀ other, other ≠ component → after other ≤ before other + slack)
    (hself : after component + (Fintype.card Component - 1) * slack + cost ≤
      before component + gain) :
    (∑ other, after other) + cost ≤ (∑ other, before other) + gain := by
  classical
  have hrest : ∑ other ∈ Finset.univ.erase component, after other ≤
      (∑ other ∈ Finset.univ.erase component, before other) +
        (Fintype.card Component - 1) * slack := by
    calc ∑ other ∈ Finset.univ.erase component, after other
        ≤ ∑ other ∈ Finset.univ.erase component, (before other + slack) :=
          Finset.sum_le_sum fun other hother ↦ hothers other (Finset.ne_of_mem_erase hother)
      _ = _ := by
          rw [Finset.sum_add_distrib, Finset.sum_const, Finset.card_erase_of_mem
            (Finset.mem_univ component), Finset.card_univ, smul_eq_mul]
  have hafter := Finset.add_sum_erase Finset.univ after (Finset.mem_univ component)
  have hbefore := Finset.add_sum_erase Finset.univ before (Finset.mem_univ component)
  omega

end Components

end DailyChallenge.Library
