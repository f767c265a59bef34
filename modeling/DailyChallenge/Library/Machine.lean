import Mathlib

/-!
# Machines that answer their inputs

A `Machine` takes one input at a time and answers it; a step without a result is one on which the
program it models has no defined behaviour. `Machine.run` feeds it a list of inputs and collects the
answers. A `Refinement` relates the states of two machines so that every step the abstract one
defines is defined in the concrete one with the same answer, and `Refinement.run` says that then
whole runs have the same answers.
-/

set_option autoImplicit false
set_option relaxedAutoImplicit false

namespace DailyChallenge.Library

/-- A deterministic machine: the next state and the answer to an input, where they are defined. -/
structure Machine (State Input Output : Type*) where
  step : State → Input → Option (State × Output)

section

variable {State Abstract Input Output : Type*}

/-- The state after a list of inputs, and the answers in order. -/
def Machine.run (machine : Machine State Input Output) :
    State → List Input → Option (State × List Output)
  | state, [] => some (state, [])
  | state, input :: inputs => do
    let (next, output) ← machine.step state input
    let (last, outputs) ← machine.run next inputs
    return (last, output :: outputs)

/-- A run whose first step is defined. -/
theorem Machine.run_cons {machine : Machine State Input Output} {state next : State} {input : Input}
    {output : Output} (h : machine.step state input = some (next, output)) (inputs : List Input) :
    machine.run state (input :: inputs) =
      (machine.run next inputs).map fun last ↦ (last.1, output :: last.2) := by
  rw [run, h]
  show (machine.run next inputs >>= _) = _
  cases machine.run next inputs <;> rfl

/-- A relation of states under which the concrete machine does every step of the abstract one, with
the same answer. -/
structure Refinement (concrete : Machine State Input Output)
    (abstract : Machine Abstract Input Output) where
  Related : State → Abstract → Prop
  step : ∀ state shadow input shadowNext output, Related state shadow →
    abstract.step shadow input = some (shadowNext, output) →
      ∃ next, concrete.step state input = some (next, output) ∧ Related next shadowNext

/-- Runs of the abstract machine are runs of the concrete one with the same answers. -/
theorem Refinement.run {concrete : Machine State Input Output}
    {abstract : Machine Abstract Input Output} (refinement : Refinement concrete abstract)
    {inputs : List Input} {state : State} {shadow shadowLast : Abstract} {outputs : List Output}
    (hrelated : refinement.Related state shadow)
    (hrun : abstract.run shadow inputs = some (shadowLast, outputs)) :
    ∃ last, concrete.run state inputs = some (last, outputs) ∧
      refinement.Related last shadowLast := by
  induction inputs generalizing state shadow outputs with
  | nil =>
    cases hrun
    exact ⟨state, rfl, hrelated⟩
  | cons input inputs ih =>
    obtain ⟨⟨shadowNext, output⟩, hstep, hrest⟩ := Option.bind_eq_some_iff.mp hrun
    obtain ⟨⟨shadowLast', outputs'⟩, hlast, hpure⟩ := Option.bind_eq_some_iff.mp hrest
    cases hpure
    obtain ⟨next, hnext, hrelated'⟩ :=
      refinement.step state shadow input shadowNext output hrelated hstep
    obtain ⟨last, hlast', hfinal⟩ := ih hrelated' hlast
    refine ⟨last, ?_, hfinal⟩
    rw [Machine.run_cons hnext, hlast']
    rfl

end

end DailyChallenge.Library
