import Mathlib

/-!
# Labelled transition systems, their runs, and simulation

A `TransitionSystem` has a set of start states and a labelled step relation. A `Run` carries the
labels of its steps in the order they were taken, so that a statement about a history is a
statement about the trace. `Run.traceInvariant` packages the induction over a run once.
`Deterministic.prefix_of_final` is for systems that halt: a run that ends where no step is possible
contains all others. `Deterministic.segmentInvariant` is about what follows a point of a run.
`Simulation` is forward simulation along a partial view of the labels: a step whose label the view
hides leaves the abstract state alone, every other step is one abstract step. `Simulation.run`
carries it from steps to runs.
-/

set_option autoImplicit false
set_option relaxedAutoImplicit false

namespace DailyChallenge.Library

/-- A labelled transition system: the states it may start in and the steps it may take. -/
structure TransitionSystem (State Label : Type*) where
  Start : State → Prop
  Step : State → Label → State → Prop

namespace TransitionSystem

variable {State Label : Type*} {system : TransitionSystem State Label}

/-- A run from a start state, with the labels of its steps in the order they were taken. -/
inductive Run (system : TransitionSystem State Label) : List Label → State → Prop
  | start {state : State} : system.Start state → Run system [] state
  | step {trace : List Label} {state next : State} {label : Label} :
    Run system trace state → system.Step state label next → Run system (trace ++ [label]) next

/-- A predicate on the trace and the state that holds at every start and survives every step of a
run holds along every run. -/
theorem Run.traceInvariant {holds : List Label → State → Prop}
    (hstart : ∀ state, system.Start state → holds [] state)
    (hstep : ∀ trace state label next, system.Run trace state → holds trace state →
      system.Step state label next → holds (trace ++ [label]) next)
    {trace : List Label} {state : State} (hrun : system.Run trace state) : holds trace state := by
  induction hrun with
  | start h => exact hstart _ h
  | step hbefore h ih => exact hstep _ _ _ _ hbefore ih h

/-- An invariant of the state alone. -/
theorem Run.invariant {holds : State → Prop}
    (hstart : ∀ state, system.Start state → holds state)
    (hstep : ∀ trace state label next, system.Run trace state → holds state →
      system.Step state label next → holds next)
    {trace : List Label} {state : State} (hrun : system.Run trace state) : holds state := by
  induction hrun with
  | start h => exact hstart _ h
  | step hbefore h ih => exact hstep _ _ _ _ hbefore ih h

/-- The last step of a run. -/
theorem Run.lastStep {trace : List Label} {label : Label} {next : State}
    (hrun : system.Run (trace ++ [label]) next) :
    ∃ state, system.Run trace state ∧ system.Step state label next := by
  generalize hwhole : trace ++ [label] = whole at hrun
  cases hrun with
  | start => simp at hwhole
  | step hbefore hstep =>
    obtain ⟨rfl, hlabel⟩ := List.append_inj' hwhole rfl
    obtain rfl := List.singleton_inj.mp hlabel
    exact ⟨_, hbefore, hstep⟩

/-- A run up to any point of its trace. -/
theorem Run.upTo {before after : List Label} {state : State}
    (hrun : system.Run (before ++ after) state) : ∃ middle, system.Run before middle := by
  induction after using List.reverseRecOn generalizing state with
  | nil => exact ⟨state, by simpa using hrun⟩
  | append_singleton after label ih =>
    rw [← List.append_assoc] at hrun
    obtain ⟨middle, hmiddle, -⟩ := hrun.lastStep
    exact ih hmiddle

/-- The same steps from one state on. -/
def continuing (system : TransitionSystem State Label) (state : State) :
    TransitionSystem State Label where
  Start other := state = other
  Step := system.Step

/-- A run and what follows it. -/
theorem Run.append {before after : List Label} {middle state : State}
    (hbefore : system.Run before middle) (hafter : (system.continuing middle).Run after state) :
    system.Run (before ++ after) state := by
  induction hafter with
  | start h =>
    obtain rfl : middle = _ := h
    rwa [List.append_nil]
  | step _ hstep ih =>
    rw [← List.append_assoc]
    exact ih.step hstep

/-- One start, and at most one step from every state. -/
structure Deterministic (system : TransitionSystem State Label) : Prop where
  start : ∀ first second, system.Start first → system.Start second → first = second
  step : ∀ state label next label' next', system.Step state label next →
    system.Step state label' next' → label = label' ∧ next = next'

/-- Two runs of a deterministic system of the same length are the same. -/
theorem Deterministic.run_eq (h : Deterministic system) {trace trace' : List Label}
    {state state' : State} (hrun : system.Run trace state) (hrun' : system.Run trace' state')
    (hlength : trace.length = trace'.length) : trace = trace' ∧ state = state' := by
  induction hrun generalizing trace' state' with
  | start hstart =>
    cases hrun' with
    | start hstart' => exact ⟨rfl, h.start _ _ hstart hstart'⟩
    | step => simp at hlength
  | step _ hstep ih =>
    cases hrun' with
    | start => simp at hlength
    | step hbefore' hstep' =>
      obtain ⟨rfl, rfl⟩ := ih hbefore' (by simpa using hlength)
      obtain ⟨rfl, rfl⟩ := h.step _ _ _ _ _ hstep hstep'
      exact ⟨rfl, rfl⟩

/-- A run to a state without steps contains every run of a deterministic system: the system halts.
-/
theorem Deterministic.prefix_of_final (h : Deterministic system) {trace trace' : List Label}
    {final state : State} (hrun : system.Run trace final)
    (hfinal : ∀ label next, ¬ system.Step final label next) (hrun' : system.Run trace' state) :
    trace' <+: trace := by
  induction hrun' with
  | start => exact List.nil_prefix
  | @step trace' state next label hbefore hstep ih =>
    obtain ⟨rest, rfl⟩ := ih
    cases rest with
    | nil =>
      rw [List.append_nil] at hrun
      obtain ⟨-, rfl⟩ := h.run_eq hbefore hrun rfl
      exact absurd hstep (hfinal label next)
    | cons label' rest =>
      rw [List.append_cons] at hrun
      obtain ⟨middle, hmiddle⟩ := hrun.upTo
      obtain ⟨hsame, -⟩ := h.run_eq (hbefore.step hstep) hmiddle (by simp)
      rw [hsame]
      exact ⟨rest, List.append_assoc _ _ _⟩

/-- A predicate on what follows a point of a run: one run leads to the point, so the predicate has
to hold there with nothing after it, and survive every step. -/
theorem Deterministic.segmentInvariant (h : Deterministic system) {before : List Label}
    {middle : State} (hmiddle : system.Run before middle) {holds : List Label → State → Prop}
    (hstart : holds [] middle)
    (hstep : ∀ between state label next, system.Run (before ++ between) state →
      holds between state → system.Step state label next → holds (between ++ [label]) next)
    {between : List Label} {last : State} (hrun : system.Run (before ++ between) last) :
    holds between last := by
  induction between using List.reverseRecOn generalizing last with
  | nil =>
    rw [List.append_nil] at hrun
    obtain ⟨-, rfl⟩ := h.run_eq hmiddle hrun rfl
    exact hstart
  | append_singleton between label ih =>
    rw [← List.append_assoc] at hrun
    obtain ⟨state, hstate, hlast⟩ := hrun.lastStep
    exact hstep _ _ _ _ hstate (ih hstate) hlast

end TransitionSystem

/-- A forward simulation of a concrete system by an abstract one. The view of a label is the
abstract label of the step, or `none` for a step the abstract system does not take. -/
structure Simulation {State Label AbstractState AbstractLabel : Type*}
    (concrete : TransitionSystem State Label)
    (abstract : TransitionSystem AbstractState AbstractLabel)
    (view : Label → Option AbstractLabel) where
  Related : State → AbstractState → Prop
  start : ∀ state, concrete.Start state → ∃ shadow, abstract.Start shadow ∧ Related state shadow
  silent : ∀ state shadow label next, Related state shadow → concrete.Step state label next →
    view label = none → Related next shadow
  visible : ∀ state shadow label next seen, Related state shadow →
    concrete.Step state label next → view label = some seen →
      ∃ shadowNext, abstract.Step shadow seen shadowNext ∧ Related next shadowNext

/-- Every run of the concrete system is matched by a run of the abstract system over the visible
part of its trace, ending in a related state. -/
theorem Simulation.run {State Label AbstractState AbstractLabel : Type*}
    {concrete : TransitionSystem State Label}
    {abstract : TransitionSystem AbstractState AbstractLabel}
    {view : Label → Option AbstractLabel} (simulation : Simulation concrete abstract view)
    {trace : List Label} {state : State} (hrun : concrete.Run trace state) :
    ∃ shadow, abstract.Run (trace.filterMap view) shadow ∧ simulation.Related state shadow := by
  induction hrun with
  | start h =>
    obtain ⟨shadow, hshadow, hrelated⟩ := simulation.start _ h
    exact ⟨shadow, .start hshadow, hrelated⟩
  | @step trace state next label _ h ih =>
    obtain ⟨shadow, hshadow, hrelated⟩ := ih
    rw [List.filterMap_append]
    cases hview : view label with
    | none =>
      refine ⟨shadow, ?_, simulation.silent _ _ _ _ hrelated h hview⟩
      simpa [hview] using hshadow
    | some seen =>
      obtain ⟨shadowNext, habstract, hnext⟩ :=
        simulation.visible _ _ _ _ _ hrelated h hview
      refine ⟨shadowNext, ?_, hnext⟩
      simpa [hview] using hshadow.step habstract

end DailyChallenge.Library
