import Mathlib
import DailyChallenge.Library.Execution
import DailyChallenge.Treiber.StepBounds

/-!
# The stress test terminates

Under a scheduler that leaves out no thread forever, every execution with finitely many spurious
failures comes to the end of all threads (`eventually_finished`): the producers return, then `main`
sets `done`, then the consumers return. A thread that has a step of its own waits for no other, so
an execution that has come to the end of all threads left out none (`Fair.of_finished`).
-/

set_option autoImplicit false
set_option relaxedAutoImplicit false

namespace DailyChallenge.Treiber

open Library

variable {Producer Consumer Addr T : Type*} [DecidableEq Producer] [DecidableEq Consumer]
  [DecidableEq Addr] [DecidableEq T] {values : Producer → List T}

/-! ### Fair executions -/

/-- A consumer that has left its loop. -/
def ConsumerPc.HasReturned : ConsumerPc T → Prop
  | .returned _ => True
  | .testDone _ | .testEmpty _ | .body _ | .pop _ | .insert _ _ => False

/-- A thread that is not at its end and waits for no other: `main` waits for the producers. -/
def Waiting (state : StressState Producer Consumer Addr T) : Actor Producer Consumer → Prop
  | .producer producer => state.producers producer ≠ .returned
  | .main => (∀ producer, state.producers producer = .returned) ∧ state.done = false
  | .consumer consumer => ¬ (state.consumers consumer).HasReturned

/-- No thread is left out forever, and an exchange fails without a reason only finitely often. -/
structure Fair (execution : Execution (watchedTest Consumer Addr values)) : Prop where
  step : ∀ actor n, Waiting (execution.state n) actor →
    ∃ m, n ≤ m ∧ ∃ label, execution.label m = some label ∧ label.1.actor = actor
  spurious : ∃ bound, ∀ n, (execution.trace n).countP Prod.snd ≤ bound

/-- All threads have left their loops. -/
def Finished (state : StressState Producer Consumer Addr T) (consSets : Consumer → Finset T) :
    Prop :=
  (∀ producer, state.producers producer = .returned) ∧
    ∀ consumer, state.consumers consumer = .returned (consSets consumer)

variable {execution : Execution (watchedTest Consumer Addr values)}
  {state next : StressState Producer Consumer Addr T}
  {event : StressEvent Producer Consumer Addr T}

/-- A step of another thread leaves a producer where it is. -/
theorem StressStep.producers_eq (h : StressStep state event next) {producer : Producer}
    (hactor : event.actor ≠ .producer producer) :
    next.producers producer = state.producers producer := by
  have hother : ∀ {moved : Producer} (pc : ProducerPc T),
      Actor.producer moved ≠ (.producer producer : Actor Producer Consumer) →
        Function.update state.producers moved pc producer = state.producers producer := by
    intro moved pc hmoved
    rw [Function.update_of_ne]
    rintro rfl
    exact hmoved rfl
  cases h with
  | callPush | returnPush | leave => exact hother _ hactor
  | _ => rfl

/-- A producer that takes a step is not at its end. -/
theorem StressStep.producer_ne (h : StressStep state event next) {producer : Producer}
    (hactor : event.actor = .producer producer) : state.producers producer ≠ .returned := by
  cases h with
  | callPush _ _ _ _ hpc | push _ _ _ _ hpc | returnPush _ _ _ hpc | leave _ hpc =>
    cases hactor
    simp [hpc]
  | _ => cases hactor

theorem StressStep.producer_returned (h : StressStep state event next) {producer : Producer}
    (hreturned : state.producers producer = .returned) :
    next.producers producer = .returned := by
  by_cases hactor : event.actor = .producer producer
  · exact absurd hreturned (h.producer_ne hactor)
  · rw [h.producers_eq hactor, hreturned]

/-- A step of another thread leaves a consumer where it is. -/
theorem StressStep.consumers_eq (h : StressStep state event next) {consumer : Consumer}
    (hactor : event.actor ≠ .consumer consumer) :
    next.consumers consumer = state.consumers consumer := by
  have hother : ∀ {moved : Consumer} (pc : ConsumerPc T),
      Actor.consumer moved ≠ (.consumer consumer : Actor Producer Consumer) →
        Function.update state.consumers moved pc consumer = state.consumers consumer := by
    intro moved pc hmoved
    rw [Function.update_of_ne]
    rintro rfl
    exact hmoved rfl
  cases h with
  | readDone | readEmpty | callPop | returnNull | returnValue | insert => exact hother _ hactor
  | _ => rfl

/-- A consumer that takes a step is not at its end. -/
theorem StressStep.not_hasReturned (h : StressStep state event next) {consumer : Consumer}
    (hactor : event.actor = .consumer consumer) : ¬ (state.consumers consumer).HasReturned := by
  cases h with
  | readDone _ _ hpc | readEmpty _ _ hpc | callPop _ _ _ hpc | pop _ _ _ _ hpc
  | returnNull _ _ _ hpc | returnValue _ _ _ _ hpc | insert _ _ _ hpc =>
    cases hactor
    rw [hpc]
    exact id
  | _ => cases hactor

theorem StressStep.consumer_returned (h : StressStep state event next) {consumer : Consumer}
    (hreturned : (state.consumers consumer).HasReturned) :
    (next.consumers consumer).HasReturned := by
  by_cases hactor : event.actor = .consumer consumer
  · exact absurd hreturned (h.not_hasReturned hactor)
  · rwa [h.consumers_eq hactor]

omit [DecidableEq T] in
theorem ConsumerPc.HasReturned.exists_consSet {pc : ConsumerPc T} (h : pc.HasReturned) :
    ∃ consSet, pc = .returned consSet := by
  cases pc with
  | returned consSet => exact ⟨consSet, rfl⟩
  | _ => exact h.elim

variable [Fintype Producer] [Fintype Consumer]

/-- The producers come to their ends. -/
theorem Fair.producers (hfair : Fair execution) :
    ∃ n, ∀ producer, (execution.state n).producers producer = .returned := by
  obtain ⟨bound, hspurious⟩ := hfair.spurious
  have hsteps : ∀ n, (execution.trace n).countP (fun label ↦ label.1.ofProducer) ≤
      producerBound Consumer values + 2 * bound := fun n ↦
    (producerSteps_le (execution.run n)).trans
      (Nat.add_le_add_left (Nat.mul_le_mul_left 2 (hspurious n)) _)
  refine execution.eventually_all (fun producer state ↦ state.producers producer = .returned)
    (fun producer n m hle h ↦ ?_) fun producer ↦ ?_
  · exact execution.stays (fun state ↦ state.producers producer = .returned)
      (fun _ _ hreturned hstep ↦ hstep.1.producer_returned hreturned) hle h
  · refine execution.eventually _ hsteps (fun state ↦ state.producers producer = .returned)
      fun n hactive ↦ ?_
    obtain ⟨m, hle, label, hlabel, hactor⟩ := hfair.step (.producer producer) n hactive
    exact ⟨m, hle, label, hlabel, by rw [StressEvent.ofProducer, hactor]⟩

/-- Then `main` sets `done`. -/
theorem Fair.done (hfair : Fair execution) : ∃ n, (execution.state n).done = true := by
  obtain ⟨n, hjoined⟩ := hfair.producers
  by_contra hnever
  rw [not_exists] at hnever
  obtain ⟨m, -, label, hlabel, hactor⟩ :=
    hfair.step .main n ⟨hjoined, Bool.eq_false_of_not_eq_true (hnever n)⟩
  have hstep := (execution.step m label hlabel).1
  have hdone := hnever (m + 1)
  generalize execution.state (m + 1) = next at hstep hdone
  obtain ⟨event, spurious⟩ := label
  cases hstep with
  | setDone => exact hdone rfl
  | _ => cases hactor

/-- After that the consumers come to their ends. -/
theorem Fair.consumers (hfair : Fair execution) :
    ∃ n, (execution.state n).done = true ∧
      ∀ consumer, ((execution.state n).consumers consumer).HasReturned := by
  obtain ⟨start, hdone⟩ := hfair.done
  obtain ⟨bound, hspurious⟩ := hfair.spurious
  have hsteps : ∀ n, ((execution.fromMoment start).trace n).countP
      (fun label ↦ label.1.ofConsumer) ≤ consumerBound Consumer values + 2 * bound := by
    intro n
    have hlater := hspurious (start + n)
    rw [execution.trace_add, List.countP_append] at hlater
    exact (consumerSteps_le (execution.run start) hdone
      ((execution.fromMoment start).run n)).trans (Nat.add_le_add_left
        (Nat.mul_le_mul_left 2 ((Nat.le_add_left _ _).trans hlater)) _)
  have hagain : ∀ consumer n,
      ¬ (((execution.fromMoment start).state n).consumers consumer).HasReturned →
        ∃ m, n ≤ m ∧ ∃ label, (execution.fromMoment start).label m = some label ∧
          label.1.ofConsumer = true := by
    intro consumer n hactive
    obtain ⟨m, hle, label, hlabel, hactor⟩ := hfair.step (.consumer consumer) (start + n) hactive
    obtain ⟨later, rfl⟩ := Nat.exists_eq_add_of_le ((Nat.le_add_right start n).trans hle)
    exact ⟨later, Nat.le_of_add_le_add_left hle, label, hlabel, by
      rw [StressEvent.ofConsumer, hactor]⟩
  obtain ⟨n, hreturned⟩ := (execution.fromMoment start).eventually_all
    (fun consumer state ↦ (state.consumers consumer).HasReturned)
    (fun consumer _ _ hle h ↦ (execution.fromMoment start).stays
      (fun state ↦ (state.consumers consumer).HasReturned)
      (fun _ _ hreturned hstep ↦ StressStep.consumer_returned hstep.1 hreturned) hle h)
    fun consumer ↦ (execution.fromMoment start).eventually _ hsteps
      (fun state ↦ (state.consumers consumer).HasReturned) (hagain consumer)
  refine ⟨start + n, ?_, hreturned⟩
  exact execution.stays (fun state ↦ state.done = true)
    (fun _ _ hdone hstep ↦ StressStep.done hstep.1 hdone) (Nat.le_add_right start n) hdone

omit [Fintype Producer] [Fintype Consumer] in
/-- A thread that waits for no other is not at its end before it has stepped. -/
theorem StressStep.waiting (h : StressStep state event next) {actor : Actor Producer Consumer}
    (hactor : event.actor ≠ actor) (hwaiting : Waiting state actor) : Waiting next actor := by
  cases actor with
  | producer producer =>
    show next.producers producer ≠ .returned
    rw [h.producers_eq hactor]
    exact hwaiting
  | main =>
    refine ⟨fun producer ↦ h.producer_returned (hwaiting.1 producer), ?_⟩
    cases h with
    | setDone => exact absurd rfl hactor
    | _ => exact hwaiting.2
  | consumer consumer =>
    show ¬ (next.consumers consumer).HasReturned
    rw [h.consumers_eq hactor]
    exact hwaiting

omit [Fintype Producer] [Fintype Consumer] in
/-- An execution that has come to the end of all threads left out none. -/
theorem Fair.of_finished {last : ℕ} {consSets : Consumer → Finset T}
    (hfinished : Finished (execution.state last) consSets)
    (hdone : (execution.state last).done = true)
    (hspurious : ∃ bound, ∀ n, (execution.trace n).countP Prod.snd ≤ bound) : Fair execution := by
  refine ⟨fun actor n hwaiting ↦ ?_, hspurious⟩
  by_contra hnever
  have hlater : ∀ m, n ≤ m → Waiting (execution.state m) actor := by
    intro m hle
    induction m, hle using Nat.le_induction with
    | base => exact hwaiting
    | succ m hle ih =>
      cases hlabel : execution.label m with
      | none => rwa [execution.idle m hlabel]
      | some label =>
        exact (execution.step m label hlabel).1.waiting
          (fun hactor ↦ hnever ⟨m, hle, label, hlabel, hactor⟩) ih
  have hwaits := hlater (max n last) (le_max_left n last)
  have hle := le_max_right n last
  cases actor with
  | producer producer =>
    exact hwaits (execution.stays (fun state ↦ state.producers producer = .returned)
      (fun _ _ hreturned hstep ↦ hstep.1.producer_returned hreturned) hle (hfinished.1 producer))
  | main =>
    have hset := execution.stays (fun state ↦ state.done = true)
      (fun _ _ hdone hstep ↦ StressStep.done hstep.1 hdone) hle hdone
    exact Bool.false_ne_true (hwaits.2.symm.trans hset)
  | consumer consumer =>
    refine hwaits (execution.stays (fun state ↦ (state.consumers consumer).HasReturned)
      (fun _ _ hreturned hstep ↦ StressStep.consumer_returned hstep.1 hreturned) hle ?_)
    rw [hfinished.2 consumer]
    trivial

/-- In every fair execution all threads come to their ends. -/
theorem eventually_finished (hfair : Fair execution) :
    ∃ n consSets, Finished (execution.state n) consSets := by
  obtain ⟨n, hdone, hreturned⟩ := hfair.consumers
  choose consSets hconsSets using fun consumer ↦ (hreturned consumer).exists_consSet
  exact ⟨n, consSets,
    (shutdown_run (stressRun_of_watched (execution.run n))).joined hdone, hconsSets⟩

/-- Two producers and two consumers that take turns come to their ends. -/
theorem eventually_finished_roundRobin :
    ∃ n consSets, Finished (roundRobinTest.state n) consSets := by
  have hfinished : Finished (roundRobinTest.state 150) fourSets :=
    ⟨fun producer ↦ ProducerPc.eq_returned (by revert producer; decide +kernel),
      fun consumer ↦ ConsumerPc.eq_returned (by revert consumer; decide +kernel)⟩
  exact eventually_finished (Fair.of_finished hfinished (by decide +kernel)
    ⟨0, fun n ↦ (scheduledTest_spurious fourValues turns n).le⟩)

end DailyChallenge.Treiber
