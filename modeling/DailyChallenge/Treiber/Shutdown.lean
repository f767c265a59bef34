import Mathlib
import DailyChallenge.Treiber.StressTest

/-!
# The shutdown of the stress test

A consumer stops after two reads that are not one step: `done` is set, the stack is empty. They are
enough because after `done` nobody pushes, so that a null head stays null (`Shutdown`). The
operation a thread of the stack is in is the one its loop called, which ties the program points of
the test to those of the stack.
-/

set_option autoImplicit false
set_option relaxedAutoImplicit false

namespace DailyChallenge.Treiber

open Library

/-! ### What a step of an operation can do -/

section Operation

variable {Addr T : Type*}

/-- The two operations a thread can be inside. -/
inductive Operation
  | push
  | pop

/-- The operation a program point of the stack is in. -/
def Pc.operation : Pc Addr T → Option Operation
  | .idle => none
  | .pushNew _ | .pushLoad _ | .pushLink _ _ | .pushCas _ _ | .pushReturn => some .push
  | .popLoad | .popNext _ | .popCas _ _ | .popMove _ | .retireLoad _ _ | .retireLink _ _ _
  | .retireCas _ _ _ | .popReturn _ => some .pop

/-- The operation a thread is in after an event. -/
def Event.operationAfter (before : Option Operation) : Event Addr T → Option Operation
  | .callPush _ => some .push
  | .callPop => some .pop
  | .returnPush | .returnPop _ => none
  | .new _ | .casPush | .casPop | .readNull | .internal => before

theorem Event.Inside.operationAfter {event : Event Addr T} (h : event.Inside)
    (before : Option Operation) : event.operationAfter before = before := by
  cases event <;> first | rfl | exact h.elim

variable [DecidableEq Addr] {memory memory' : Memory Addr T} {pc pc' : Pc Addr T}
  {event : Event Addr T}

theorem ThreadStep.operation_eq (h : ThreadStep memory pc event memory' pc') :
    pc'.operation = event.operationAfter pc.operation := by
  cases h <;> rfl

/-- A null head stays null at every step that is not the exchange of a push. -/
theorem ThreadStep.head_eq_none (h : ThreadStep memory pc event memory' pc')
    (hnull : memory.head = none) (hpop : pc.operation ≠ some .push) : memory'.head = none := by
  cases h with
  | pushCas => exact absurd rfl hpop
  | popCas oldHead newHead hequal =>
    rw [hnull] at hequal
    cases hequal
  | _ => exact hnull

end Operation

/-! ### The shutdown protocol -/

section Protocol

variable {Producer Consumer Addr T : Type*}

/-- The values a producer has not pushed yet. -/
def ProducerPc.remaining : ProducerPc T → List T
  | .loop values => values
  | .push rest => rest
  | .returned => []

/-- The operation a producer is in. -/
def ProducerPc.operation : ProducerPc T → Option Operation
  | .push _ => some .push
  | .loop _ | .returned => none

/-- The operation a consumer is in. -/
def ConsumerPc.operation : ConsumerPc T → Option Operation
  | .pop _ => some .pop
  | .testDone _ | .testEmpty _ | .body _ | .insert _ _ | .returned _ => none

/-- The consumer has read that `done` is set and has not gone on to another pop. -/
def ConsumerPc.SawDone : ConsumerPc T → Prop
  | .testEmpty _ | .returned _ => True
  | .testDone _ | .body _ | .pop _ | .insert _ _ => False

/-- After `done` nobody pushes, and a consumer returns after it saw the stack empty. -/
structure Shutdown (state : StressState Producer Consumer Addr T) : Prop where
  producer : ∀ producer,
    (state.stack.pc (.inl producer)).operation = (state.producers producer).operation
  consumer : ∀ consumer,
    (state.stack.pc (.inr consumer)).operation = (state.consumers consumer).operation
  joined : state.done = true → ∀ producer, state.producers producer = .returned
  sawDone : ∀ consumer, (state.consumers consumer).SawDone → state.done = true
  sawEmpty : ∀ consumer consSet, state.consumers consumer = .returned consSet →
    state.stack.memory.head = none

variable [DecidableEq Producer] [DecidableEq Consumer] [DecidableEq Addr]
  {state next : StressState Producer Consumer Addr T}

/-- A producer that has not returned takes a step on the stack. -/
theorem Shutdown.producerStep (h : Shutdown state) {producer : Producer} {event : Event Addr T}
    {stack : State (Producer ⊕ Consumer) Addr T} (pc : ProducerPc T)
    (hstep : Step state.stack (.inl producer, event) stack)
    (hactive : state.producers producer ≠ .returned)
    (hoperation : pc.operation = event.operationAfter (state.producers producer).operation) :
    Shutdown { state with
      stack := stack
      producers := Function.update state.producers producer pc } := by
  have hnotDone : state.done ≠ true := fun hdone ↦ hactive (h.joined hdone producer)
  obtain ⟨_, _, memory, next, hthread⟩ := hstep
  constructor
  case producer =>
    intro other
    by_cases hother : other = producer
    · subst hother
      simp only [Function.update_self]
      rw [hthread.operation_eq, h.producer, hoperation]
    · simp only [Function.update_of_ne hother,
        Function.update_of_ne (Sum.inl_injective.ne hother)]
      exact h.producer other
  case consumer =>
    intro consumer
    simp only [ne_eq, reduceCtorEq, not_false_eq_true, Function.update_of_ne]
    exact h.consumer consumer
  case joined => exact fun hdone ↦ absurd hdone hnotDone
  case sawDone => exact h.sawDone
  case sawEmpty =>
    intro consumer consSet hreturned
    refine absurd (h.sawDone consumer ?_) hnotDone
    rw [show state.consumers consumer = .returned consSet from hreturned]
    trivial

/-- A consumer goes to another program point, maybe with a step on the stack. -/
theorem Shutdown.consumerStep (h : Shutdown state) {consumer : Consumer} {event : Event Addr T}
    {stack : State (Producer ⊕ Consumer) Addr T} (pc : ConsumerPc T)
    (hstep : Step state.stack (.inr consumer, event) stack)
    (hoperation : pc.operation = event.operationAfter (state.consumers consumer).operation)
    (hpc : ¬ pc.SawDone) :
    Shutdown { state with
      stack := stack
      consumers := Function.update state.consumers consumer pc } := by
  obtain ⟨_, _, memory, next, hthread⟩ := hstep
  have hpush : (state.stack.pc (.inr consumer)).operation ≠ some .push := by
    rw [h.consumer]
    cases state.consumers consumer <;> simp [ConsumerPc.operation]
  constructor
  case producer =>
    intro producer
    simp only [ne_eq, reduceCtorEq, not_false_eq_true, Function.update_of_ne]
    exact h.producer producer
  case consumer =>
    intro other
    by_cases hother : other = consumer
    · subst hother
      simp only [Function.update_self]
      rw [hthread.operation_eq, h.consumer, hoperation]
    · simp only [Function.update_of_ne hother,
        Function.update_of_ne (Sum.inr_injective.ne hother)]
      exact h.consumer other
  case joined => exact h.joined
  case sawDone =>
    refine (Function.forall_update_iff _ fun _ (pc : ConsumerPc T) ↦
      pc.SawDone → state.done = true).mpr ⟨?_, ?_⟩
    · exact fun hsaw ↦ absurd hsaw hpc
    · exact fun other _ ↦ h.sawDone other
  case sawEmpty =>
    refine (Function.forall_update_iff _ fun _ (pc : ConsumerPc T) ↦
      ∀ consSet, pc = .returned consSet → memory.head = none).mpr ⟨?_, ?_⟩
    · rintro consSet rfl
      exact absurd trivial hpc
    · exact fun other _ consSet hreturned ↦
        hthread.head_eq_none (h.sawEmpty other consSet hreturned) hpush

omit [DecidableEq Producer] [DecidableEq Addr] in
/-- A consumer goes to another program point of its loop and leaves the stack alone. -/
theorem Shutdown.setConsumer (h : Shutdown state) {consumer : Consumer} {pc : ConsumerPc T}
    (hoperation : pc.operation = (state.consumers consumer).operation)
    (hdone : pc.SawDone → state.done = true)
    (hempty : ∀ consSet, pc = .returned consSet → state.stack.memory.head = none) :
    Shutdown { state with consumers := Function.update state.consumers consumer pc } := by
  constructor
  case producer => exact h.producer
  case consumer =>
    refine (Function.forall_update_iff _ fun other (pc : ConsumerPc T) ↦
      (state.stack.pc (.inr other)).operation = pc.operation).mpr ⟨?_, ?_⟩
    · rw [h.consumer, hoperation]
    · exact fun other _ ↦ h.consumer other
  case joined => exact h.joined
  case sawDone =>
    refine (Function.forall_update_iff _ fun _ (pc : ConsumerPc T) ↦
      pc.SawDone → state.done = true).mpr ⟨hdone, ?_⟩
    exact fun other _ ↦ h.sawDone other
  case sawEmpty =>
    refine (Function.forall_update_iff _ fun _ (pc : ConsumerPc T) ↦
      ∀ consSet, pc = .returned consSet → state.stack.memory.head = none).mpr ⟨hempty, ?_⟩
    exact fun other _ ↦ h.sawEmpty other

variable [DecidableEq T]

/-- Every step of the test keeps the protocol. -/
theorem Shutdown.step {event : StressEvent Producer Consumer Addr T} (h : Shutdown state)
    (hstep : StressStep state event next) : Shutdown next := by
  cases hstep with
  | callPush producer value rest stack hpc hstep =>
    exact h.producerStep _ hstep (by simp [hpc]) rfl
  | push producer rest event stack hpc hinside hstep =>
    have hnext := h.producerStep (.push rest) hstep (by simp [hpc])
      (by rw [hinside.operationAfter, hpc])
    rwa [← hpc, Function.update_eq_self] at hnext
  | returnPush producer rest stack hpc hstep =>
    exact h.producerStep _ hstep (by simp [hpc]) rfl
  | leave producer hpc =>
    refine ⟨fun other ↦ ?_, h.consumer, fun hdone other ↦ ?_, h.sawDone, h.sawEmpty⟩
    · rw [h.producer]
      by_cases hother : other = producer
      · subst hother
        simp only [Function.update_self]
        rw [hpc]
        rfl
      · simp only [Function.update_of_ne hother]
    · exact absurd (h.joined hdone producer) (by simp [hpc])
  | setDone hjoined =>
    exact ⟨h.producer, h.consumer, fun _ ↦ hjoined, fun _ _ ↦ rfl, h.sawEmpty⟩
  | readDone consumer consSet hpc =>
    apply h.setConsumer
    · rw [hpc]
      split_ifs <;> rfl
    · intro hsaw
      by_contra hdone
      rw [if_neg hdone] at hsaw
      exact hsaw
    · intro consSet' hreturned
      split_ifs at hreturned
  | readEmpty consumer consSet hpc =>
    apply h.setConsumer
    · rw [hpc]
      split_ifs <;> rfl
    · intro _
      apply h.sawDone consumer
      rw [hpc]
      trivial
    · intro consSet' hreturned
      split_ifs at hreturned with hempty
      exact Option.isNone_iff_eq_none.mp hempty
  | callPop consumer consSet stack hpc hstep => exact h.consumerStep _ hstep rfl id
  | pop consumer consSet event stack hpc hinside hstep =>
    have hnext := h.consumerStep (.pop consSet) hstep
      (by rw [hinside.operationAfter, hpc]) id
    rwa [← hpc, Function.update_eq_self] at hnext
  | returnNull consumer consSet stack hpc hstep => exact h.consumerStep _ hstep rfl id
  | returnValue consumer consSet res stack hpc hstep => exact h.consumerStep _ hstep rfl id
  | insert consumer consSet res hpc =>
    exact h.setConsumer (by rw [hpc]; rfl) False.elim fun _ hreturned ↦ nomatch hreturned

/-- The protocol holds in every reachable state of the test. -/
theorem shutdown_run {values : Producer → List T}
    {trace : List (StressEvent Producer Consumer Addr T)}
    (hrun : (stressTest Consumer Addr values).Run trace state) : Shutdown state := by
  apply hrun.invariant
  · rintro _ rfl
    refine ⟨fun _ ↦ rfl, fun _ ↦ rfl, fun hdone ↦ ?_, fun _ hsaw ↦ hsaw.elim, fun _ _ h ↦ ?_⟩
    · cases hdone
    · cases h
  · intro trace state event next _ h hstep
    exact h.step hstep

end Protocol

end DailyChallenge.Treiber
