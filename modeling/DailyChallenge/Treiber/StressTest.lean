import Mathlib
import DailyChallenge.Treiber.Stack

/-!
# Producers and consumers on one stack

`empty`, `producer`, `consumer` and the part of `main` that starts and joins them, for any number of
both. A producer pushes the values of its range in order; a consumer loops on two separate reads,
`done` and then `empty()`, and collects what it pops; `main` sets `done` once every producer has
returned. Between the call and the return of an operation a thread takes the steps of the Treiber
stack, and the threads interleave in any order.
-/

set_option autoImplicit false
set_option relaxedAutoImplicit false

namespace DailyChallenge.Treiber

open Library

/-! ### The threads -/

/-- `empty`: one load of `head`. -/
def Memory.empty {Addr T : Type*} (memory : Memory Addr T) : Bool := memory.head.isNone

/-- A step that is neither a call nor a return. -/
def Event.Inside {Addr T : Type*} : Event Addr T → Prop
  | .callPush _ | .returnPush | .callPop | .returnPop _ => False
  | .new _ | .casPush | .casPop | .readNull | .internal => True

/-- A program point of `producer`: the loop test with the values still to come, inside
`stack.push`, or returned. -/
inductive ProducerPc (T : Type*)
  | loop (values : List T)
  | push (rest : List T)
  | returned

/-- A program point of `consumer`, with `cons_set`: the load of `done`, the load in
`stack.empty()`, the loop body, inside `stack.pop`, the insertion of `*res`, or returned. -/
inductive ConsumerPc (T : Type*)
  | testDone (consSet : Finset T)
  | testEmpty (consSet : Finset T)
  | body (consSet : Finset T)
  | pop (consSet : Finset T)
  | insert (consSet : Finset T) (res : T)
  | returned (consSet : Finset T)

/-- `STRESS_TEST_N`. -/
def stressTestN : ℕ := 10000

/-- The values of `i` in `producer(stack, n)`. -/
def producerRange (n : ℕ) : List ℤ :=
  (List.range stressTestN).map fun i : ℕ ↦ (i + n * stressTestN : ℤ)

theorem mem_producerRange {n : ℕ} {value : ℤ} :
    value ∈ producerRange n ↔
      (n * stressTestN : ℤ) ≤ value ∧ value < stressTestN + n * stressTestN := by
  rw [producerRange, List.mem_map]
  constructor
  · rintro ⟨i, hi, rfl⟩
    have hlt := List.mem_range.mp hi
    omega
  · rintro ⟨hlow, hhigh⟩
    refine ⟨(value - n * stressTestN).toNat, List.mem_range.mpr ?_, ?_⟩ <;> omega

theorem producerRange_nodup (n : ℕ) : (producerRange n).Nodup := by
  refine List.nodup_range.map fun i j h ↦ ?_
  exact Int.ofNat_inj.mp (add_right_cancel h)

/-- The ranges of different producers share no value. -/
theorem producerRange_disjoint :
    Pairwise fun first second ↦ (producerRange first).Disjoint (producerRange second) := by
  have hlater : ∀ first second : ℕ, first < second → ∀ value : ℤ,
      value ∈ producerRange first → value ∉ producerRange second := by
    intro first second hlt value hfirst hsecond
    rw [mem_producerRange] at hfirst hsecond
    have hstep : ((first + 1) * stressTestN : ℤ) ≤ second * stressTestN := by
      exact_mod_cast Nat.mul_le_mul_right stressTestN hlt
    linarith [hfirst.2, hsecond.1, hstep]
  intro first second hne value hfirst hsecond
  rcases Nat.lt_or_gt_of_ne hne with hlt | hgt
  · exact hlater first second hlt value hfirst hsecond
  · exact hlater second first hgt value hsecond hfirst

/-- The stack, the flag `done`, and where every producer and every consumer is. -/
structure StressState (Producer Consumer Addr T : Type*) where
  stack : State (Producer ⊕ Consumer) Addr T
  done : Bool
  producers : Producer → ProducerPc T
  consumers : Consumer → ConsumerPc T

/-- What a step shows: a step on the stack by one of the threads, or a step of one of the loops. -/
inductive StressEvent (Producer Consumer Addr T : Type*)
  | stack (thread : Producer ⊕ Consumer) (event : Event Addr T)
  | leave (producer : Producer)
  | setDone
  | readDone (consumer : Consumer) (done : Bool)
  | readEmpty (consumer : Consumer) (empty : Bool)
  | insert (consumer : Consumer) (res : T)

section System

variable {Producer Consumer Addr T : Type*} [DecidableEq Producer] [DecidableEq Consumer]
  [DecidableEq Addr] [DecidableEq T]

/-- One step of one thread of the test. -/
inductive StressStep :
    StressState Producer Consumer Addr T → StressEvent Producer Consumer Addr T →
      StressState Producer Consumer Addr T → Prop
  | callPush (state : StressState Producer Consumer Addr T) (producer : Producer) (value : T)
      (rest : List T) (stack : State (Producer ⊕ Consumer) Addr T)
      (hpc : state.producers producer = .loop (value :: rest))
      (hstep : Step state.stack (.inl producer, .callPush value) stack) :
    StressStep state (.stack (.inl producer) (.callPush value))
      { state with
        stack := stack
        producers := Function.update state.producers producer (.push rest) }
  | push (state : StressState Producer Consumer Addr T) (producer : Producer) (rest : List T)
      (event : Event Addr T) (stack : State (Producer ⊕ Consumer) Addr T)
      (hpc : state.producers producer = .push rest) (hinside : event.Inside)
      (hstep : Step state.stack (.inl producer, event) stack) :
    StressStep state (.stack (.inl producer) event) { state with stack := stack }
  | returnPush (state : StressState Producer Consumer Addr T) (producer : Producer)
      (rest : List T) (stack : State (Producer ⊕ Consumer) Addr T)
      (hpc : state.producers producer = .push rest)
      (hstep : Step state.stack (.inl producer, .returnPush) stack) :
    StressStep state (.stack (.inl producer) .returnPush)
      { state with
        stack := stack
        producers := Function.update state.producers producer (.loop rest) }
  | leave (state : StressState Producer Consumer Addr T) (producer : Producer)
      (hpc : state.producers producer = .loop []) :
    StressStep state (.leave producer)
      { state with producers := Function.update state.producers producer .returned }
  | setDone (state : StressState Producer Consumer Addr T)
      (hjoined : ∀ producer, state.producers producer = .returned) :
    StressStep state .setDone { state with done := true }
  | readDone (state : StressState Producer Consumer Addr T) (consumer : Consumer)
      (consSet : Finset T) (hpc : state.consumers consumer = .testDone consSet) :
    StressStep state (.readDone consumer state.done)
      { state with
        consumers := Function.update state.consumers consumer
          (if state.done then .testEmpty consSet else .body consSet) }
  | readEmpty (state : StressState Producer Consumer Addr T) (consumer : Consumer)
      (consSet : Finset T) (hpc : state.consumers consumer = .testEmpty consSet) :
    StressStep state (.readEmpty consumer state.stack.memory.empty)
      { state with
        consumers := Function.update state.consumers consumer
          (if state.stack.memory.empty then .returned consSet else .body consSet) }
  | callPop (state : StressState Producer Consumer Addr T) (consumer : Consumer)
      (consSet : Finset T) (stack : State (Producer ⊕ Consumer) Addr T)
      (hpc : state.consumers consumer = .body consSet)
      (hstep : Step state.stack (.inr consumer, .callPop) stack) :
    StressStep state (.stack (.inr consumer) .callPop)
      { state with
        stack := stack
        consumers := Function.update state.consumers consumer (.pop consSet) }
  | pop (state : StressState Producer Consumer Addr T) (consumer : Consumer) (consSet : Finset T)
      (event : Event Addr T) (stack : State (Producer ⊕ Consumer) Addr T)
      (hpc : state.consumers consumer = .pop consSet) (hinside : event.Inside)
      (hstep : Step state.stack (.inr consumer, event) stack) :
    StressStep state (.stack (.inr consumer) event) { state with stack := stack }
  | returnNull (state : StressState Producer Consumer Addr T) (consumer : Consumer)
      (consSet : Finset T) (stack : State (Producer ⊕ Consumer) Addr T)
      (hpc : state.consumers consumer = .pop consSet)
      (hstep : Step state.stack (.inr consumer, .returnPop none) stack) :
    StressStep state (.stack (.inr consumer) (.returnPop none))
      { state with
        stack := stack
        consumers := Function.update state.consumers consumer (.testDone consSet) }
  | returnValue (state : StressState Producer Consumer Addr T) (consumer : Consumer)
      (consSet : Finset T) (res : T) (stack : State (Producer ⊕ Consumer) Addr T)
      (hpc : state.consumers consumer = .pop consSet)
      (hstep : Step state.stack (.inr consumer, .returnPop (some res)) stack) :
    StressStep state (.stack (.inr consumer) (.returnPop (some res)))
      { state with
        stack := stack
        consumers := Function.update state.consumers consumer (.insert consSet res) }
  | insert (state : StressState Producer Consumer Addr T) (consumer : Consumer)
      (consSet : Finset T) (res : T)
      (hpc : state.consumers consumer = .insert consSet res) :
    StressStep state (.insert consumer res)
      { state with
        consumers := Function.update state.consumers consumer (.testDone (insert res consSet)) }

/-- A new stack, `done` false, every producer before its first value and every consumer before its
first test. -/
def StressState.initial (Consumer Addr : Type*) {Producer T : Type*}
    (values : Producer → List T) : StressState Producer Consumer Addr T :=
  ⟨.initial _ _ _, false, fun producer ↦ .loop (values producer), fun _ ↦ .testDone ∅⟩

/-- The test, with the range of each producer. -/
def stressTest (Consumer Addr : Type*) [DecidableEq Consumer] [DecidableEq Addr]
    (values : Producer → List T) :
    TransitionSystem (StressState Producer Consumer Addr T)
      (StressEvent Producer Consumer Addr T) where
  Start state := state = .initial Consumer Addr values
  Step := StressStep

end System

end DailyChallenge.Treiber
