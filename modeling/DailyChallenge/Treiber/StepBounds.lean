import Mathlib
import DailyChallenge.Treiber.Delivery

/-!
# The steps of producers and consumers

A consumer spins as long as `done` is not set, so the steps of a run of the test have no bound; but
those of the producers do (`producerSteps_le`), and so do those of the consumers once `done` is set
(`consumerSteps_le`). The exchanges of the head that make a push fail are at most two for each
value, and a pop that finds the stack empty after `done` is the last of its consumer. Spurious
failures count twice, as everywhere.
-/

set_option autoImplicit false
set_option relaxedAutoImplicit false

namespace DailyChallenge.Treiber

open Library

/-! ### Exchanges of the head -/

section Exchanges

variable {Addr T : Type*} [DecidableEq Addr] {memory memory' : Memory Addr T} {pc pc' : Pc Addr T}
  {event : Event Addr T}

/-- The event is a successful exchange of the head. -/
def Event.exchanges : Event Addr T → Bool
  | .casPush | .casPop => true
  | .callPush _ | .new _ | .returnPush | .callPop | .readNull | .returnPop _ | .internal => false

theorem ThreadStep.head_eq (h : ThreadStep memory pc event memory' pc')
    (hevent : event.exchanges = false) : memory'.head = memory.head := by
  cases h with
  | pushCas | popCas => cases hevent
  | _ => rfl

/-- A thread that pops nothing is made stale only by an exchange of the head. -/
theorem ThreadStep.stale_le (h : ThreadStep memory pc event memory' pc') {other : Pc Addr T}
    (hother : other.operation ≠ some .pop) :
    stale memory' other ≤ stale memory other + 2 * event.exchanges.toNat := by
  cases hevent : event.exchanges with
  | true => exact stale_le_add memory memory' other
  | false =>
    have hhead := h.head_eq hevent
    cases other with
    | popLoad | popNext _ | popCas _ _ | popMove _ | retireLoad _ _ | retireLink _ _ _
    | retireCas _ _ _ | popReturn _ => exact absurd rfl hother
    | pushLink _ oldHead | pushCas _ oldHead =>
      show (if memory'.head = oldHead then 0 else 2) ≤ _
      rw [hhead]
      exact le_rfl
    | _ => exact le_rfl

/-- The exchanges of the head that a thread owes: two before that of a push, which leaves one for a
later pop, and none while it holds a value from the stack. -/
def owed : Pc Addr T → ℕ
  | .pushNew _ | .pushLoad _ | .pushLink _ _ | .pushCas _ _ => 2
  | .idle | .pushReturn | .popLoad | .popNext _ | .popCas _ _ | .popReturn none => 1
  | .popMove _ | .retireLoad _ _ | .retireLink _ _ _ | .retireCas _ _ _ | .popReturn (some _) => 0

/-- Calls of `push` and returns of a value from `pop`. -/
def Event.passes : Event Addr T → Bool
  | .callPush _ | .returnPop (some _) => true
  | .new _ | .casPush | .returnPush | .callPop | .casPop | .readNull | .returnPop none
  | .internal => false

/-- Every exchange of the head belongs to one value that enters or leaves. -/
theorem ThreadStep.owed_eq (h : ThreadStep memory pc event memory' pc') :
    owed pc' + event.exchanges.toNat = owed pc + event.passes.toNat := by
  cases h with
  | popReturn result => cases result <;> rfl
  | _ => rfl

end Exchanges

section Counts

variable {Producer Consumer Addr T : Type*}

/-- The step is a step on the stack that shows such an event. -/
def StressEvent.shows (kind : Event Addr T → Bool) : StressEvent Producer Consumer Addr T → Bool
  | .stack _ event => kind event
  | .leave _ | .setDone | .readDone _ _ | .readEmpty _ _ | .insert _ _ => false

/-- A pop returns a value. -/
def Event.returnsValue : Event Addr T → Bool
  | .returnPop (some _) => true
  | .callPush _ | .new _ | .casPush | .returnPush | .callPop | .casPop | .readNull
  | .returnPop none | .internal => false

/-- A push is called. -/
def Event.callsPush : Event Addr T → Bool
  | .callPush _ => true
  | .new _ | .casPush | .returnPush | .callPop | .casPop | .readNull | .returnPop _
  | .internal => false

theorem length_calledValues (trace : List (StressEvent Producer Consumer Addr T)) :
    (calledValues (actions trace)).length = trace.countP (StressEvent.shows Event.callsPush) := by
  induction trace using List.reverseRecOn with
  | nil => rfl
  | append_singleton trace event ih =>
    rw [actions_append, List.countP_append, ← ih]
    unfold calledValues
    rw [List.filterMap_append, List.length_append]
    congr 1
    cases event with
    | stack thread event => cases event <;> rfl
    | _ => rfl

theorem length_returnedValues (trace : List (StressEvent Producer Consumer Addr T)) :
    (returnedValues (actions trace)).length =
      trace.countP (StressEvent.shows Event.returnsValue) := by
  induction trace using List.reverseRecOn with
  | nil => rfl
  | append_singleton trace event ih =>
    rw [actions_append, List.countP_append, ← ih]
    unfold returnedValues
    rw [List.filterMap_append, List.length_append]
    congr 1
    cases event with
    | stack thread event =>
      cases event with
      | returnPop result => cases result <;> rfl
      | _ => rfl
    | _ => rfl

variable [DecidableEq Producer] [DecidableEq Consumer] [DecidableEq Addr] [DecidableEq T]
  {values : Producer → List T} {trace : List (StressEvent Producer Consumer Addr T)}
  {event : StressEvent Producer Consumer Addr T}
  {state next : StressState Producer Consumer Addr T}

/-- A step of the test is a step on the stack or leaves it alone. -/
theorem StressStep.onStack (h : StressStep state event next) :
    (∃ thread inner, event = .stack thread inner ∧ Step state.stack (thread, inner) next.stack) ∨
      (∀ kind, event.shows kind = false) ∧ next.stack = state.stack := by
  cases h with
  | callPush | push | returnPush | callPop | pop | returnNull | returnValue =>
    exact .inl ⟨_, _, rfl, ‹_›⟩
  | leave | setDone | readDone | readEmpty | insert => exact .inr ⟨fun _ ↦ rfl, rfl⟩

variable [Fintype Producer]

/-- The number of values. -/
def total (values : Producer → List T) : ℕ := ∑ producer, (values producer).length

omit [DecidableEq Addr] [DecidableEq Consumer] [DecidableEq T] in
/-- A producer that goes on without a call of `push` keeps the values it has left. -/
theorem sum_remaining_eq {producer : Producer} {pc : ProducerPc T}
    (hsame : pc.remaining = (state.producers producer).remaining) :
    ∑ other, (Function.update state.producers producer pc other).remaining.length =
      ∑ other, (state.producers other).remaining.length :=
  Finset.sum_congr rfl fun other _ ↦
    congrArg List.length (comp_update_eq _ _ hsame other)

/-- A call of `push` takes one value from those left. -/
theorem sum_remaining_le (hstep : StressStep state event next) :
    (∑ producer, (next.producers producer).remaining.length) +
        (event.shows Event.callsPush).toNat ≤
      (∑ producer, (state.producers producer).remaining.length) + 0 := by
  cases hstep with
  | callPush producer value rest stack hpc hstep =>
    refine sum_add_le_of_update producer (fun other hother ↦ ?_) (?_ : _ + _ * 0 + _ ≤ _)
    · dsimp only
      rw [Function.update_of_ne hother, Nat.add_zero]
    · dsimp only
      rw [Function.update_self, hpc]
      rfl
  | returnPush producer rest stack hpc hstep =>
    exact (sum_remaining_eq (by rw [hpc]; rfl)).le
  | leave producer hpc => exact (sum_remaining_eq (by rw [hpc]; rfl)).le
  | push producer rest inner stack hpc hinside hstep =>
    cases inner <;> first | exact le_rfl | exact hinside.elim
  | pop consumer consSet inner stack hpc hinside hstep =>
    cases inner <;> first | exact le_rfl | exact hinside.elim
  | _ => exact le_rfl

/-- No more values are pushed than there are. -/
theorem calls_le (hrun : (stressTest Consumer Addr values).Run trace state) :
    trace.countP (StressEvent.shows Event.callsPush) ≤ total values := by
  have hstart : ∀ start, (stressTest Consumer Addr values).Start start →
      ∑ producer, (start.producers producer).remaining.length ≤ total values := by
    rintro _ rfl
    exact le_rfl
  have hcost := hrun.cost_add_potential_le _ _ (fun _ ↦ 0) hstart
    fun _ _ _ _ _ ↦ sum_remaining_le
  rw [sum_map_toNat, List.map_const', List.sum_replicate, smul_zero] at hcost
  omega

/-- A pop returns nothing that was not pushed. -/
theorem returns_le (hrun : (stressTest Consumer Addr values).Run trace state) :
    trace.countP (StressEvent.shows Event.returnsValue) ≤ total values := by
  obtain ⟨shadow, entering, leaving, -, haccounts⟩ := accounts_stressTest hrun
  have hcard := congrArg Multiset.card haccounts.balance
  simp only [Multiset.card_add, Multiset.coe_card] at hcard
  rw [length_calledValues, length_returnedValues] at hcard
  have hcalls := calls_le hrun
  omega

variable [Fintype Consumer]

/-- The exchanges of the head along a run. -/
theorem exchanges_le (hrun : (stressTest Consumer Addr values).Run trace state) :
    trace.countP (StressEvent.shows Event.exchanges) ≤
      2 * total values + Fintype.card (Producer ⊕ Consumer) := by
  have hstart : ∀ start, (stressTest Consumer Addr values).Start start →
      ∑ thread, owed (start.stack.pc thread) ≤ Fintype.card (Producer ⊕ Consumer) := by
    rintro _ rfl
    simp [StressState.initial, State.initial, owed]
  have hstep : ∀ before (state : StressState Producer Consumer Addr T) event next,
      (stressTest Consumer Addr values).Run before state → StressStep state event next →
        (∑ thread, owed (next.stack.pc thread)) + (event.shows Event.exchanges).toNat ≤
          (∑ thread, owed (state.stack.pc thread)) + (event.shows Event.passes).toNat := by
    intro _ state event next _ hstep
    rcases hstep.onStack with ⟨thread, inner, rfl, hinner⟩ | ⟨hquiet, hstack⟩
    · generalize next.stack = stack at hinner
      cases hinner with
      | thread _ _ memory pc hthread =>
        refine sum_add_le_of_update thread (fun other hother ↦ ?_) (?_ : _ + _ * 0 + _ ≤ _)
        · dsimp only
          rw [Function.update_of_ne hother, Nat.add_zero]
        · dsimp only
          rw [Function.update_self]
          exact hthread.owed_eq.le
    · rw [hstack, hquiet, hquiet]
  have hcost := hrun.cost_add_potential_le _ _ _ hstart hstep
  rw [sum_map_toNat, sum_map_toNat] at hcost
  have hcalls := calls_le hrun
  have hreturns := returns_le hrun
  have hpasses : trace.countP (StressEvent.shows Event.passes) =
      trace.countP (StressEvent.shows Event.callsPush) +
        trace.countP (StressEvent.shows Event.returnsValue) := by
    rw [← sum_map_toNat, ← sum_map_toNat, ← sum_map_toNat, ← List.sum_map_add]
    refine congrArg List.sum (List.map_congr_left fun event _ ↦ ?_)
    cases event with
    | stack thread inner =>
      cases inner with
      | returnPop result => cases result <;> rfl
      | _ => rfl
    | _ => rfl
  omega

end Counts

/-! ### The producers -/

section Producers

variable {Producer Consumer Addr T : Type*} [DecidableEq Addr]

/-- The steps of the loop and of the pushes that lie ahead of a producer, with `cost` for each push
that is not the one it is in. -/
def ProducerPc.budget (cost : ℕ) : ProducerPc T → ℕ
  | .loop values => cost * values.length + 1
  | .push rest => cost * (rest.length + 1) + 1
  | .returned => 0

variable [Fintype Producer]

/-- The most steps that an operation of a producer takes among the other producers. -/
def pushCost (Producer : Type*) [Fintype Producer] : ℕ := operationCost (Fintype.card Producer - 1)

/-- The steps left to a producer. -/
def producerWork (state : StressState Producer Consumer Addr T) (producer : Producer) : ℕ :=
  (state.producers producer).budget (pushCost Producer) +
    (remaining (Fintype.card Producer - 1) (state.stack.pc (.inl producer)) +
      stale state.stack.memory (state.stack.pc (.inl producer)))

omit [DecidableEq Addr] in
theorem credit_eq (others : ℕ) (event : Event Addr T) (spurious : Bool) :
    credit others event spurious = credit others event false + 2 * spurious.toNat := by
  cases spurious <;> rfl

variable [DecidableEq Producer] [DecidableEq Consumer]
  {state : StressState Producer Consumer Addr T} {stack : State (Producer ⊕ Consumer) Addr T}
  {event : Event Addr T}

/-- A step on the stack by a producer. -/
theorem sum_producerWork_inl {producer : Producer}
    (hstep : Step state.stack (.inl producer, event) stack) {spurious : Bool}
    (hspurious : spurious = true ↔ Spurious state.stack.memory
      (state.stack.pc (.inl producer)) (stack.pc (.inl producer)))
    (pc : ProducerPc T) (hbudget : pc.budget (pushCost Producer) +
      credit (Fintype.card Producer - 1) event false ≤
        (state.producers producer).budget (pushCost Producer)) :
    (∑ other, producerWork { state with
        stack := stack
        producers := Function.update state.producers producer pc } other) + 1 ≤
      (∑ other, producerWork state other) + 2 * spurious.toNat := by
  cases hstep with
  | thread _ _ memory next hthread =>
    simp only [Function.update_self] at hspurious
    obtain ⟨slack, hstale, hcost⟩ := hthread.cost (Fintype.card Producer - 1) hspurious
    have hothers (other : Producer) (hother : other ≠ producer) :
        producerWork { state with
          stack := ⟨memory, Function.update state.stack.pc (.inl producer) next⟩
          producers := Function.update state.producers producer pc } other ≤
            producerWork state other + slack := by
      have hle := hstale (state.stack.pc (.inl other))
      simp only [producerWork, Function.update_of_ne hother,
        Function.update_of_ne (Sum.inl_injective.ne hother)]
      omega
    refine sum_add_le_of_update producer hothers ?_
    rw [credit_eq] at hcost
    simp only [producerWork, Function.update_self]
    omega

/-- A step on the stack by a consumer. -/
theorem sum_producerWork_inr (hshutdown : Shutdown state) {consumer : Consumer}
    (hstep : Step state.stack (.inr consumer, event) stack) :
    ∑ producer, producerWork { state with stack := stack } producer ≤
      (∑ producer, producerWork state producer) +
        2 * Fintype.card Producer * event.exchanges.toNat := by
  cases hstep with
  | thread _ _ memory next hthread =>
    have hwork (producer : Producer) : producerWork { state with
        stack := ⟨memory, Function.update state.stack.pc (.inr consumer) next⟩ } producer ≤
          producerWork state producer + 2 * event.exchanges.toNat := by
      have hoperation : (state.stack.pc (.inl producer)).operation ≠ some .pop := by
        rw [hshutdown.producer]
        cases state.producers producer <;> simp [ProducerPc.operation]
      have hle := hthread.stale_le hoperation
      simp only [producerWork, ne_eq, reduceCtorEq, not_false_eq_true, Function.update_of_ne]
      omega
    calc _ ≤ ∑ producer, (producerWork state producer + 2 * event.exchanges.toNat) :=
          Finset.sum_le_sum fun producer _ ↦ hwork producer
      _ = _ := by
          rw [Finset.sum_add_distrib, Finset.sum_const, Finset.card_univ, smul_eq_mul]
          ring

variable [DecidableEq T] {next : StressState Producer Consumer Addr T}
  {label : StressEvent Producer Consumer Addr T × Bool} {values : Producer → List T}

/-- What a step costs the producers and brings them. -/
theorem sum_producerWork_step (hshutdown : Shutdown state)
    (hstep : (watchedTest Consumer Addr values).Step state label next) :
    (∑ producer, producerWork next producer) + label.1.ofProducer.toNat ≤
      (∑ producer, producerWork state producer) +
        (2 * Fintype.card Producer * (label.1.shows Event.exchanges).toNat +
          2 * label.2.toNat) := by
  obtain ⟨event, spurious⟩ := label
  obtain ⟨hstep, hspurious⟩ := hstep
  cases hstep with
  | callPush producer value rest stack hpc hstep =>
    have hcost := sum_producerWork_inl hstep hspurious (.push rest) (by
      rw [hpc]
      exact le_rfl)
    exact hcost.trans (Nat.add_le_add_left (Nat.le_add_left _ _) _)
  | push producer rest inner stack hpc hinside hstep =>
    have hcost := sum_producerWork_inl hstep hspurious (.push rest) (by
      rw [hpc]
      cases inner <;> first | exact le_rfl | exact hinside.elim)
    rw [← hpc, Function.update_eq_self] at hcost
    exact hcost.trans (Nat.add_le_add_left (Nat.le_add_left _ _) _)
  | returnPush producer rest stack hpc hstep =>
    have hcost := sum_producerWork_inl hstep hspurious (.loop rest) (by
      rw [hpc]
      show pushCost Producer * rest.length + 1 + pushCost Producer ≤
        pushCost Producer * (rest.length + 1) + 1
      rw [Nat.mul_succ]
      omega)
    exact hcost.trans (Nat.add_le_add_left (Nat.le_add_left _ _) _)
  | leave producer hpc =>
    refine sum_add_le_of_update producer (fun other hother ↦ ?_) (?_ : _ + _ * 0 + _ ≤ _)
    · simp only [producerWork, Function.update_of_ne hother, Nat.add_zero, le_refl]
    · simp only [producerWork, Function.update_self, hpc, ProducerPc.budget]
      show _ + 1 ≤ _
      omega
  | callPop consumer consSet stack hpc hstep | pop consumer consSet inner stack hpc hinside hstep
  | returnNull consumer consSet stack hpc hstep
  | returnValue consumer consSet res stack hpc hstep =>
    exact (sum_producerWork_inr hshutdown hstep).trans
      (Nat.add_le_add_left (Nat.le_add_right _ _) _)
  | setDone | readDone | readEmpty | insert => exact Nat.le_add_right _ _

variable [Fintype Consumer]

/-- The most steps that all producers together take in a run without spurious failures. -/
def producerBound (Consumer : Type*) [Fintype Consumer] (values : Producer → List T) : ℕ :=
  pushCost Producer * total values + Fintype.card Producer * (pushCost Producer + 1) +
    2 * Fintype.card Producer * (2 * total values + Fintype.card (Producer ⊕ Consumer))

/-- The steps of the producers in any run. -/
theorem producerSteps_le {trace : List (StressEvent Producer Consumer Addr T × Bool)}
    (hrun : (watchedTest Consumer Addr values).Run trace state) :
    trace.countP (fun label ↦ label.1.ofProducer) ≤
      producerBound Consumer values + 2 * trace.countP Prod.snd := by
  have hstart : ∀ start, (watchedTest Consumer Addr values).Start start →
      ∑ producer, producerWork start producer ≤
        pushCost Producer * total values + Fintype.card Producer * (pushCost Producer + 1) := by
    rintro _ rfl
    have hwork (producer : Producer) :
        producerWork (.initial Consumer Addr values) producer =
          pushCost Producer * (values producer).length + (pushCost Producer + 1) := by
      show pushCost Producer * (values producer).length + 1 + (pushCost Producer + 0) = _
      omega
    simp only [hwork]
    rw [Finset.sum_add_distrib, ← Finset.mul_sum, Finset.sum_const, Finset.card_univ, smul_eq_mul]
    exact le_rfl
  have hcost := hrun.cost_add_potential_le _ _ _ hstart fun _ _ _ _ hbefore ↦
    sum_producerWork_step (shutdown_run (stressRun_of_watched hbefore))
  have hexchanges := exchanges_le (stressRun_of_watched hrun)
  rw [List.countP_map] at hexchanges
  have hraised := Nat.mul_le_mul_left (2 * Fintype.card Producer) hexchanges
  rw [sum_map_toNat, List.sum_map_add, List.sum_map_mul_left, List.sum_map_mul_left,
    sum_map_toNat, sum_map_toNat] at hcost
  have hsteps := (Nat.le_add_right _ _).trans hcost
  rw [← add_assoc] at hsteps
  exact hsteps.trans (Nat.add_le_add_right (Nat.add_le_add_left hraised _) _)

end Producers

/-! ### The consumers after `done` -/

section Consumers

variable {Producer Consumer Addr T : Type*}

/-- From the test of `done` on, a consumer that will pop no further value reads `done` and the empty
stack and returns; where the stack is not empty it may go through one more pop first. -/
def restart (cost : ℕ) (head : Option Addr) : ℕ :=
  if head = none then 2 else cost + 4

/-- What a pop leaves to its consumer: where it has read a null head, it may have read it before
another value came. -/
def popBudget (cost : ℕ) (head : Option Addr) : Pc Addr T → ℕ
  | .popReturn none => cost + restart cost head
  | _ => cost + 2

/-- The steps of the loop that lie ahead of a consumer that pops no further value, with `cost` for
each pop that is not the one it is in. -/
def ConsumerPc.budget (cost : ℕ) (head : Option Addr) (pc : Pc Addr T) : ConsumerPc T → ℕ
  | .testDone _ => restart cost head
  | .testEmpty _ => restart cost head - 1
  | .body _ => cost + 2
  | .pop _ => popBudget cost head pc
  | .insert _ _ => restart cost head + 1
  | .returned _ => 0

theorem two_le_restart (cost : ℕ) (head : Option Addr) : 2 ≤ restart cost head := by
  unfold restart
  split_ifs <;> omega

theorem restart_le (cost : ℕ) (head : Option Addr) : restart cost head ≤ cost + 4 := by
  unfold restart
  split_ifs <;> omega

theorem restart_mono {cost : ℕ} {head head' : Option Addr} (h : head = none → head' = none) :
    restart cost head' ≤ restart cost head := by
  by_cases hnull : head = none
  · rw [hnull, h hnull]
  · rw [restart.eq_def cost head, if_neg hnull]
    exact restart_le cost head'

theorem le_popBudget (cost : ℕ) (head : Option Addr) (pc : Pc Addr T) :
    cost + 2 ≤ popBudget cost head pc := by
  unfold popBudget
  split
  · exact Nat.add_le_add_left (two_le_restart cost head) cost
  · exact le_rfl

theorem popBudget_mono {cost : ℕ} {head head' : Option Addr} (h : head = none → head' = none)
    (pc : Pc Addr T) : popBudget cost head' pc ≤ popBudget cost head pc := by
  unfold popBudget
  split
  · exact Nat.add_le_add_left (restart_mono h) cost
  · exact le_rfl

theorem popBudget_le (cost : ℕ) (head : Option Addr) (pc : Pc Addr T) :
    popBudget cost head pc ≤ 2 * cost + 4 := by
  have hrestart := restart_le cost head
  unfold popBudget
  split <;> omega

theorem ConsumerPc.budget_mono {cost : ℕ} {head head' : Option Addr}
    (h : head = none → head' = none) (pc : Pc Addr T) (consumerPc : ConsumerPc T) :
    consumerPc.budget cost head' pc ≤ consumerPc.budget cost head pc := by
  cases consumerPc with
  | testDone => exact restart_mono h
  | testEmpty => exact Nat.sub_le_sub_right (restart_mono h) 1
  | body | returned => exact le_rfl
  | pop => exact popBudget_mono h pc
  | insert => exact Nat.add_le_add_right (restart_mono h) 1

theorem ConsumerPc.budget_le (cost : ℕ) (head : Option Addr) (pc : Pc Addr T)
    (consumerPc : ConsumerPc T) : consumerPc.budget cost head pc ≤ 2 * cost + 5 := by
  have hrestart := restart_le cost head
  have hpop := popBudget_le cost head pc
  cases consumerPc <;> simp only [budget] <;> omega

theorem remaining_le (others : ℕ) (pc : Pc Addr T) :
    remaining others pc ≤ operationCost others := by
  cases pc <;> simp only [remaining, operationCost] <;> omega

variable [DecidableEq Addr]

/-- A pop that is about to return nothing after a step has read a null head in it. -/
theorem ThreadStep.popBudget_eq {memory memory' : Memory Addr T} {pc pc' : Pc Addr T}
    {event : Event Addr T} (h : ThreadStep memory pc event memory' pc') (cost : ℕ) :
    popBudget cost memory'.head pc' = cost + 2 := by
  cases h with
  | popLoadNull hhead => simp only [popBudget, hhead, restart, if_true]
  | popCasFailNull oldHead newHead hhead => simp only [popBudget, hhead, restart, if_true]
  | _ => rfl

variable [Fintype Consumer]

/-- The most steps that an operation of a consumer takes among the other consumers. -/
def popCost (Consumer : Type*) [Fintype Consumer] : ℕ := operationCost (Fintype.card Consumer - 1)

/-- The steps left to a consumer that pops no further value. -/
def consumerWork (state : StressState Producer Consumer Addr T) (consumer : Consumer) : ℕ :=
  (state.consumers consumer).budget (popCost Consumer) state.stack.memory.head
      (state.stack.pc (.inr consumer)) +
    (remaining (Fintype.card Consumer - 1) (state.stack.pc (.inr consumer)) +
      stale state.stack.memory (state.stack.pc (.inr consumer)))

theorem consumerWork_le (state : StressState Producer Consumer Addr T) (consumer : Consumer) :
    consumerWork state consumer ≤ 3 * popCost Consumer + 7 := by
  have hbudget := (state.consumers consumer).budget_le (popCost Consumer)
    state.stack.memory.head (state.stack.pc (.inr consumer))
  have hremaining := remaining_le (Fintype.card Consumer - 1) (state.stack.pc (.inr consumer))
  have hstale := stale_le state.stack.memory (state.stack.pc (.inr consumer))
  rw [← popCost] at hremaining
  unfold consumerWork
  omega

variable [DecidableEq Producer] [DecidableEq Consumer]
  {state : StressState Producer Consumer Addr T} {stack : State (Producer ⊕ Consumer) Addr T}
  {event : Event Addr T}

/-- A step on the stack by a consumer after `done`. -/
theorem sum_consumerWork_inr (hshutdown : Shutdown state) {consumer : Consumer}
    (hstep : Step state.stack (.inr consumer, event) stack) {spurious : Bool}
    (hspurious : spurious = true ↔ Spurious state.stack.memory
      (state.stack.pc (.inr consumer)) (stack.pc (.inr consumer))) (gain : ℕ)
    (pc : ConsumerPc T) (hbudget : pc.budget (popCost Consumer) stack.memory.head
        (stack.pc (.inr consumer)) + credit (Fintype.card Consumer - 1) event false ≤
      (state.consumers consumer).budget (popCost Consumer) state.stack.memory.head
        (state.stack.pc (.inr consumer)) + gain) :
    (∑ other, consumerWork { state with
        stack := stack
        consumers := Function.update state.consumers consumer pc } other) + 1 ≤
      (∑ other, consumerWork state other) + (gain + 2 * spurious.toNat) := by
  have hpush : (state.stack.pc (.inr consumer)).operation ≠ some .push := by
    rw [hshutdown.consumer]
    cases state.consumers consumer <;> simp [ConsumerPc.operation]
  cases hstep with
  | thread _ _ memory next hthread =>
    simp only [Function.update_self] at hspurious hbudget
    obtain ⟨slack, hstale, hcost⟩ := hthread.cost (Fintype.card Consumer - 1) hspurious
    have hothers (other : Consumer) (hother : other ≠ consumer) :
        consumerWork { state with
          stack := ⟨memory, Function.update state.stack.pc (.inr consumer) next⟩
          consumers := Function.update state.consumers consumer pc } other ≤
            consumerWork state other + slack := by
      have hle := hstale (state.stack.pc (.inr other))
      have hmono := @ConsumerPc.budget_mono _ _ (popCost Consumer) _ _
        (fun hnull ↦ hthread.head_eq_none hnull hpush) (state.stack.pc (.inr other))
        (state.consumers other)
      simp only [consumerWork, Function.update_of_ne hother,
        Function.update_of_ne (Sum.inr_injective.ne hother)]
      omega
    refine sum_add_le_of_update consumer hothers ?_
    rw [credit_eq] at hcost
    simp only [consumerWork, Function.update_self]
    omega

omit [Fintype Consumer] in
/-- The step of the thread that takes a step on the stack. -/
theorem Step.ofThread {thread : Producer ⊕ Consumer} (h : Step state.stack (thread, event) stack) :
    ThreadStep state.stack.memory (state.stack.pc thread) event stack.memory (stack.pc thread) := by
  cases h with
  | thread _ _ memory next hthread => simpa using hthread

omit [Fintype Consumer] in
/-- A return from `pop` leaves the memory alone. -/
theorem Step.returnPop {thread : Producer ⊕ Consumer} {result : Option T}
    (h : Step state.stack (thread, .returnPop result) stack) :
    state.stack.pc thread = .popReturn result ∧ stack.memory = state.stack.memory := by
  have hthread := Step.ofThread h
  generalize state.stack.pc thread = pc at hthread ⊢
  generalize stack.memory = memory at hthread ⊢
  generalize stack.pc thread = next at hthread
  cases hthread
  exact ⟨rfl, rfl⟩

variable [DecidableEq T] {next : StressState Producer Consumer Addr T}
  {label : StressEvent Producer Consumer Addr T × Bool} {values : Producer → List T}

/-- What a step after `done` costs the consumers and brings them. -/
theorem sum_consumerWork_step (hshutdown : Shutdown state) (hdone : state.done = true)
    (hstep : (watchedTest Consumer Addr values).Step state label next) :
    (∑ consumer, consumerWork next consumer) + label.1.ofConsumer.toNat ≤
      (∑ consumer, consumerWork state consumer) +
        ((2 * popCost Consumer + 3) * (label.1.shows Event.returnsValue).toNat +
          2 * label.2.toNat) := by
  obtain ⟨event, spurious⟩ := label
  obtain ⟨hstep, hspurious⟩ := hstep
  have hjoined := hshutdown.joined hdone
  cases hstep with
  | callPush producer value rest stack hpc hstep => simp [hjoined producer] at hpc
  | push producer rest inner stack hpc hinside hstep => simp [hjoined producer] at hpc
  | returnPush producer rest stack hpc hstep => simp [hjoined producer] at hpc
  | leave producer hpc => simp [hjoined producer] at hpc
  | setDone => exact Nat.le_add_right _ _
  | readDone consumer consSet hpc =>
    refine sum_add_le_of_update consumer (fun other hother ↦ ?_) (?_ : _ + _ * 0 + _ ≤ _)
    · simp only [consumerWork, Function.update_of_ne hother, Nat.add_zero, le_refl]
    · have hrestart := two_le_restart (popCost Consumer) state.stack.memory.head
      simp only [consumerWork, Function.update_self, hpc, hdone, if_true, ConsumerPc.budget]
      show _ + 1 ≤ _
      omega
  | readEmpty consumer consSet hpc =>
    refine sum_add_le_of_update consumer (fun other hother ↦ ?_) (?_ : _ + _ * 0 + _ ≤ _)
    · simp only [consumerWork, Function.update_of_ne hother, Nat.add_zero, le_refl]
    · simp only [consumerWork, Function.update_self, hpc, Memory.empty, Option.isNone_iff_eq_none]
      show _ + 1 ≤ _
      by_cases hnull : state.stack.memory.head = none
      · simp only [hnull, if_true, ConsumerPc.budget, restart]
        omega
      · simp only [hnull, if_false, ConsumerPc.budget, restart]
        omega
  | callPop consumer consSet stack hpc hstep =>
    have hcost := sum_consumerWork_inr hshutdown hstep hspurious 0 (.pop consSet) (by
      rw [hpc]
      exact ((Step.ofThread hstep).popBudget_eq _).le)
    rw [Nat.zero_add] at hcost
    exact hcost.trans (Nat.add_le_add_left (Nat.le_add_left _ _) _)
  | pop consumer consSet inner stack hpc hinside hstep =>
    have hcost := sum_consumerWork_inr hshutdown hstep hspurious 0 (.pop consSet) (by
      have hcredit : credit (Fintype.card Consumer - 1) inner false = 0 := by
        cases inner <;> first | rfl | exact hinside.elim
      rw [hpc, hcredit]
      exact ((Step.ofThread hstep).popBudget_eq _).le.trans (le_popBudget _ _ _))
    rw [← hpc, Function.update_eq_self, Nat.zero_add] at hcost
    exact hcost.trans (Nat.add_le_add_left (Nat.le_add_left _ _) _)
  | returnNull consumer consSet stack hpc hstep =>
    obtain ⟨hpoint, hmemory⟩ := Step.returnPop hstep
    have hcost := sum_consumerWork_inr hshutdown hstep hspurious 0 (.testDone consSet) (by
      rw [hpc, hpoint, hmemory, Nat.add_zero]
      exact (Nat.add_comm _ _).le)
    rw [Nat.zero_add] at hcost
    exact hcost.trans (Nat.add_le_add_left (Nat.le_add_left _ _) _)
  | returnValue consumer consSet res stack hpc hstep =>
    obtain ⟨hpoint, hmemory⟩ := Step.returnPop hstep
    have hrestart := restart_le (popCost Consumer) state.stack.memory.head
    exact sum_consumerWork_inr hshutdown hstep hspurious ((2 * popCost Consumer + 3) * 1)
      (.insert consSet res) (by
        rw [hpc, hpoint, hmemory]
        show restart _ _ + 1 + popCost Consumer ≤ popCost Consumer + 2 + _
        omega)
  | insert consumer consSet res hpc =>
    refine sum_add_le_of_update consumer (fun other hother ↦ ?_) (?_ : _ + _ * 0 + _ ≤ _)
    · simp only [consumerWork, Function.update_of_ne hother, Nat.add_zero, le_refl]
    · simp only [consumerWork, Function.update_self, hpc, ConsumerPc.budget]
      show _ + 1 ≤ _
      omega

omit [Fintype Consumer] in
/-- `done` stays set. -/
theorem StressStep.done {event : StressEvent Producer Consumer Addr T}
    (h : StressStep state event next) (hdone : state.done = true) : next.done = true := by
  cases h <;> first | exact hdone | rfl

variable [Fintype Producer]

/-- The most steps that all consumers together take after `done` without spurious failures. -/
def consumerBound (Consumer : Type*) [Fintype Consumer] (values : Producer → List T) : ℕ :=
  Fintype.card Consumer * (3 * popCost Consumer + 7) + (2 * popCost Consumer + 3) * total values

/-- The steps of the consumers in any run after `done`. -/
theorem consumerSteps_le {before after : List (StressEvent Producer Consumer Addr T × Bool)}
    (hbefore : (watchedTest Consumer Addr values).Run before state) (hdone : state.done = true)
    (hafter : ((watchedTest Consumer Addr values).continuing state).Run after next) :
    after.countP (fun label ↦ label.1.ofConsumer) ≤
      consumerBound Consumer values + 2 * after.countP Prod.snd := by
  have hstart : ∀ start, ((watchedTest Consumer Addr values).continuing state).Start start →
      ∑ consumer, consumerWork start consumer ≤
        Fintype.card Consumer * (3 * popCost Consumer + 7) := by
    rintro _ rfl
    exact Finset.sum_le_card_nsmul _ _ _ fun consumer _ ↦ consumerWork_le state consumer
  have hdone' : ∀ {trace last},
      ((watchedTest Consumer Addr values).continuing state).Run trace last →
        last.done = true := by
    intro trace last hrun
    apply hrun.invariant
    · rintro _ rfl
      exact hdone
    · exact fun _ _ _ _ _ hdone hstep ↦ StressStep.done hstep.1 hdone
  have hcost := hafter.cost_add_potential_le _ _ _ hstart fun _ _ _ _ hbetween hstep ↦
    @sum_consumerWork_step _ _ _ _ _ _ _ _ _ _ _ _ values
      (shutdown_run (stressRun_of_watched (hbefore.append hbetween))) (hdone' hbetween) hstep
  have hreturns := returns_le (stressRun_of_watched (hbefore.append hafter))
  rw [List.countP_map, List.countP_append] at hreturns
  have hpaid := Nat.mul_le_mul_left (2 * popCost Consumer + 3)
    ((Nat.le_add_left _ _).trans hreturns)
  rw [sum_map_toNat, List.sum_map_add, List.sum_map_mul_left, List.sum_map_mul_left,
    sum_map_toNat, sum_map_toNat] at hcost
  have hsteps := (Nat.le_add_right _ _).trans hcost
  rw [← add_assoc] at hsteps
  exact hsteps.trans (Nat.add_le_add_right (Nat.add_le_add_left hpaid _) _)

end Consumers

end DailyChallenge.Treiber
