import Mathlib
import DailyChallenge.Library.Execution
import DailyChallenge.Treiber.Progress
import DailyChallenge.Treiber.StressTest

/-!
# Scheduled executions of the test

`watchedTest` marks the spurious failures of the test, as `watchedStack` does for the stack.
`StressState.advance` is the step of a thread of the test when it is scheduled: an exchange fails
only where it has to, a new node takes the address that the schedule gives it, and a thread that
cannot step does nothing. Its steps are steps of the test (`StressState.advance_sound`), so every
schedule gives an execution (`scheduledTest`) whose states can be computed. `roundRobinTest` has two
producers and two consumers that take turns.
-/

set_option autoImplicit false
set_option relaxedAutoImplicit false

namespace DailyChallenge.Treiber

open Library

/-! ### Who takes a step -/

/-- The threads of the test. -/
inductive Actor (Producer Consumer : Type*)
  | producer (producer : Producer)
  | main
  | consumer (consumer : Consumer)
deriving DecidableEq

section Watched

variable {Producer Consumer Addr T : Type*}

/-- The thread that takes a step. -/
def StressEvent.actor : StressEvent Producer Consumer Addr T → Actor Producer Consumer
  | .stack (.inl producer) _ | .leave producer => .producer producer
  | .setDone => .main
  | .stack (.inr consumer) _ | .readDone consumer _ | .readEmpty consumer _ | .insert consumer _ =>
    .consumer consumer

/-- The step of a producer. -/
def StressEvent.ofProducer (event : StressEvent Producer Consumer Addr T) : Bool :=
  match event.actor with
  | .producer _ => true
  | .main | .consumer _ => false

/-- The step of a consumer. -/
def StressEvent.ofConsumer (event : StressEvent Producer Consumer Addr T) : Bool :=
  match event.actor with
  | .consumer _ => true
  | .producer _ | .main => false

/-- The step is a spurious failure of an exchange. -/
def SpuriousStep (state : StressState Producer Consumer Addr T) :
    StressEvent Producer Consumer Addr T → StressState Producer Consumer Addr T → Prop
  | .stack thread _, next =>
    Spurious state.stack.memory (state.stack.pc thread) (next.stack.pc thread)
  | .leave _, _ | .setDone, _ | .readDone _ _, _ | .readEmpty _ _, _ | .insert _ _, _ => False

variable [DecidableEq Producer] [DecidableEq Consumer] [DecidableEq Addr] [DecidableEq T]

/-- The test, with a mark at every spurious failure. -/
def watchedTest (Consumer Addr : Type*) [DecidableEq Consumer] [DecidableEq Addr]
    (values : Producer → List T) :
    TransitionSystem (StressState Producer Consumer Addr T)
      (StressEvent Producer Consumer Addr T × Bool) where
  Start := (stressTest Consumer Addr values).Start
  Step state label next := StressStep state label.1 next ∧
    (label.2 = true ↔ SpuriousStep state label.1 next)

variable {values : Producer → List T} {trace : List (StressEvent Producer Consumer Addr T × Bool)}
  {state next : StressState Producer Consumer Addr T}

/-- A watched run without its marks. -/
theorem stressRun_of_watched (hrun : (watchedTest Consumer Addr values).Run trace state) :
    (stressTest Consumer Addr values).Run (trace.map Prod.fst) state := by
  induction hrun with
  | start h => exact .start h
  | step _ hstep ih =>
    rw [List.map_append]
    exact ih.step hstep.1

end Watched

/-! ### One thread inside an operation -/

section Thread

variable {Addr T : Type*} [DecidableEq Addr]

/-- The next step of a thread inside `push` or `pop`. -/
def Pc.advance (memory : Memory Addr T) (fresh : Addr) :
    Pc Addr T → Option (Event Addr T × Memory Addr T × Pc Addr T)
  | .idle => none
  | .pushNew val =>
    match memory.heap fresh with
    | none => some (.new fresh, memory.new fresh val, .pushLoad fresh)
    | some _ => none
  | .pushLoad newHead => some (.internal, memory, .pushLink newHead memory.head)
  | .pushLink newHead oldHead =>
    match memory.link newHead with
    | none => none
    | some _ => some (.internal, memory.setNext newHead oldHead, .pushCas newHead oldHead)
  | .pushCas newHead oldHead =>
    if memory.head = oldHead then
      some (.casPush, { memory with head := some newHead }, .pushReturn)
    else some (.internal, memory, .pushLink newHead memory.head)
  | .pushReturn => some (.returnPush, memory, .idle)
  | .popLoad =>
    match memory.head with
    | none => some (.readNull, memory, .popReturn none)
    | some oldHead => some (.internal, memory, .popNext oldHead)
  | .popNext oldHead =>
    match memory.link oldHead with
    | none => none
    | some newHead => some (.internal, memory, .popCas oldHead newHead)
  | .popCas oldHead newHead =>
    match memory.head with
    | none => some (.readNull, memory, .popReturn none)
    | some current =>
      if current = oldHead then some (.casPop, { memory with head := newHead }, .popMove oldHead)
      else some (.internal, memory, .popNext current)
  | .popMove oldHead =>
    match memory.valueAt oldHead with
    | none => none
    | some val => some (.internal, memory.moveValue oldHead, .retireLoad oldHead val)
  | .retireLoad oldHead val => some (.internal, memory, .retireLink oldHead val memory.trash)
  | .retireLink oldHead val oldTrash =>
    match memory.link oldHead with
    | none => none
    | some _ => some (.internal, memory.setNext oldHead oldTrash, .retireCas oldHead val oldTrash)
  | .retireCas oldHead val oldTrash =>
    if memory.trash = oldTrash then
      some (.internal, { memory with trash := some oldHead }, .popReturn (some val))
    else some (.internal, memory, .retireLink oldHead val memory.trash)
  | .popReturn result => some (.returnPop result, memory, .idle)

theorem Pc.advance_sound {memory memory' : Memory Addr T} {pc pc' : Pc Addr T}
    {event : Event Addr T} {fresh : Addr}
    (h : pc.advance memory fresh = some (event, memory', pc')) :
    ThreadStep memory pc event memory' pc' := by
  cases pc with
  | idle => cases h
  | pushNew val =>
    rw [Pc.advance] at h
    split at h <;> cases h
    exact .new _ _ _ ‹_›
  | pushLoad newHead => cases h; exact .pushLoad _ _
  | pushLink newHead oldHead =>
    rw [Pc.advance] at h
    split at h <;> cases h
    exact .pushLink _ _ _ (Option.ne_none_iff_exists'.mpr ⟨_, ‹_›⟩)
  | pushCas newHead oldHead =>
    rw [Pc.advance] at h
    split at h <;> cases h
    · exact .pushCas _ _ _ ‹_›
    · exact .pushCasFail _ _ _
  | pushReturn => cases h; exact .pushReturn _
  | popLoad =>
    rw [Pc.advance] at h
    split at h <;> cases h
    · exact .popLoadNull _ ‹_›
    · exact .popLoad _ _ ‹_›
  | popNext oldHead =>
    rw [Pc.advance] at h
    split at h <;> cases h
    exact .popNext _ _ _ ‹_›
  | popCas oldHead newHead =>
    rw [Pc.advance] at h
    split at h
    · cases h
      exact .popCasFailNull _ _ _ ‹_›
    · split at h <;> cases h
      · subst_vars
        exact .popCas _ _ _ ‹_›
      · exact .popCasFail _ _ _ _ ‹_›
  | popMove oldHead =>
    rw [Pc.advance] at h
    split at h <;> cases h
    exact .popMove _ _ _ ‹_›
  | retireLoad oldHead val => cases h; exact .retireLoad _ _ _
  | retireLink oldHead val oldTrash =>
    rw [Pc.advance] at h
    split at h <;> cases h
    exact .retireLink _ _ _ _ (Option.ne_none_iff_exists'.mpr ⟨_, ‹_›⟩)
  | retireCas oldHead val oldTrash =>
    rw [Pc.advance] at h
    split at h <;> cases h
    · exact .retireCas _ _ _ _ ‹_›
    · exact .retireCasFail _ _ _ _
  | popReturn result => cases h; exact .popReturn _ _

theorem Pc.not_spurious_of_advance {memory memory' : Memory Addr T} {pc pc' : Pc Addr T}
    {event : Event Addr T} {fresh : Addr}
    (h : pc.advance memory fresh = some (event, memory', pc')) : ¬ Spurious memory pc pc' := by
  cases pc with
  | pushCas newHead oldHead =>
    rw [Pc.advance] at h
    split at h <;> cases h
    · exact id
    · assumption
  | popCas oldHead newHead =>
    rw [Pc.advance] at h
    split at h
    · cases h
      exact id
    · split at h <;> cases h
      · exact id
      · exact fun hhead ↦ ‹_ ≠ _› (Option.some.inj (‹memory.head = some _›.symm.trans hhead))
  | retireCas oldHead val oldTrash =>
    rw [Pc.advance] at h
    split at h <;> cases h
    · exact id
    · assumption
  | _ => exact id

instance (event : Event Addr T) : Decidable event.Inside :=
  match event with
  | .callPush _ | .returnPush | .callPop | .returnPop _ => inferInstanceAs (Decidable False)
  | .new _ | .casPush | .casPop | .readNull | .internal => inferInstanceAs (Decidable True)

end Thread

/-! ### The threads of the test -/

/-- A producer that has left its loop. -/
def ProducerPc.isReturned {T : Type*} : ProducerPc T → Bool
  | .returned => true
  | .loop _ | .push _ => false

theorem ProducerPc.eq_returned {T : Type*} {pc : ProducerPc T} (h : pc.isReturned = true) :
    pc = .returned := by
  cases pc <;> first | rfl | cases h

/-- The set of a consumer that has left its loop. -/
def ConsumerPc.result {T : Type*} : ConsumerPc T → Option (Finset T)
  | .returned consSet => some consSet
  | .testDone _ | .testEmpty _ | .body _ | .pop _ | .insert _ _ => none

theorem ConsumerPc.eq_returned {T : Type*} {pc : ConsumerPc T} {consSet : Finset T}
    (h : pc.result = some consSet) : pc = .returned consSet := by
  cases pc <;> cases h
  rfl

section Advance

variable {Producer Consumer Addr T : Type*} [DecidableEq Producer] [DecidableEq Consumer]
  [DecidableEq Addr] [DecidableEq T]

/-- The stack after a step of a thread. -/
def StressState.stackAfter (state : StressState Producer Consumer Addr T)
    (thread : Producer ⊕ Consumer) (memory : Memory Addr T) (pc : Pc Addr T) :
    State (Producer ⊕ Consumer) Addr T :=
  ⟨memory, Function.update state.stack.pc thread pc⟩

/-- The next step of a producer. -/
def StressState.advanceProducer (state : StressState Producer Consumer Addr T) (fresh : Addr)
    (producer : Producer) :
    Option (StressEvent Producer Consumer Addr T × StressState Producer Consumer Addr T) :=
  match state.producers producer with
  | .loop [] =>
    some (.leave producer,
      { state with producers := Function.update state.producers producer .returned })
  | .loop (value :: rest) =>
    match state.stack.pc (.inl producer) with
    | .idle => some (.stack (.inl producer) (.callPush value),
      { state with
        stack := state.stackAfter (.inl producer) state.stack.memory (.pushNew value)
        producers := Function.update state.producers producer (.push rest) })
    | _ => none
  | .push rest =>
    match (state.stack.pc (.inl producer)).advance state.stack.memory fresh with
    | none => none
    | some (.returnPush, memory, pc) => some (.stack (.inl producer) .returnPush,
      { state with
        stack := state.stackAfter (.inl producer) memory pc
        producers := Function.update state.producers producer (.loop rest) })
    | some (event, memory, pc) =>
      if event.Inside then
        some (.stack (.inl producer) event,
          { state with stack := state.stackAfter (.inl producer) memory pc })
      else none
  | .returned => none

/-- The next step of a consumer. -/
def StressState.advanceConsumer (state : StressState Producer Consumer Addr T) (fresh : Addr)
    (consumer : Consumer) :
    Option (StressEvent Producer Consumer Addr T × StressState Producer Consumer Addr T) :=
  match state.consumers consumer with
  | .testDone consSet => some (.readDone consumer state.done,
    { state with
      consumers := Function.update state.consumers consumer
        (if state.done then .testEmpty consSet else .body consSet) })
  | .testEmpty consSet => some (.readEmpty consumer state.stack.memory.empty,
    { state with
      consumers := Function.update state.consumers consumer
        (if state.stack.memory.empty then .returned consSet else .body consSet) })
  | .body consSet =>
    match state.stack.pc (.inr consumer) with
    | .idle => some (.stack (.inr consumer) .callPop,
      { state with
        stack := state.stackAfter (.inr consumer) state.stack.memory .popLoad
        consumers := Function.update state.consumers consumer (.pop consSet) })
    | _ => none
  | .pop consSet =>
    match (state.stack.pc (.inr consumer)).advance state.stack.memory fresh with
    | none => none
    | some (.returnPop none, memory, pc) => some (.stack (.inr consumer) (.returnPop none),
      { state with
        stack := state.stackAfter (.inr consumer) memory pc
        consumers := Function.update state.consumers consumer (.testDone consSet) })
    | some (.returnPop (some res), memory, pc) =>
      some (.stack (.inr consumer) (.returnPop (some res)),
        { state with
          stack := state.stackAfter (.inr consumer) memory pc
          consumers := Function.update state.consumers consumer (.insert consSet res) })
    | some (event, memory, pc) =>
      if event.Inside then
        some (.stack (.inr consumer) event,
          { state with stack := state.stackAfter (.inr consumer) memory pc })
      else none
  | .insert consSet res => some (.insert consumer res,
    { state with
      consumers := Function.update state.consumers consumer (.testDone (insert res consSet)) })
  | .returned _ => none

variable [Fintype Producer]

/-- The next step of a thread of the test. -/
def StressState.advance (state : StressState Producer Consumer Addr T) (fresh : Addr) :
    Actor Producer Consumer →
      Option (StressEvent Producer Consumer Addr T × StressState Producer Consumer Addr T)
  | .producer producer => state.advanceProducer fresh producer
  | .main =>
    if ∀ producer, (state.producers producer).isReturned = true then
      some (.setDone, { state with done := true })
    else none
  | .consumer consumer => state.advanceConsumer fresh consumer

variable {state next : StressState Producer Consumer Addr T}
  {event : StressEvent Producer Consumer Addr T} {fresh : Addr}

/-- The step is one of the test and no spurious failure. -/
def Regular (state : StressState Producer Consumer Addr T)
    (event : StressEvent Producer Consumer Addr T) (next : StressState Producer Consumer Addr T) :
    Prop :=
  StressStep state event next ∧ ¬ SpuriousStep state event next

omit [DecidableEq T] [Fintype Producer] in
/-- A step of a thread inside an operation, on the stack of the test. -/
theorem stack_of_advance {thread : Producer ⊕ Consumer} {inner : Event Addr T}
    {memory : Memory Addr T} {pc : Pc Addr T}
    (h : (state.stack.pc thread).advance state.stack.memory fresh = some (inner, memory, pc)) :
    Step state.stack (thread, inner) (state.stackAfter thread memory pc) ∧
      ¬ Spurious state.stack.memory (state.stack.pc thread)
        ((state.stackAfter thread memory pc).pc thread) := by
  refine ⟨.thread _ _ _ _ _ (Pc.advance_sound h), ?_⟩
  rw [show (state.stackAfter thread memory pc).pc thread = pc from Function.update_self _ _ _]
  exact Pc.not_spurious_of_advance h

omit [DecidableEq T] [Fintype Producer] in
/-- A call on the stack of the test. -/
theorem stack_of_call {thread : Producer ⊕ Consumer} {inner : Event Addr T} {pc : Pc Addr T}
    (hidle : state.stack.pc thread = .idle)
    (h : ThreadStep state.stack.memory .idle inner state.stack.memory pc) :
    Step state.stack (thread, inner) (state.stackAfter thread state.stack.memory pc) ∧
      ¬ Spurious state.stack.memory (state.stack.pc thread)
        ((state.stackAfter thread state.stack.memory pc).pc thread) := by
  refine ⟨.thread _ _ _ _ _ (hidle ▸ h), ?_⟩
  rw [hidle]
  exact id

omit [Fintype Producer] in
theorem StressState.advanceProducer_sound {producer : Producer}
    (h : state.advanceProducer fresh producer = some (event, next)) : Regular state event next := by
  unfold StressState.advanceProducer at h
  split at h
  case h_1 hpc =>
    cases h
    exact ⟨.leave _ _ hpc, id⟩
  case h_2 value rest hpc =>
    split at h
    case h_1 hidle =>
      cases h
      have hcall := stack_of_call hidle (.callPush _ value)
      exact ⟨.callPush _ _ _ _ _ hpc hcall.1, hcall.2⟩
    case h_2 => cases h
  case h_3 hpc =>
    split at h
    case h_1 => cases h
    case h_2 hadvance =>
      cases h
      have hstack := stack_of_advance hadvance
      exact ⟨.returnPush _ _ _ _ hpc hstack.1, hstack.2⟩
    case h_3 hadvance =>
      split_ifs at h with hinside
      cases h
      have hstack := stack_of_advance hadvance
      exact ⟨.push _ _ _ _ _ hpc hinside hstack.1, hstack.2⟩
  case h_4 => cases h

omit [Fintype Producer] in
theorem StressState.advanceConsumer_sound {consumer : Consumer}
    (h : state.advanceConsumer fresh consumer = some (event, next)) : Regular state event next := by
  unfold StressState.advanceConsumer at h
  split at h
  case h_1 hpc =>
    cases h
    exact ⟨.readDone _ _ _ hpc, id⟩
  case h_2 hpc =>
    cases h
    exact ⟨.readEmpty _ _ _ hpc, id⟩
  case h_3 hpc =>
    split at h
    case h_1 hidle =>
      cases h
      have hcall := stack_of_call hidle (.callPop _)
      exact ⟨.callPop _ _ _ _ hpc hcall.1, hcall.2⟩
    case h_2 => cases h
  case h_4 hpc =>
    split at h
    case h_1 => cases h
    case h_2 hadvance =>
      cases h
      have hstack := stack_of_advance hadvance
      exact ⟨.returnNull _ _ _ _ hpc hstack.1, hstack.2⟩
    case h_3 hadvance =>
      cases h
      have hstack := stack_of_advance hadvance
      exact ⟨.returnValue _ _ _ _ _ hpc hstack.1, hstack.2⟩
    case h_4 hadvance =>
      split_ifs at h with hinside
      cases h
      have hstack := stack_of_advance hadvance
      exact ⟨.pop _ _ _ _ _ hpc hinside hstack.1, hstack.2⟩
  case h_5 hpc =>
    cases h
    exact ⟨.insert _ _ _ _ hpc, id⟩
  case h_6 => cases h

/-- A scheduled step is a step of the test, and no spurious failure. -/
theorem StressState.advance_sound {actor : Actor Producer Consumer}
    (h : state.advance fresh actor = some (event, next)) : Regular state event next := by
  cases actor with
  | producer producer => exact advanceProducer_sound h
  | main =>
    unfold StressState.advance at h
    split_ifs at h with hreturned
    cases h
    exact ⟨.setDone _ fun producer ↦ ProducerPc.eq_returned (hreturned producer), id⟩
  | consumer consumer => exact advanceConsumer_sound h

/-- The execution of the test by a schedule: the thread at each moment, and the address of a node it
allocates. -/
def scheduledTest (values : Producer → List T) (schedule : ℕ → Actor Producer Consumer × Addr) :
    Execution (watchedTest Consumer Addr values) :=
  .scheduled _ (.initial Consumer Addr values) rfl
    (fun n state ↦ (state.advance (schedule n).2 (schedule n).1).map
      fun (event, next) ↦ ((event, false), next))
    fun n state label next h ↦ by
      obtain ⟨⟨event, _⟩, hadvance, hlabel⟩ := Option.map_eq_some_iff.mp h
      obtain ⟨rfl, rfl⟩ := Prod.mk_inj.mp hlabel
      obtain ⟨hstep, hregular⟩ := StressState.advance_sound hadvance
      exact ⟨hstep, iff_of_false nofun hregular⟩

/-- No step of a schedule is marked. -/
theorem scheduledTest_spurious (values : Producer → List T)
    (schedule : ℕ → Actor Producer Consumer × Addr) (n : ℕ) :
    ((scheduledTest values schedule).trace n).countP Prod.snd = 0 := by
  rw [List.countP_eq_zero]
  intro label hlabel
  obtain ⟨moment, -, hmoment⟩ := List.mem_filterMap.mp hlabel
  obtain ⟨_, hstep, rfl⟩ := Option.map_eq_some_iff.mp hmoment
  obtain ⟨_, -, rfl⟩ := Option.map_eq_some_iff.mp hstep
  exact Bool.false_ne_true

end Advance

/-! ### Two producers and two consumers -/

/-- The values of two producers. -/
def fourValues (producer : Bool) : List ℤ := if producer then [2, 3] else [0, 1]

theorem fourValues_nodup : ∀ producer, (fourValues producer).Nodup := by decide

theorem fourValues_disjoint :
    Pairwise fun first second ↦ (fourValues first).Disjoint (fourValues second) := by
  have hleft : ∀ first second, first ≠ second →
      ∀ value ∈ fourValues first, value ∉ fourValues second := by decide
  exact fun first second hne ↦ List.disjoint_left.mpr (hleft first second hne)

/-- Five threads that take turns; the address of a new node is the moment of its allocation. -/
def turns (n : ℕ) : Actor Bool Bool × ℕ :=
  (match n % 5 with
    | 0 => .producer false
    | 1 => .producer true
    | 2 => .consumer false
    | 3 => .consumer true
    | _ => .main, n)

/-- The test with two producers and two consumers that take turns. -/
def roundRobinTest : Execution (watchedTest Bool ℕ fourValues) := scheduledTest fourValues turns

end DailyChallenge.Treiber
