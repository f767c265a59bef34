import Mathlib
import DailyChallenge.Treiber.Refinement
import DailyChallenge.Treiber.Schedule
import DailyChallenge.Treiber.Shutdown

/-!
# Every pushed value reaches one consumer

`Ledger` is the bookkeeping of values along a run of the stress test: every value a push was called
with has left the range of its producer, every value a pop returned is held by one consumer. With
the accounts of the atomic stack and the shutdown protocol the books close when all threads have
returned (`stressTest_lossless`).
-/

set_option autoImplicit false
set_option relaxedAutoImplicit false

namespace DailyChallenge.Treiber

open Library

section Values

variable {Producer Consumer Addr T : Type*}

/-- The step of the stack at a step of the test, if there is one. -/
def stackLabel :
    StressEvent Producer Consumer Addr T → Option ((Producer ⊕ Consumer) × Event Addr T)
  | .stack thread event => some (thread, event)
  | .leave _ | .setDone | .readDone _ _ | .readEmpty _ _ | .insert _ _ => none

/-- The actions on the atomic stack along a trace of the test. -/
def actions (trace : List (StressEvent Producer Consumer Addr T)) :
    List ((Producer ⊕ Consumer) × Action T) :=
  (trace.filterMap stackLabel).filterMap viewLabel

theorem actions_append (trace : List (StressEvent Producer Consumer Addr T))
    (event : StressEvent Producer Consumer Addr T) :
    actions (trace ++ [event]) = actions trace ++ ((stackLabel event).bind viewLabel).toList := by
  unfold actions
  rw [List.filterMap_append, List.filterMap_append]
  congr 1
  cases hlabel : stackLabel event with
  | none => simp [hlabel]
  | some label => cases hview : viewLabel label <;> simp [hlabel, hview]

/-- A step of the test that passes no value in or out of the stack. -/
theorem actions_append_quiet (trace : List (StressEvent Producer Consumer Addr T))
    {event : StressEvent Producer Consumer Addr T}
    (hquiet : ∀ label ∈ (stackLabel event).bind viewLabel,
      label.2.argument = none ∧ label.2.returned = none) :
    calledValues (actions (trace ++ [event])) = calledValues (actions trace) ∧
      returnedValues (actions (trace ++ [event])) = returnedValues (actions trace) := by
  rw [actions_append]
  cases hlabel : (stackLabel event).bind viewLabel with
  | none => simp
  | some label =>
    obtain ⟨hargument, hreturned⟩ := hquiet label hlabel
    exact ⟨calledValues_append_of_none hargument, returnedValues_append_of_none hreturned⟩

theorem calledValues_callPush (trace : List (StressEvent Producer Consumer Addr T))
    (thread : Producer ⊕ Consumer) (value : T) :
    calledValues (actions (trace ++ [.stack thread (.callPush value)])) =
      calledValues (actions trace) ++ [value] := by
  rw [actions_append]
  simp [stackLabel, viewLabel, view, calledValues, Action.argument]

theorem returnedValues_callPush (trace : List (StressEvent Producer Consumer Addr T))
    (thread : Producer ⊕ Consumer) (value : T) :
    returnedValues (actions (trace ++ [.stack thread (.callPush value)])) =
      returnedValues (actions trace) := by
  rw [actions_append]
  simp [stackLabel, viewLabel, view, returnedValues, Action.returned]

theorem calledValues_returnPop (trace : List (StressEvent Producer Consumer Addr T))
    (thread : Producer ⊕ Consumer) (result : Option T) :
    calledValues (actions (trace ++ [.stack thread (.returnPop result)])) =
      calledValues (actions trace) := by
  rw [actions_append]
  simp [stackLabel, viewLabel, view, calledValues, Action.argument]

theorem returnedValues_returnPop (trace : List (StressEvent Producer Consumer Addr T))
    (thread : Producer ⊕ Consumer) (value : T) :
    returnedValues (actions (trace ++ [.stack thread (.returnPop (some value))])) =
      returnedValues (actions trace) ++ [value] := by
  rw [actions_append]
  simp [stackLabel, viewLabel, view, returnedValues, Action.returned]

/-- A step inside an operation passes no value in or out. -/
theorem Event.Inside.quiet {event : Event Addr T} (h : event.Inside) {action : Action T}
    (hview : view event = some action) : action.argument = none ∧ action.returned = none := by
  cases event <;> simp only [view, Option.some.injEq, reduceCtorEq] at hview <;>
    first
      | exact h.elim
      | (subst hview; exact ⟨rfl, rfl⟩)

/-- The values a consumer has taken over from the stack. -/
def ConsumerPc.held [DecidableEq T] : ConsumerPc T → Finset T
  | .insert consSet res => Insert.insert res consSet
  | .testDone consSet | .testEmpty consSet | .body consSet | .pop consSet | .returned consSet =>
    consSet

/-- Where the values are: what was pushed has left the range of its producer, what was popped is
held by one consumer. -/
structure Ledger [DecidableEq T] (values : Producer → List T)
    (trace : List (StressEvent Producer Consumer Addr T))
    (state : StressState Producer Consumer Addr T) : Prop where
  suffix : ∀ producer, (state.producers producer).remaining <:+ values producer
  called_nodup : (calledValues (actions trace)).Nodup
  mem_called : ∀ value, value ∈ calledValues (actions trace) ↔
    ∃ producer, value ∈ values producer ∧ value ∉ (state.producers producer).remaining
  mem_returned : ∀ value, value ∈ returnedValues (actions trace) ↔
    ∃ consumer, value ∈ (state.consumers consumer).held
  disjoint : Pairwise fun first second ↦
    Disjoint (state.consumers first).held (state.consumers second).held

/-- If no value was pushed twice, none was returned twice. -/
theorem Accounts.returned_nodup {Thread : Type*} {trace : List (Thread × Action T)}
    {stack : AtomicStack Thread T} {entering leaving : List (Thread × T)}
    (h : Accounts trace stack entering leaving) (hcalled : (calledValues trace).Nodup) :
    (returnedValues trace).Nodup := by
  have hle : (returnedValues trace : Multiset T) ≤ calledValues trace := by
    rw [h.balance]
    exact Multiset.le_add_left _ _
  exact Multiset.nodup_of_le hle hcalled

variable [DecidableEq T] {values : Producer → List T}
  {trace : List (StressEvent Producer Consumer Addr T)}
  {event : StressEvent Producer Consumer Addr T}
  {state next : StressState Producer Consumer Addr T}

/-- A step that passes no value and leaves the ranges and the sets alone. -/
theorem Ledger.quiet (h : Ledger values trace state)
    (hquiet : ∀ label ∈ (stackLabel event).bind viewLabel,
      label.2.argument = none ∧ label.2.returned = none)
    (hremaining : ∀ producer,
      (next.producers producer).remaining = (state.producers producer).remaining)
    (hheld : ∀ consumer, (next.consumers consumer).held = (state.consumers consumer).held) :
    Ledger values (trace ++ [event]) next := by
  obtain ⟨hcalled, hreturned⟩ := actions_append_quiet trace hquiet
  constructor
  case suffix =>
    intro producer
    rw [hremaining]
    exact h.suffix producer
  case called_nodup =>
    rw [hcalled]
    exact h.called_nodup
  case mem_called =>
    intro value
    simp only [hcalled, hremaining]
    exact h.mem_called value
  case mem_returned =>
    intro value
    simp only [hreturned, hheld]
    exact h.mem_returned value
  case disjoint =>
    simp only [hheld]
    exact h.disjoint

/-- A producer calls `push` with the next value of its range, which nobody pushed before. -/
theorem Ledger.callPush [DecidableEq Producer] (h : Ledger values trace state)
    (hnodup : ∀ producer, (values producer).Nodup)
    (hdisjoint : Pairwise fun first second ↦ (values first).Disjoint (values second))
    {producer : Producer} {value : T} {rest : List T}
    (hpc : state.producers producer = .loop (value :: rest))
    (stack : State (Producer ⊕ Consumer) Addr T) :
    Ledger values (trace ++ [.stack (.inl producer) (.callPush value)])
      { state with
        stack := stack
        producers := Function.update state.producers producer (.push rest) } := by
  have hsuffix := h.suffix producer
  rw [hpc] at hsuffix
  have hmem : value ∈ values producer := hsuffix.subset List.mem_cons_self
  have hrest : value ∉ rest := (List.nodup_cons.mp (hsuffix.sublist.nodup (hnodup producer))).1
  have hnew : value ∉ calledValues (actions trace) := by
    rw [h.mem_called]
    rintro ⟨other, hother, hleft⟩
    by_cases hsame : other = producer
    · subst hsame
      rw [hpc] at hleft
      exact hleft List.mem_cons_self
    · exact hdisjoint hsame hother hmem
  have hleft : ∀ other value', value' ∉ (Function.update state.producers producer (.push rest)
      other).remaining ↔ value' ∉ (state.producers other).remaining ∨
        other = producer ∧ value' = value := by
    intro other value'
    by_cases hsame : other = producer
    · subst hsame
      rw [Function.update_self, hpc]
      show value' ∉ rest ↔ value' ∉ value :: rest ∨ _
      rw [List.mem_cons]
      by_cases hvalue : value' = value
      · simp [hvalue, hrest]
      · simp [hvalue]
    · rw [Function.update_of_ne hsame]
      simp [hsame]
  constructor
  case suffix =>
    refine (Function.forall_update_iff _ fun producer (pc : ProducerPc T) ↦
      pc.remaining <:+ values producer).mpr ⟨?_, fun other _ ↦ h.suffix other⟩
    exact (List.suffix_cons value rest).trans hsuffix
  case called_nodup =>
    rw [calledValues_callPush, List.nodup_append_comm, List.singleton_append, List.nodup_cons]
    exact ⟨hnew, h.called_nodup⟩
  case mem_called =>
    intro value'
    simp only [calledValues_callPush, List.mem_append, List.mem_singleton, h.mem_called, hleft]
    constructor
    · rintro (⟨other, hother, hpushed⟩ | rfl)
      · exact ⟨other, hother, Or.inl hpushed⟩
      · exact ⟨producer, hmem, Or.inr ⟨rfl, rfl⟩⟩
    · rintro ⟨other, hother, hpushed | ⟨-, hvalue⟩⟩
      · exact Or.inl ⟨other, hother, hpushed⟩
      · exact Or.inr hvalue
  case mem_returned =>
    rw [returnedValues_callPush]
    exact h.mem_returned
  case disjoint => exact h.disjoint

/-- A pop returns a value that no consumer holds. -/
theorem Ledger.returnValue [DecidableEq Consumer] (h : Ledger values trace state)
    {consumer : Consumer} {consSet : Finset T} {res : T}
    (hpc : state.consumers consumer = .pop consSet)
    (stack : State (Producer ⊕ Consumer) Addr T)
    (hreturned : (returnedValues
      (actions (trace ++ [.stack (.inr consumer) (.returnPop (some res))]))).Nodup) :
    Ledger values (trace ++ [.stack (.inr consumer) (.returnPop (some res))])
      { state with
        stack := stack
        consumers := Function.update state.consumers consumer (.insert consSet res) } := by
  rw [returnedValues_returnPop, List.nodup_append_comm, List.singleton_append,
    List.nodup_cons] at hreturned
  have hnew : ∀ other, res ∉ (state.consumers other).held := by
    intro other hheld
    exact hreturned.1 ((h.mem_returned res).mpr ⟨other, hheld⟩)
  have hheld : ∀ other, (Function.update state.consumers consumer (.insert consSet res)
      other).held = if other = consumer then Insert.insert res (state.consumers other).held
        else (state.consumers other).held := by
    intro other
    split_ifs with hsame
    · subst hsame
      rw [Function.update_self, hpc]
      rfl
    · rw [Function.update_of_ne hsame]
  constructor
  case suffix => exact h.suffix
  case called_nodup =>
    rw [calledValues_returnPop]
    exact h.called_nodup
  case mem_called =>
    rw [calledValues_returnPop]
    exact h.mem_called
  case mem_returned =>
    intro value
    simp only [returnedValues_returnPop, List.mem_append, List.mem_singleton, h.mem_returned, hheld]
    constructor
    · rintro (⟨other, hother⟩ | rfl)
      · refine ⟨other, ?_⟩
        split_ifs
        · exact Finset.mem_insert_of_mem hother
        · exact hother
      · exact ⟨consumer, by rw [if_pos rfl]; exact Finset.mem_insert_self _ _⟩
    · rintro ⟨other, hother⟩
      split_ifs at hother
      · rcases Finset.mem_insert.mp hother with hvalue | hold
        · exact Or.inr hvalue
        · exact Or.inl ⟨other, hold⟩
      · exact Or.inl ⟨other, hother⟩
  case disjoint =>
    intro first second hne
    have hold := h.disjoint hne
    simp only [hheld]
    split_ifs with hfirst hsecond
    · exact absurd (hfirst.trans hsecond.symm) hne
    · exact Finset.disjoint_insert_left.mpr ⟨hnew second, hold⟩
    · exact Finset.disjoint_insert_right.mpr ⟨hnew first, hold⟩
    · exact hold

variable [DecidableEq Producer] [DecidableEq Consumer] [DecidableEq Addr]

/-- A change of program point that keeps what the function reads there. -/
theorem comp_update_eq {Thread Pc' Value : Type*} [DecidableEq Thread] (read : Pc' → Value)
    (pcs : Thread → Pc') {thread : Thread} {pc : Pc'} (hsame : read pc = read (pcs thread))
    (other : Thread) : read (Function.update pcs thread pc other) = read (pcs other) := by
  by_cases hother : other = thread
  · subst hother
    rw [Function.update_self, hsame]
  · rw [Function.update_of_ne hother]

/-- Every step of the test keeps the ledger. -/
theorem Ledger.step (h : Ledger values trace state) (hnodup : ∀ producer, (values producer).Nodup)
    (hdisjoint : Pairwise fun first second ↦ (values first).Disjoint (values second))
    (haccounts : ∃ (stack : AtomicStack (Producer ⊕ Consumer) T) (entering leaving : _),
      Accounts (actions (trace ++ [event])) stack entering leaving)
    (hstep : StressStep state event next) : Ledger values (trace ++ [event]) next := by
  have hinside : ∀ (thread : Producer ⊕ Consumer) (event : Event Addr T), event.Inside →
      ∀ label ∈ (stackLabel (.stack thread event)).bind viewLabel,
        label.2.argument = none ∧ label.2.returned = none := by
    intro thread event hinside label hlabel
    obtain ⟨action, haction, rfl⟩ := Option.map_eq_some_iff.mp hlabel
    exact hinside.quiet haction
  cases hstep with
  | callPush producer value rest stack hpc hstep =>
    exact h.callPush hnodup hdisjoint hpc stack
  | push producer rest event stack hpc hinner hstep =>
    exact h.quiet (hinside _ event hinner) (fun _ ↦ rfl) fun _ ↦ rfl
  | returnPush producer rest stack hpc hstep =>
    refine h.quiet ?_ ?_ fun _ ↦ rfl
    · rintro _ ⟨⟩
      exact ⟨rfl, rfl⟩
    · exact comp_update_eq _ _ (by rw [hpc]; rfl)
  | leave producer hpc =>
    refine h.quiet ?_ ?_ fun _ ↦ rfl
    · rintro _ ⟨⟩
    · exact comp_update_eq _ _ (by rw [hpc]; rfl)
  | setDone hjoined =>
    refine h.quiet ?_ (fun _ ↦ rfl) fun _ ↦ rfl
    rintro _ ⟨⟩
  | readDone consumer consSet hpc =>
    refine h.quiet ?_ (fun _ ↦ rfl) ?_
    · rintro _ ⟨⟩
    · exact comp_update_eq _ _ (by rw [hpc]; split_ifs <;> rfl)
  | readEmpty consumer consSet hpc =>
    refine h.quiet ?_ (fun _ ↦ rfl) ?_
    · rintro _ ⟨⟩
    · exact comp_update_eq _ _ (by rw [hpc]; split_ifs <;> rfl)
  | callPop consumer consSet stack hpc hstep =>
    refine h.quiet ?_ (fun _ ↦ rfl) ?_
    · rintro _ ⟨⟩
      exact ⟨rfl, rfl⟩
    · exact comp_update_eq _ _ (by rw [hpc]; rfl)
  | pop consumer consSet event stack hpc hinner hstep =>
    exact h.quiet (hinside _ event hinner) (fun _ ↦ rfl) fun _ ↦ rfl
  | returnNull consumer consSet stack hpc hstep =>
    refine h.quiet ?_ (fun _ ↦ rfl) ?_
    · rintro _ ⟨⟩
      exact ⟨rfl, rfl⟩
    · exact comp_update_eq _ _ (by rw [hpc]; rfl)
  | returnValue consumer consSet res stack hpc hstep =>
    obtain ⟨stack, entering, leaving, haccounts⟩ := haccounts
    refine h.returnValue hpc _ (haccounts.returned_nodup ?_)
    rw [calledValues_returnPop]
    exact h.called_nodup
  | insert consumer consSet res hpc =>
    refine h.quiet ?_ (fun _ ↦ rfl) ?_
    · rintro _ ⟨⟩
    · exact comp_update_eq _ _ (by rw [hpc]; rfl)

/-- The test uses its stack as the Treiber stack is used. -/
def stackOf (Addr : Type*) [DecidableEq Addr] (values : Producer → List T) :
    Simulation (stressTest Consumer Addr values) (treiberStack (Producer ⊕ Consumer) Addr T)
      stackLabel where
  Related state stack := state.stack = stack
  start := by
    rintro _ rfl
    exact ⟨_, rfl, rfl⟩
  silent := by
    rintro state _ event next rfl hstep hlabel
    cases hstep <;> first | rfl | cases hlabel
  visible := by
    rintro state _ event next label rfl hstep hlabel
    cases hstep <;> cases hlabel <;> exact ⟨_, ‹Step _ _ _›, rfl⟩

/-- Along every run of the test the stack relates to an atomic stack with balanced accounts. -/
theorem accounts_stressTest (hrun : (stressTest Consumer Addr values).Run trace state) :
    ∃ shadow entering leaving, Related state.stack shadow ∧
      Accounts (actions trace) shadow entering leaving := by
  obtain ⟨stack, hstack, rfl⟩ := (stackOf Addr values).run hrun
  obtain ⟨shadow, hshadow, hrelated⟩ := (refinement _ Addr T).run hstack
  obtain ⟨entering, leaving, haccounts⟩ := accounts_run hshadow
  exact ⟨shadow, entering, leaving, hrelated, haccounts⟩

/-- The ledger holds along every run of the test. -/
theorem ledger_run (hnodup : ∀ producer, (values producer).Nodup)
    (hdisjoint : Pairwise fun first second ↦ (values first).Disjoint (values second))
    (hrun : (stressTest Consumer Addr values).Run trace state) : Ledger values trace state := by
  apply hrun.traceInvariant
  · rintro _ rfl
    constructor
    case suffix => exact fun _ ↦ List.suffix_rfl
    case called_nodup => exact List.nodup_nil
    case mem_called =>
      intro value
      refine iff_of_false List.not_mem_nil ?_
      rintro ⟨producer, hmem, hleft⟩
      exact hleft hmem
    case mem_returned =>
      intro value
      refine iff_of_false List.not_mem_nil ?_
      rintro ⟨consumer, hheld⟩
      exact Finset.notMem_empty _ hheld
    case disjoint => exact fun _ _ _ ↦ Finset.disjoint_empty_left _
  · intro trace state event next hbefore h hstep
    obtain ⟨shadow, entering, leaving, -, haccounts⟩ :=
      accounts_stressTest (TransitionSystem.Run.step hbefore hstep)
    exact h.step hnodup hdisjoint ⟨shadow, entering, leaving, haccounts⟩ hstep

omit [DecidableEq T] in
/-- A list of the values of a function that has none. -/
theorem Lists.eq_nil {Thread : Type*} {pending : List (Thread × T)} {value : Thread → Option T}
    (h : Lists pending value) (hnone : ∀ thread, value thread = none) : pending = [] := by
  refine List.eq_nil_iff_forall_not_mem.mpr ?_
  rintro ⟨thread, val⟩ hmem
  have hvalue := (h.2 thread val).mp hmem
  rw [hnone] at hvalue
  cases hvalue

omit [DecidableEq T] [DecidableEq Addr] in
/-- A thread of the atomic stack whose program point is in no operation is idle. -/
theorem Represents.status_idle {Thread : Type*} {state : State Thread Addr T}
    {shadow : AtomicStack Thread T} {stack : List Addr} (h : Represents state shadow stack)
    {thread : Thread} (hpc : (state.pc thread).operation = none) :
    shadow.status thread = .idle := by
  have hstatus := h.status thread
  cases hidle : state.pc thread <;> rw [hidle] at hpc hstatus <;>
    first
      | exact hstatus
      | cases hpc

/-- When all threads of the test have returned, every value of every range is in the set of exactly
one consumer, and the sets hold nothing else. -/
theorem stressTest_lossless [Nonempty Consumer] (hnodup : ∀ producer, (values producer).Nodup)
    (hdisjoint : Pairwise fun first second ↦ (values first).Disjoint (values second))
    (hrun : (stressTest Consumer Addr values).Run trace state)
    (hproducers : ∀ producer, state.producers producer = .returned)
    {consSets : Consumer → Finset T}
    (hconsumers : ∀ consumer, state.consumers consumer = .returned (consSets consumer)) :
    (Pairwise fun first second ↦ Disjoint (consSets first) (consSets second)) ∧
      ⋃ consumer, (consSets consumer : Set T) = {value | ∃ producer, value ∈ values producer} := by
  have hledger := ledger_run hnodup hdisjoint hrun
  have hshutdown := shutdown_run hrun
  obtain ⟨shadow, entering, leaving, ⟨stack, retired, hown, hrep⟩, haccounts⟩ :=
    accounts_stressTest hrun
  have hheld : ∀ consumer, (state.consumers consumer).held = consSets consumer := by
    intro consumer
    rw [hconsumers]
    rfl
  have hremaining : ∀ producer, (state.producers producer).remaining = [] := by
    intro producer
    rw [hproducers]
    rfl
  -- no thread is inside an operation, so nothing is entering or leaving
  have hidle : ∀ thread, shadow.status thread = .idle := by
    rintro (producer | consumer)
    · exact hrep.status_idle (by rw [hshutdown.producer, hproducers]; rfl)
    · exact hrep.status_idle (by rw [hshutdown.consumer, hconsumers]; rfl)
  have hentering : entering = [] := haccounts.entering_lists.eq_nil fun thread ↦ by rw [hidle]; rfl
  have hleaving : leaving = [] := haccounts.leaving_lists.eq_nil fun thread ↦ by rw [hidle]; rfl
  -- one consumer that returned saw a null head, and it has stayed null
  have hitems : shadow.items = [] := by
    obtain ⟨consumer⟩ := ‹Nonempty Consumer›
    have hchain := hown.head_chain
    rw [hshutdown.sawEmpty consumer _ (hconsumers consumer)] at hchain
    have hforall := hrep.items
    rw [hchain.eq_nil] at hforall
    exact List.forall₂_nil_left_iff.mp hforall
  have hbalance := haccounts.balance
  rw [hentering, hleaving, hitems] at hbalance
  have hsame : ∀ value, value ∈ calledValues (actions trace) ↔
      value ∈ returnedValues (actions trace) := by
    intro value
    rw [← Multiset.mem_coe, hbalance]
    simp
  constructor
  · have hpairwise := hledger.disjoint
    simpa only [hheld] using hpairwise
  · ext value
    have hmem := hsame value
    rw [hledger.mem_called, hledger.mem_returned] at hmem
    simpa [hheld, hremaining] using hmem.symm

end Values

/-! ### Two producers and two consumers -/

/-- The sets of two consumers that take turns with the producers. -/
def fourSets (consumer : Bool) : Finset ℤ := if consumer then {0, 1} else {2, 3}

/-- The theorem where two producers and two consumers take turns, after 150 moments. The first
exchange of a pop comes before the last push. -/
theorem stressTest_lossless_roundRobin :
    (Pairwise fun first second ↦ Disjoint (fourSets first) (fourSets second)) ∧
      ⋃ consumer, (fourSets consumer : Set ℤ) = {value | ∃ producer, value ∈ fourValues producer} :=
  stressTest_lossless fourValues_nodup fourValues_disjoint
    (stressRun_of_watched (roundRobinTest.run 150))
    (fun producer ↦ ProducerPc.eq_returned (by revert producer; decide +kernel))
    fun consumer ↦ ConsumerPc.eq_returned (by revert consumer; decide +kernel)

end DailyChallenge.Treiber
