import Mathlib
import DailyChallenge.Library.PointerChain
import DailyChallenge.Library.Runs

/-!
# The Treiber stack

`02-treiber_lock_free_stack/main.cpp` as an interleaving of threads. The shared state is the heap of
nodes and the two atomic pointers; each thread has a program point that carries the locals of `push`
or `pop` there. One step of a thread is one call or return, one allocation, one atomic load or
compare-exchange, one read or write of a node's `next` field, or the move of a node's value.

An address is fresh when no node was ever allocated there: nodes are freed only in the destructor. A
failed `compare_exchange_weak`, spurious or not, writes the current value of the atomic into the
expected one. A value that was moved out of a node is gone from it. A step that follows a pointer
needs a node there, so a thread with a dangling pointer would be stuck.
-/

set_option autoImplicit false
set_option relaxedAutoImplicit false

namespace DailyChallenge.Treiber

open Library

/-- `Node`; the value is `none` once it has been moved from. -/
structure Node (Addr T : Type*) where
  value : Option T
  next : Option Addr

/-- The nodes of the heap and the atomics `head` and `trash`. -/
structure Memory (Addr T : Type*) where
  heap : Addr → Option (Node Addr T)
  head : Option Addr
  trash : Option Addr

/-- A program point of a thread, with the locals it has there. -/
inductive Pc (Addr T : Type*)
  | idle
  | pushNew (val : T)
  | pushLoad (newHead : Addr)
  | pushLink (newHead : Addr) (oldHead : Option Addr)
  | pushCas (newHead : Addr) (oldHead : Option Addr)
  | pushReturn
  | popLoad
  | popNext (oldHead : Addr)
  | popCas (oldHead : Addr) (newHead : Option Addr)
  | popMove (oldHead : Addr)
  | retireLoad (oldHead : Addr) (val : T)
  | retireLink (oldHead : Addr) (val : T) (oldTrash : Option Addr)
  | retireCas (oldHead : Addr) (val : T) (oldTrash : Option Addr)
  | popReturn (result : Option T)

/-- What a step shows: calls and returns, allocations, the successful exchanges of `head`, the read
of a null `head` by `pop`, and everything else. -/
inductive Event (Addr T : Type*)
  | callPush (val : T)
  | new (address : Addr)
  | casPush
  | returnPush
  | callPop
  | casPop
  | readNull
  | returnPop (result : Option T)
  | internal

section Memory

variable {Addr T : Type*}

namespace Memory

/-- The next pointers of the live nodes. -/
def link (memory : Memory Addr T) (address : Addr) : Option (Option Addr) :=
  (memory.heap address).map Node.next

/-- The value still held by a live node. -/
def valueAt (memory : Memory Addr T) (address : Addr) : Option T :=
  (memory.heap address).bind Node.value

variable [DecidableEq Addr]

/-- `new Node(val)` at an address. -/
def new (memory : Memory Addr T) (address : Addr) (val : T) : Memory Addr T :=
  { memory with heap := Function.update memory.heap address (some ⟨some val, none⟩) }

/-- `address->next = next`. -/
def setNext (memory : Memory Addr T) (address : Addr) (next : Option Addr) : Memory Addr T :=
  { memory with
    heap := Function.update memory.heap address
      ((memory.heap address).map fun node ↦ { node with next := next }) }

/-- `std::move(address->value)`, as seen from the node. -/
def moveValue (memory : Memory Addr T) (address : Addr) : Memory Addr T :=
  { memory with
    heap := Function.update memory.heap address
      ((memory.heap address).map fun node ↦ { node with value := none }) }

theorem link_new (memory : Memory Addr T) (address : Addr) (val : T) :
    (memory.new address val).link = Function.update memory.link address (some none) := by
  funext other
  by_cases h : other = address <;> simp [link, new, h]

theorem link_setNext {memory : Memory Addr T} {address : Addr} (next : Option Addr)
    (hlive : memory.link address ≠ none) :
    (memory.setNext address next).link = Function.update memory.link address (some next) := by
  funext other
  by_cases h : other = address
  · obtain ⟨node, hnode⟩ : ∃ node, memory.heap address = some node :=
      Option.ne_none_iff_exists'.mp fun hnone ↦ hlive (by rw [link, hnone]; rfl)
    simp [link, setNext, h, hnode]
  · simp [link, setNext, h]

theorem link_moveValue (memory : Memory Addr T) (address : Addr) :
    (memory.moveValue address).link = memory.link := by
  funext other
  by_cases h : other = address
  · rw [h]
    cases hnode : memory.heap address <;> simp [link, moveValue, hnode]
  · simp [link, moveValue, h]

theorem valueAt_new (memory : Memory Addr T) (address : Addr) (val : T) :
    (memory.new address val).valueAt = Function.update memory.valueAt address (some val) := by
  funext other
  by_cases h : other = address <;> simp [valueAt, new, h]

theorem valueAt_setNext (memory : Memory Addr T) (address : Addr) (next : Option Addr) :
    (memory.setNext address next).valueAt = memory.valueAt := by
  funext other
  by_cases h : other = address
  · rw [h]
    cases hnode : memory.heap address <;> simp [valueAt, setNext, hnode]
  · simp [valueAt, setNext, h]

theorem valueAt_moveValue_of_ne (memory : Memory Addr T) {address other : Addr}
    (h : other ≠ address) : (memory.moveValue address).valueAt other = memory.valueAt other := by
  simp [valueAt, moveValue, h]

end Memory

/-- One step of one thread: the memory and its program point before, what it shows, the memory and
its program point after. -/
inductive ThreadStep [DecidableEq Addr] :
    Memory Addr T → Pc Addr T → Event Addr T → Memory Addr T → Pc Addr T → Prop
  | callPush (memory : Memory Addr T) (val : T) :
    ThreadStep memory .idle (.callPush val) memory (.pushNew val)
  | new (memory : Memory Addr T) (val : T) (newHead : Addr) (hfresh : memory.heap newHead = none) :
    ThreadStep memory (.pushNew val) (.new newHead) (memory.new newHead val) (.pushLoad newHead)
  | pushLoad (memory : Memory Addr T) (newHead : Addr) :
    ThreadStep memory (.pushLoad newHead) .internal memory (.pushLink newHead memory.head)
  | pushLink (memory : Memory Addr T) (newHead : Addr) (oldHead : Option Addr)
      (hlive : memory.link newHead ≠ none) :
    ThreadStep memory (.pushLink newHead oldHead) .internal (memory.setNext newHead oldHead)
      (.pushCas newHead oldHead)
  | pushCas (memory : Memory Addr T) (newHead : Addr) (oldHead : Option Addr)
      (hequal : memory.head = oldHead) :
    ThreadStep memory (.pushCas newHead oldHead) .casPush { memory with head := some newHead }
      .pushReturn
  | pushCasFail (memory : Memory Addr T) (newHead : Addr) (oldHead : Option Addr) :
    ThreadStep memory (.pushCas newHead oldHead) .internal memory (.pushLink newHead memory.head)
  | pushReturn (memory : Memory Addr T) : ThreadStep memory .pushReturn .returnPush memory .idle
  | callPop (memory : Memory Addr T) : ThreadStep memory .idle .callPop memory .popLoad
  | popLoad (memory : Memory Addr T) (oldHead : Addr) (hhead : memory.head = some oldHead) :
    ThreadStep memory .popLoad .internal memory (.popNext oldHead)
  | popLoadNull (memory : Memory Addr T) (hhead : memory.head = none) :
    ThreadStep memory .popLoad .readNull memory (.popReturn none)
  | popNext (memory : Memory Addr T) (oldHead : Addr) (newHead : Option Addr)
      (hnext : memory.link oldHead = some newHead) :
    ThreadStep memory (.popNext oldHead) .internal memory (.popCas oldHead newHead)
  | popCas (memory : Memory Addr T) (oldHead : Addr) (newHead : Option Addr)
      (hequal : memory.head = some oldHead) :
    ThreadStep memory (.popCas oldHead newHead) .casPop { memory with head := newHead }
      (.popMove oldHead)
  | popCasFail (memory : Memory Addr T) (oldHead : Addr) (newHead : Option Addr) (current : Addr)
      (hhead : memory.head = some current) :
    ThreadStep memory (.popCas oldHead newHead) .internal memory (.popNext current)
  | popCasFailNull (memory : Memory Addr T) (oldHead : Addr) (newHead : Option Addr)
      (hhead : memory.head = none) :
    ThreadStep memory (.popCas oldHead newHead) .readNull memory (.popReturn none)
  | popMove (memory : Memory Addr T) (oldHead : Addr) (val : T)
      (hvalue : memory.valueAt oldHead = some val) :
    ThreadStep memory (.popMove oldHead) .internal (memory.moveValue oldHead)
      (.retireLoad oldHead val)
  | retireLoad (memory : Memory Addr T) (oldHead : Addr) (val : T) :
    ThreadStep memory (.retireLoad oldHead val) .internal memory
      (.retireLink oldHead val memory.trash)
  | retireLink (memory : Memory Addr T) (oldHead : Addr) (val : T) (oldTrash : Option Addr)
      (hlive : memory.link oldHead ≠ none) :
    ThreadStep memory (.retireLink oldHead val oldTrash) .internal
      (memory.setNext oldHead oldTrash) (.retireCas oldHead val oldTrash)
  | retireCas (memory : Memory Addr T) (oldHead : Addr) (val : T) (oldTrash : Option Addr)
      (hequal : memory.trash = oldTrash) :
    ThreadStep memory (.retireCas oldHead val oldTrash) .internal
      { memory with trash := some oldHead } (.popReturn (some val))
  | retireCasFail (memory : Memory Addr T) (oldHead : Addr) (val : T) (oldTrash : Option Addr) :
    ThreadStep memory (.retireCas oldHead val oldTrash) .internal memory
      (.retireLink oldHead val memory.trash)
  | popReturn (memory : Memory Addr T) (result : Option T) :
    ThreadStep memory (.popReturn result) (.returnPop result) memory .idle

end Memory

/-- The shared memory and the program point of every thread. -/
structure State (Thread Addr T : Type*) where
  memory : Memory Addr T
  pc : Thread → Pc Addr T

/-- One step of one thread of the system. -/
inductive Step {Thread Addr T : Type*} [DecidableEq Thread] [DecidableEq Addr] :
    State Thread Addr T → Thread × Event Addr T → State Thread Addr T → Prop
  | thread (state : State Thread Addr T) (thread : Thread) (event : Event Addr T)
      (memory : Memory Addr T) (pc : Pc Addr T)
      (h : ThreadStep state.memory (state.pc thread) event memory pc) :
    Step state (thread, event) ⟨memory, Function.update state.pc thread pc⟩

/-- One `TreiberStack`, just constructed, shared by any number of threads that are all idle. -/
def State.initial (Thread Addr T : Type*) : State Thread Addr T :=
  ⟨⟨fun _ ↦ none, none, none⟩, fun _ ↦ .idle⟩

/-- Any number of threads, each calling `push` and `pop` in any sequence on one stack. -/
def treiberStack (Thread Addr T : Type*) [DecidableEq Thread] [DecidableEq Addr] :
    TransitionSystem (State Thread Addr T) (Thread × Event Addr T) where
  Start state := state = .initial Thread Addr T
  Step := Step

/-! ### Undisturbed operations -/

section Undisturbed

variable {Thread Addr T : Type*} [DecidableEq Thread] [DecidableEq Addr]
  {trace : List (Thread × Event Addr T)} {state : State Thread Addr T} {thread : Thread}

/-- One more step of a run, taken by a thread whose program point is known. -/
theorem run_step {memory memory' : Memory Addr T} {pc : Thread → Pc Addr T} {old next : Pc Addr T}
    {event : Event Addr T}
    (hrun : (treiberStack Thread Addr T).Run trace ⟨memory, Function.update pc thread old⟩)
    (hstep : ThreadStep memory old event memory' next) :
    (treiberStack Thread Addr T).Run (trace ++ [(thread, event)])
      ⟨memory', Function.update pc thread next⟩ := by
  have h := hrun.step (.thread _ thread event memory' next (by simpa using hstep))
  rwa [Function.update_idem] at h

/-- A push that no other thread disturbs puts its value on top in six steps. -/
theorem push_alone (thread : Thread) (newHead : Addr) (val : T)
    (hrun : (treiberStack Thread Addr T).Run trace state) (hpc : state.pc thread = .idle)
    (hfresh : state.memory.heap newHead = none) :
    (treiberStack Thread Addr T).Run
      (trace ++ ([.callPush val, .new newHead, .internal, .internal, .casPush, .returnPush].map
        (Prod.mk thread)))
      ⟨⟨Function.update state.memory.heap newHead (some ⟨some val, state.memory.head⟩),
        some newHead, state.memory.trash⟩, state.pc⟩ := by
  obtain ⟨memory, pc⟩ := state
  have hidle : Function.update pc thread .idle = pc := by rw [← hpc, Function.update_eq_self]
  rw [← hidle] at hrun
  have h := run_step hrun (.callPush _ val)
  have h := run_step h (.new _ val newHead hfresh)
  have h := run_step h (.pushLoad _ newHead)
  have h := run_step h (.pushLink _ newHead _ (by simp [Memory.link, Memory.new]))
  have h := run_step h (.pushCas _ newHead _ rfl)
  have h := run_step h (.pushReturn _)
  rw [hidle] at h
  simpa [Memory.setNext, Memory.new] using h

/-- A pop that no other thread disturbs returns the value on top and retires its node. -/
theorem pop_alone (thread : Thread) (hrun : (treiberStack Thread Addr T).Run trace state)
    (hpc : state.pc thread = .idle) {oldHead : Addr} {val : T} {next : Option Addr}
    (hhead : state.memory.head = some oldHead)
    (hnode : state.memory.heap oldHead = some ⟨some val, next⟩) :
    (treiberStack Thread Addr T).Run
      (trace ++ ([.callPop, .internal, .internal, .casPop, .internal, .internal, .internal,
        .internal, .returnPop (some val)].map (Prod.mk thread)))
      ⟨⟨Function.update state.memory.heap oldHead (some ⟨none, state.memory.trash⟩), next,
        some oldHead⟩, state.pc⟩ := by
  obtain ⟨memory, pc⟩ := state
  dsimp only at hpc hhead hnode
  have hidle : Function.update pc thread .idle = pc := by rw [← hpc, Function.update_eq_self]
  rw [← hidle] at hrun
  have h := run_step hrun (.callPop _)
  have h := run_step h (.popLoad _ oldHead hhead)
  have h := run_step h (.popNext _ oldHead next (by rw [Memory.link, hnode]; rfl))
  have h := run_step h (.popCas _ oldHead next hhead)
  have h := run_step h (.popMove _ oldHead val (by rw [Memory.valueAt, hnode]; rfl))
  have h := run_step h (.retireLoad _ oldHead val)
  have h := run_step h
    (.retireLink _ oldHead val _ (by simp [Memory.link, Memory.moveValue, hnode]))
  have h := run_step h (.retireCas _ oldHead val _ rfl)
  have h := run_step h (.popReturn _ (some val))
  rw [hidle] at h
  simpa [Memory.setNext, Memory.moveValue, hnode] using h

/-- Thread `false` pushes 7 and 8, then thread `true` pops. -/
def handover : List (Bool × Event ℕ ℕ) :=
  [(false, .callPush 7), (false, .new 0), (false, .internal), (false, .internal),
    (false, .casPush), (false, .returnPush),
    (false, .callPush 8), (false, .new 1), (false, .internal), (false, .internal),
    (false, .casPush), (false, .returnPush),
    (true, .callPop), (true, .internal), (true, .internal), (true, .casPop), (true, .internal),
    (true, .internal), (true, .internal), (true, .internal), (true, .returnPop (some 8))]

/-- Node 0 holds 7 and is on the stack; node 1 is on the trash list. -/
def handoverState : State Bool ℕ ℕ :=
  ⟨⟨Function.update (Function.update (fun _ ↦ none) 0 (some ⟨some 7, none⟩)) 1
    (some ⟨none, none⟩), some 0, some 1⟩, fun _ ↦ .idle⟩

theorem handover_run : (treiberStack Bool ℕ ℕ).Run handover handoverState := by
  have hstart : (treiberStack Bool ℕ ℕ).Run [] (.initial Bool ℕ ℕ) := .start rfl
  have hpush := push_alone false 0 7 hstart rfl rfl
  have hpush := push_alone false 1 8 hpush rfl rfl
  have hpop := pop_alone true hpush rfl rfl rfl
  simpa [handover, handoverState, State.initial] using hpop

end Undisturbed

end DailyChallenge.Treiber
