import Mathlib
import DailyChallenge.Library.Potential
import DailyChallenge.Treiber.Stack

/-!
# The stack is lock-free

A `compare_exchange_weak` fails for one of two reasons: another thread has changed the atomic since
this one read it, or it fails spuriously. `watchedStack` marks the spurious failures. Every other
failure is paid for by the operation of another thread that succeeded in between, so the steps of
all threads are bounded by the operations that have returned and the spurious failures
(`length_le_of_run`): as long as threads take steps, some operation completes. A single operation
has no such bound: for every number there is a run in which one `pop` takes more steps than it and
has not returned (`pop_starves`).
-/

set_option autoImplicit false
set_option relaxedAutoImplicit false

namespace DailyChallenge.Treiber

open Library

/-! ### The spurious failures -/

section Watched

variable {Thread Addr T : Type*}

/-- A step from one program point to another is a failed exchange although the atomic held the
expected value. -/
def Spurious (memory : Memory Addr T) : Pc Addr T → Pc Addr T → Prop
  | .pushCas _ oldHead, .pushLink _ _ => memory.head = oldHead
  | .popCas oldHead _, .popNext _ => memory.head = some oldHead
  | .retireCas _ _ oldTrash, .retireLink _ _ _ => memory.trash = oldTrash
  | _, _ => False

variable [DecidableEq Thread] [DecidableEq Addr]

/-- The threads on one stack, with a mark at every spurious failure. -/
def watchedStack (Thread Addr T : Type*) [DecidableEq Thread] [DecidableEq Addr] :
    TransitionSystem (State Thread Addr T) ((Thread × Event Addr T) × Bool) where
  Start := (treiberStack Thread Addr T).Start
  Step state label next := (treiberStack Thread Addr T).Step state label.1 next ∧
    (label.2 = true ↔ Spurious state.memory (state.pc label.1.1) (next.pc label.1.1))

/-- The marks restrict nothing: every run of the stack is watched by one. -/
theorem exists_watchedRun {trace : List (Thread × Event Addr T)} {state : State Thread Addr T}
    (hrun : (treiberStack Thread Addr T).Run trace state) :
    ∃ watched, watched.map Prod.fst = trace ∧ (watchedStack Thread Addr T).Run watched state := by
  classical
  induction hrun with
  | start h => exact ⟨[], rfl, .start h⟩
  | @step trace state next label _ hstep ih =>
    obtain ⟨watched, rfl, hwatched⟩ := ih
    refine ⟨watched ++ [(label,
      decide (Spurious state.memory (state.pc label.1) (next.pc label.1)))], by simp, ?_⟩
    exact hwatched.step ⟨hstep, by simp⟩

/-- The operations that have returned along a trace. -/
def returns (trace : List ((Thread × Event Addr T) × Bool)) : ℕ :=
  trace.countP fun label ↦ match label.1.2 with
    | .returnPush | .returnPop _ => true
    | _ => false

/-- The spurious failures along a trace. -/
def spuriousFailures (trace : List ((Thread × Event Addr T) × Bool)) : ℕ :=
  trace.countP fun label ↦ label.2

end Watched

/-! ### The potential of a thread -/

section Potential

variable {Addr T : Type*} [DecidableEq Addr]

/-- The most steps that an operation takes, alone among `others` further threads, with two for each
of them at each of its two exchanges. -/
def operationCost (others : ℕ) : ℕ :=
  4 * others + 9

/-- The steps left to a thread when no other exchanges `head` or `trash` before it, with what it
owes to the others for its own exchanges. An idle thread holds the cost of its next operation. -/
def remaining (others : ℕ) : Pc Addr T → ℕ
  | .idle => operationCost others
  | .pushNew _ => 5 + 2 * others
  | .pushLoad _ => 4 + 2 * others
  | .pushLink _ _ => 3 + 2 * others
  | .pushCas _ _ => 2 + 2 * others
  | .pushReturn => 1
  | .popLoad => 8 + 4 * others
  | .popNext _ => 7 + 4 * others
  | .popCas _ _ => 6 + 4 * others
  | .popMove _ => 5 + 2 * others
  | .retireLoad _ _ => 4 + 2 * others
  | .retireLink _ _ _ => 3 + 2 * others
  | .retireCas _ _ _ => 2 + 2 * others
  | .popReturn _ => 1

/-- Two steps lie ahead of a thread whose copy of an atomic is out of date: the exchange that fails
and the link with the new value. -/
def stale (memory : Memory Addr T) : Pc Addr T → ℕ
  | .pushLink _ oldHead | .pushCas _ oldHead => if memory.head = oldHead then 0 else 2
  | .popNext oldHead | .popCas oldHead _ => if memory.head = some oldHead then 0 else 2
  | .retireLink _ _ oldTrash | .retireCas _ _ oldTrash =>
    if memory.trash = oldTrash then 0 else 2
  | _ => 0

theorem stale_le (memory : Memory Addr T) (pc : Pc Addr T) : stale memory pc ≤ 2 := by
  unfold stale
  split <;> first | split_ifs <;> omega | omega

theorem stale_le_add (memory memory' : Memory Addr T) (pc : Pc Addr T) :
    stale memory' pc ≤ stale memory pc + 2 :=
  (stale_le memory' pc).trans (Nat.le_add_left 2 _)

@[simp] theorem stale_new (memory : Memory Addr T) (address : Addr) (val : T) (pc : Pc Addr T) :
    stale (memory.new address val) pc = stale memory pc := rfl

@[simp] theorem stale_setNext (memory : Memory Addr T) (address : Addr) (next : Option Addr)
    (pc : Pc Addr T) : stale (memory.setNext address next) pc = stale memory pc := rfl

@[simp] theorem stale_moveValue (memory : Memory Addr T) (address : Addr) (pc : Pc Addr T) :
    stale (memory.moveValue address) pc = stale memory pc := rfl

/-- The credit of a step: the next operation of a thread that returns, two steps for a spurious
failure. -/
def credit (others : ℕ) (event : Event Addr T) (spurious : Bool) : ℕ :=
  (match event with
    | .returnPush | .returnPop _ => operationCost others
    | _ => 0) + if spurious then 2 else 0

/-- What one step of a thread costs: nothing to the others when it leaves the atomics as they are,
at most two steps to each of them when it exchanges one. -/
theorem ThreadStep.cost {memory memory' : Memory Addr T} {pc pc' : Pc Addr T}
    {event : Event Addr T} (hstep : ThreadStep memory pc event memory' pc') (others : ℕ)
    {spurious : Bool} (hspurious : spurious = true ↔ Spurious memory pc pc') :
    ∃ slack, (∀ other : Pc Addr T, stale memory' other ≤ stale memory other + slack) ∧
      remaining others pc' + stale memory' pc' + others * slack + 1 ≤
        remaining others pc + stale memory pc + credit others event spurious := by
  cases hstep with
  | callPush | pushReturn | callPop | popReturn =>
    exact ⟨0, fun _ ↦ le_rfl, by simp [remaining, stale, credit, operationCost]; try omega⟩
  | new | popMove =>
    refine ⟨0, fun _ ↦ by simp, ?_⟩
    simp [remaining, stale, credit]
    omega
  | pushLoad | retireLoad =>
    refine ⟨0, fun _ ↦ le_rfl, ?_⟩
    simp [remaining, stale, credit]
    omega
  | popLoad oldHead hhead =>
    refine ⟨0, fun _ ↦ le_rfl, ?_⟩
    simp [remaining, stale, credit, hhead]
    omega
  | popLoadNull hhead =>
    refine ⟨0, fun _ ↦ le_rfl, ?_⟩
    simp [remaining, stale, credit]
    omega
  | popNext oldHead newHead hnext =>
    refine ⟨0, fun _ ↦ le_rfl, ?_⟩
    simp only [remaining, stale]
    omega
  | pushLink newHead oldHead hlive | retireLink oldHead val oldTrash hlive =>
    refine ⟨0, fun _ ↦ by simp, ?_⟩
    rw [stale_setNext]
    simp only [remaining, stale]
    omega
  -- an exchange that succeeds pays for the failures it causes in the other threads
  | pushCas newHead oldHead hequal =>
    refine ⟨2, stale_le_add _ _, ?_⟩
    simp only [remaining, stale]
    omega
  | popCas oldHead newHead hequal =>
    refine ⟨2, stale_le_add _ _, ?_⟩
    simp only [remaining, stale]
    omega
  | retireCas oldHead val oldTrash hequal =>
    refine ⟨2, stale_le_add _ _, ?_⟩
    simp only [remaining, stale]
    omega
  -- a failure is paid for by the exchange that made the copy stale, or it is spurious
  | pushCasFail newHead oldHead =>
    refine ⟨0, fun _ ↦ le_rfl, ?_⟩
    by_cases hequal : memory.head = oldHead
    · have : spurious = true := hspurious.mpr hequal
      simp [remaining, stale, credit, this, hequal]
      omega
    · simp [remaining, stale, credit, hequal]
      omega
  | popCasFail oldHead newHead current hhead =>
    refine ⟨0, fun _ ↦ le_rfl, ?_⟩
    by_cases hequal : memory.head = some oldHead
    · have : spurious = true := hspurious.mpr hequal
      simp [remaining, stale, credit, this, hhead]
      omega
    · rw [hhead] at hequal
      simp [remaining, stale, credit, hequal, hhead]
      omega
  | popCasFailNull oldHead newHead hhead =>
    refine ⟨0, fun _ ↦ le_rfl, ?_⟩
    simp only [remaining, stale]
    omega
  | retireCasFail oldHead val oldTrash =>
    refine ⟨0, fun _ ↦ le_rfl, ?_⟩
    by_cases hequal : memory.trash = oldTrash
    · have : spurious = true := hspurious.mpr hequal
      simp [remaining, stale, credit, this, hequal]
      omega
    · simp [remaining, stale, credit, hequal]
      omega

end Potential

/-! ### Lock-freedom -/

section LockFreedom

variable {Thread Addr T : Type*} [DecidableEq Thread] [DecidableEq Addr] [Fintype Thread]

/-- The steps left to a thread in a state. -/
def work (state : State Thread Addr T) (thread : Thread) : ℕ :=
  remaining (Fintype.card Thread - 1) (state.pc thread) + stale state.memory (state.pc thread)

omit [DecidableEq Thread] in
theorem sum_work_initial :
    ∑ thread, work (.initial Thread Addr T) thread =
      Fintype.card Thread * operationCost (Fintype.card Thread - 1) := by
  simp [work, State.initial, remaining, stale]

/-- A step of the system costs one unit of the work of all threads. -/
theorem sum_work_step {state next : State Thread Addr T} {label : (Thread × Event Addr T) × Bool}
    (hstep : (watchedStack Thread Addr T).Step state label next) :
    (∑ thread, work next thread) + 1 ≤ (∑ thread, work state thread) +
      credit (Fintype.card Thread - 1) label.1.2 label.2 := by
  obtain ⟨⟨thread, event⟩, spurious⟩ := label
  obtain ⟨hstep, hspurious⟩ := hstep
  cases hstep with
  | thread _ _ memory pc h =>
    obtain ⟨slack, hstale, hcost⟩ := h.cost (Fintype.card Thread - 1) (by simpa using hspurious)
    have hothers (other : Thread) (hother : other ≠ thread) :
        work ⟨memory, Function.update state.pc thread pc⟩ other ≤ work state other + slack := by
      have := hstale (state.pc other)
      simp only [work, Function.update_of_ne hother]
      omega
    refine sum_add_le_of_update thread hothers ?_
    simpa [work] using hcost

omit [DecidableEq Thread] [DecidableEq Addr] [Fintype Thread] in
theorem sum_credit (others : ℕ) (trace : List ((Thread × Event Addr T) × Bool)) :
    (trace.map fun label ↦ credit others label.1.2 label.2).sum =
      operationCost others * returns trace + 2 * spuriousFailures trace := by
  induction trace with
  | nil => rfl
  | cons label trace ih =>
    obtain ⟨⟨thread, event⟩, spurious⟩ := label
    rw [List.map_cons, List.sum_cons, ih]
    cases event <;> cases spurious <;>
      simp [credit, returns, spuriousFailures] <;> ring

/-- Lock-freedom: among `n` threads, the steps of a run are bounded by the operations that have
returned and the spurious failures. -/
theorem length_le_of_run {trace : List ((Thread × Event Addr T) × Bool)}
    {state : State Thread Addr T} (hrun : (watchedStack Thread Addr T).Run trace state) :
    trace.length ≤ operationCost (Fintype.card Thread - 1) *
      (returns trace + Fintype.card Thread) + 2 * spuriousFailures trace := by
  have hbound := hrun.cost_add_potential_le (fun state ↦ ∑ thread, work state thread) (fun _ ↦ 1)
    (fun label ↦ credit (Fintype.card Thread - 1) label.1.2 label.2)
    (fun state hstart ↦ by rw [show state = _ from hstart, sum_work_initial])
    (fun _ _ _ _ _ ↦ sum_work_step)
  rw [sum_credit, List.map_const', List.sum_replicate, smul_eq_mul, mul_one] at hbound
  calc trace.length
      ≤ Fintype.card Thread * operationCost (Fintype.card Thread - 1) +
          (operationCost (Fintype.card Thread - 1) * returns trace +
            2 * spuriousFailures trace) := (Nat.le_add_right _ _).trans hbound
    _ = _ := by ring

/-- The bound along the run of `handover`. -/
theorem length_le_of_run_handover : ∃ watched : List ((Bool × Event ℕ ℕ) × Bool),
    watched.map Prod.fst = handover ∧
      watched.length ≤ 13 * (returns watched + 2) + 2 * spuriousFailures watched := by
  obtain ⟨watched, hwatched, hrun⟩ := exists_watchedRun handover_run
  exact ⟨watched, hwatched, length_le_of_run hrun⟩

end LockFreedom

/-! ### No bound on one operation -/

section Starvation

variable {T : Type*} {trace : List ((Bool × Event ℕ T) × Bool)} {memory memory' : Memory ℕ T}

/-- The program points of the two threads. -/
def points (pusher popper : Pc ℕ T) : Bool → Pc ℕ T
  | false => pusher
  | true => popper

/-- A step of thread `false` that is no spurious failure. -/
theorem run_pusher {pusher popper next : Pc ℕ T} {event : Event ℕ T}
    (hrun : (watchedStack Bool ℕ T).Run trace ⟨memory, points pusher popper⟩)
    (hstep : ThreadStep memory pusher event memory' next) (hquiet : ¬ Spurious memory pusher next) :
    (watchedStack Bool ℕ T).Run (trace ++ [((false, event), false)])
      ⟨memory', points next popper⟩ := by
  have hpoints : Function.update (points pusher popper) false next = points next popper := by
    funext thread
    cases thread <;> rfl
  refine hrun.step ⟨?_, by simpa [points] using hquiet⟩
  rw [← hpoints]
  exact .thread _ false event memory' next hstep

/-- A step of thread `true` that is no spurious failure. -/
theorem run_popper {pusher popper next : Pc ℕ T} {event : Event ℕ T}
    (hrun : (watchedStack Bool ℕ T).Run trace ⟨memory, points pusher popper⟩)
    (hstep : ThreadStep memory popper event memory' next) (hquiet : ¬ Spurious memory popper next) :
    (watchedStack Bool ℕ T).Run (trace ++ [((true, event), false)])
      ⟨memory', points pusher next⟩ := by
  have hpoints : Function.update (points pusher popper) true next = points pusher next := by
    funext thread
    cases thread <;> rfl
  refine hrun.step ⟨?_, by simpa [points] using hquiet⟩
  rw [← hpoints]
  exact .thread _ true event memory' next hstep

/-- The steps of thread `false` in one push. -/
def pushSteps (val : T) (newHead : ℕ) : List ((Bool × Event ℕ T) × Bool) :=
  [((false, .callPush val), false), ((false, .new newHead), false), ((false, .internal), false),
    ((false, .internal), false), ((false, .casPush), false), ((false, .returnPush), false)]

/-- One push of thread `false`, whatever thread `true` is at. -/
theorem run_push {popper : Pc ℕ T} (val : T) (newHead : ℕ)
    (hrun : (watchedStack Bool ℕ T).Run trace ⟨memory, points .idle popper⟩)
    (hfresh : memory.heap newHead = none) :
    (watchedStack Bool ℕ T).Run (trace ++ pushSteps val newHead)
      ⟨⟨Function.update memory.heap newHead (some ⟨some val, memory.head⟩), some newHead,
        memory.trash⟩, points .idle popper⟩ := by
  have h := run_pusher hrun (.callPush _ val) (by simp [Spurious])
  have h := run_pusher h (.new _ val newHead hfresh) (by simp [Spurious])
  have h := run_pusher h (.pushLoad _ newHead) (by simp [Spurious])
  have h := run_pusher h (.pushLink _ newHead _ (by simp [Memory.link, Memory.new]))
    (by simp [Spurious])
  have h := run_pusher h (.pushCas _ newHead _ rfl) (by simp [Spurious])
  have h := run_pusher h (.pushReturn _) (by simp [Spurious])
  simpa [pushSteps, Memory.setNext, Memory.new] using h

/-- The events of thread `true` along a trace. -/
def popEvents (trace : List ((Bool × Event ℕ T) × Bool)) : List (Event ℕ T) :=
  (trace.filter fun label ↦ label.1.1).map fun label ↦ label.1.2

/-- Thread `false` is idle and has pushed at addresses below `nodes`; thread `true` is in a `pop`
and about to exchange the `head` that it has read. -/
def Contended (nodes : ℕ) (trace : List ((Bool × Event ℕ T) × Bool)) : Prop :=
  ∃ memory oldHead newHead,
    (watchedStack Bool ℕ T).Run trace ⟨memory, points .idle (.popCas oldHead newHead)⟩ ∧
      oldHead < nodes ∧ ∀ address ≥ nodes, memory.heap address = none

/-- Thread `true` reads the first node, then each further node is pushed just before it tries to
exchange the last. -/
def starvation (val : T) : ℕ → List ((Bool × Event ℕ T) × Bool)
  | 0 => pushSteps val 0 ++
      [((true, .callPop), false), ((true, .internal), false), ((true, .internal), false)]
  | rounds + 1 => starvation val rounds ++ pushSteps val (rounds + 1) ++
      [((true, .internal), false), ((true, .internal), false)]

/-- What lies on the heap after a push. -/
theorem heap_push {heap : ℕ → Option (Node ℕ T)} {nodes : ℕ} (node : Node ℕ T)
    (hfresh : ∀ address ≥ nodes, heap address = none) (address : ℕ) (h : nodes + 1 ≤ address) :
    Function.update heap nodes (some node) address = none := by
  rw [Function.update_of_ne (by omega)]
  exact hfresh address (by omega)

theorem contended_starvation (val : T) (rounds : ℕ) :
    Contended (rounds + 1) (starvation val rounds) := by
  induction rounds with
  | zero =>
    have hstart : (watchedStack Bool ℕ T).Run [] ⟨⟨fun _ ↦ none, none, none⟩, points .idle .idle⟩ :=
      .start (by
        rw [show points .idle .idle = fun _ ↦ (.idle : Pc ℕ T) from
          funext fun thread ↦ by cases thread <;> rfl]
        rfl)
    have h := run_push val 0 hstart rfl
    have h := run_popper h (.callPop _) (by simp [Spurious])
    have h := run_popper h (.popLoad _ 0 rfl) (by simp [Spurious])
    have h := run_popper h (.popNext _ 0 none (by simp [Memory.link])) (by simp [Spurious])
    exact ⟨_, _, _, by simpa [starvation] using h, Nat.zero_lt_one, heap_push _ fun _ _ ↦ rfl⟩
  | succ rounds ih =>
    obtain ⟨memory, oldHead, newHead, hrun, hbelow, hfresh⟩ := ih
    have h := run_push val (rounds + 1) hrun (hfresh (rounds + 1) le_rfl)
    -- the exchange fails for a reason: the head is the node just pushed
    have hmoved : oldHead ≠ rounds + 1 := hbelow.ne
    have h := run_popper h (.popCasFail _ oldHead newHead (rounds + 1) rfl)
      (by simpa [Spurious] using Ne.symm hmoved)
    have h := run_popper h (.popNext _ (rounds + 1) memory.head (by simp [Memory.link]))
      (by simp [Spurious])
    exact ⟨_, _, _, by simpa [starvation] using h, Nat.lt_succ_self _, heap_push _ hfresh⟩

theorem popEvents_starvation (val : T) (rounds : ℕ) :
    popEvents (starvation val rounds) =
      .callPop :: List.replicate (2 * rounds + 2) .internal := by
  induction rounds with
  | zero => simp [popEvents, starvation, pushSteps, List.replicate]
  | succ rounds ih =>
    have hstep : popEvents (starvation val (rounds + 1)) =
        popEvents (starvation val rounds) ++ List.replicate 2 .internal := by
      simp [popEvents, starvation, pushSteps, List.replicate]
    rw [hstep, ih, List.cons_append, ← List.replicate_add]
    congr 2

theorem spuriousFailures_starvation (val : T) (rounds : ℕ) :
    spuriousFailures (starvation val rounds) = 0 := by
  induction rounds with
  | zero => rfl
  | succ rounds ih =>
    unfold spuriousFailures at *
    rw [starvation, List.countP_append, List.countP_append, ih]
    rfl

/-- The stack is not wait-free: without any spurious failure, one `pop` can take any number of
steps and not return while another thread pushes. -/
theorem pop_starves (val : T) (rounds : ℕ) : ∃ trace state,
    (watchedStack Bool ℕ T).Run trace state ∧ spuriousFailures trace = 0 ∧
      popEvents trace = .callPop :: List.replicate (2 * rounds + 2) .internal := by
  obtain ⟨memory, oldHead, newHead, hrun, -⟩ := contended_starvation val rounds
  exact ⟨_, _, hrun, spuriousFailures_starvation val rounds, popEvents_starvation val rounds⟩

end Starvation

end DailyChallenge.Treiber
