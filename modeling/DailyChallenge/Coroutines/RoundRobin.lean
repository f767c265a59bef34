import Mathlib
import DailyChallenge.Coroutines.Scheduler
import DailyChallenge.Library.RoundRobin

/-!
# The scheduler is round robin

Coroutines that only yield, each some number of times, before they return. `Represents` finds the
queue of a round-robin scheduler in the globals: the ready coroutines in the order of the ring of
indices after `current`. One resumption is one turn of the queue (`Represents.resume`,
`Represents.yield`, `Represents.finish`), and `schedulerRun_roundRobin` is the result: the scheduler
returns, having resumed the coroutines in rounds.
-/

set_option autoImplicit false
set_option relaxedAutoImplicit false

namespace DailyChallenge.Coroutines

open Library

/-- Code that yields a number of times and then returns. -/
def yields : ℕ → Code
  | 0 => .ret
  | count + 1 => .yield (yields count)

/-- The events of a turn of the queue. -/
def turnEvents (turn : ℕ × Bool) : List Event :=
  [.resume turn.1, if turn.2 then .finish turn.1 else .yield turn.1]

/-- The ring of indices after `current`. -/
def ring (globals : Globals) : List ℕ :=
  (List.range globals.coroCount).rotate (globals.current + 1).toNat

/-- At the test of its loop the scheduler has a queue of tasks: the ready coroutines in ring order,
each with the yields its code has left. -/
structure Represents (globals : Globals) (completed : ℕ) (queue : List (ℕ × ℕ)) : Prop where
  doneCtx : globals.doneCtx = true
  ready_eq : queue.map Prod.fst = (ring globals).filter globals.isReady
  ctx : ∀ task ∈ queue, ∃ coro, globals.coros[task.1]? = some coro ∧ coro.ctx = yields task.2
  completed_eq : completed + queue.length = globals.coroCount

/-! ### The scan of the ready coroutines -/

/-- The indices the `for` loop looks at are the ring. -/
theorem scan_eq_ring (globals : Globals) :
    (List.range' (globals.current + 1).toNat globals.coroCount).map (· % globals.coroCount) =
      ring globals := by
  apply List.ext_getElem
  · simp [ring]
  · intro i hi _
    have hlt : i < globals.coroCount := by simpa using hi
    simp [ring, List.getElem_rotate, Nat.add_comm]

/-- The `for` loop selects the first task of the queue. -/
theorem Represents.select_eq {globals : Globals} {completed left index : ℕ}
    {rest : List (ℕ × ℕ)} (h : Represents globals completed ((index, left) :: rest)) :
    select globals = { globals with current := index } := by
  have hfind : (ring globals).find? globals.isReady = some index := by
    rw [← List.head?_filter, ← h.ready_eq]
    rfl
  rw [select, scan_eq_ring, hfind]

/-! ### Turns -/

/-- Globals that differ from others at most in `current`, which is a given index, in the coroutine
there, and in `done_ctx`. -/
structure Moved (globals next : Globals) (index : ℕ) (coro : Coroutine) : Prop where
  current_eq : next.current = index
  count_eq : next.coroCount = globals.coroCount
  self_eq : next.coros[index]? = some coro
  others_eq : ∀ other, other ≠ index → next.coros[other]? = globals.coros[other]?

section Turn

variable {globals next : Globals} {completed left index : ℕ} {rest : List (ℕ × ℕ)}
  {coro : Coroutine}

theorem Moved.running (h : Moved globals next index coro) : next.running = some coro := by
  rw [Globals.running, h.current_eq, if_pos (Int.natCast_nonneg index), Int.toNat_natCast]
  exact h.self_eq

/-- A write to the running coroutine. -/
theorem Moved.modify (h : Moved globals next index coro) (f : Coroutine → Coroutine) :
    Moved globals (next.modify f) index (f coro) := by
  have hindex : next.current.toNat = index := by rw [h.current_eq, Int.toNat_natCast]
  constructor
  case current_eq => exact h.current_eq
  case count_eq => exact (List.length_modify ..).trans h.count_eq
  case self_eq =>
    show (next.coros.modify next.current.toNat f)[index]? = some (f coro)
    rw [hindex, List.getElem?_modify_eq, h.self_eq]
    rfl
  case others_eq =>
    intro other hother
    show (next.coros.modify next.current.toNat f)[other]? = _
    rw [hindex, List.getElem?_modify_ne f _ hother.symm]
    exact h.others_eq other hother

theorem Moved.setState (h : Moved globals next index coro) (state : CoroState) :
    Moved globals (next.setState state) index { coro with state := state } := h.modify _

theorem Moved.setCtx (h : Moved globals next index coro) (ctx : Code) :
    Moved globals (next.setCtx ctx) index { coro with ctx := ctx } := h.modify _

/-- `done_ctx` has no part in it. -/
theorem Moved.withDoneCtx (h : Moved globals next index coro) (doneCtx : Bool) :
    Moved globals { next with doneCtx := doneCtx } index coro :=
  ⟨h.current_eq, h.count_eq, h.self_eq, h.others_eq⟩

/-- The ring after a turn of the first task: the other tasks are ready as before, and the task is
last in it. -/
theorem Represents.turn (h : Represents globals completed ((index, left) :: rest))
    (hmoved : Moved globals next index coro) :
    rest.map Prod.fst ++ (if coro.state = .ready then [index] else []) =
        (ring next).filter next.isReady ∧
      ∀ task ∈ rest, ∃ coro, next.coros[task.1]? = some coro ∧ coro.ctx = yields task.2 := by
  obtain ⟨before, after, hring, hbefore, -, hafter⟩ :=
    List.filter_eq_cons_iff.mp h.ready_eq.symm
  have hnodup : (before ++ index :: after).Nodup := by
    rw [← hring, ring, List.nodup_rotate]
    exact List.nodup_range
  have hnotMem : index ∉ before ++ after := (List.nodup_middle.mp hnodup).notMem
  have hsame : ∀ other ∈ before ++ after, next.isReady other = globals.isReady other := by
    intro other hother
    rw [Globals.isReady, Globals.isReady,
      hmoved.others_eq other (ne_of_mem_of_not_mem hother hnotMem)]
  have hnextRing : ring next = after ++ before ++ [index] := by
    rw [ring, hmoved.count_eq, hmoved.current_eq]
    exact range_rotate_next hring
  have hfilterAfter : after.filter next.isReady = rest.map Prod.fst := by
    rw [← hafter]
    apply List.filter_congr
    intro other hother
    exact hsame other (List.mem_append_right _ hother)
  have hfilterBefore : before.filter next.isReady = [] := by
    rw [List.filter_eq_nil_iff]
    intro other hother
    rw [hsame other (List.mem_append_left _ hother)]
    exact hbefore other hother
  have hisReady : next.isReady index = decide (coro.state = .ready) := by
    rw [Globals.isReady, hmoved.self_eq]
  constructor
  · rw [hnextRing, List.filter_append, List.filter_append, hfilterAfter, hfilterBefore,
      List.append_nil, List.filter_singleton, hisReady]
    by_cases hready : coro.state = .ready <;> simp [hready]
  · intro task htask
    have hmem : task.1 ∈ after := by
      have hfirst : task.1 ∈ after.filter globals.isReady := hafter ▸ List.mem_map_of_mem htask
      exact List.mem_of_mem_filter hfirst
    rw [hmoved.others_eq task.1 (ne_of_mem_of_not_mem (List.mem_append_right _ hmem) hnotMem)]
    exact h.ctx task (List.mem_cons_of_mem _ htask)

/-- The scheduler resumes the first task. -/
theorem Represents.resume (h : Represents globals completed ((index, left) :: rest)) :
    ∃ next coro, step ⟨globals, .test completed⟩ =
        some (⟨next, .inside completed (yields left)⟩, .resume index) ∧
      Moved globals next index coro ∧ coro.state = .running ∧ next.doneCtx = true := by
  obtain ⟨coro, hcoro, hctx⟩ := h.ctx (index, left) List.mem_cons_self
  have hlt : completed < globals.coroCount := by
    rw [← h.completed_eq, List.length_cons]
    omega
  have hmoved : Moved globals { globals with current := index } index coro :=
    ⟨rfl, rfl, hcoro, fun _ _ ↦ rfl⟩
  refine ⟨_, _, ?_, hmoved.modify fun coro ↦ { coro with state := .running }, rfl, h.doneCtx⟩
  rw [step, if_pos hlt, h.select_eq]
  dsimp only
  rw [hmoved.running, Option.map_some, hctx]
  rfl

/-- A task that yields is ready again and moves to the back of the queue. -/
theorem Represents.yield (h : Represents globals completed ((index, left + 1) :: rest))
    (hmoved : Moved globals next index coro) (hrunning : coro.state = .running)
    (hdone : next.doneCtx = true) :
    ∃ last, step ⟨next, .inside completed (yields (left + 1))⟩ =
        some (⟨last, .test completed⟩, .yield index) ∧
      Represents last completed (rest ++ [(index, left)]) := by
  have hsaved := hmoved.setCtx (yields left)
  have hready := hsaved.setState .ready
  refine ⟨(next.setCtx (yields left)).setState .ready, ?_, ?_⟩
  · rw [yields, step, afterSwitch, hsaved.running, hmoved.current_eq]
    simp [hrunning]
  · obtain ⟨hring, hctx⟩ := h.turn hready
    constructor
    case doneCtx => exact hdone
    case ready_eq =>
      rw [List.map_append]
      exact hring
    case ctx =>
      intro task htask
      rcases List.mem_append.mp htask with hrest | hlast
      · exact hctx task hrest
      · obtain rfl := List.mem_singleton.mp hlast
        exact ⟨_, hready.self_eq, rfl⟩
    case completed_eq =>
      rw [hready.count_eq, ← h.completed_eq, List.length_append]
      rfl

/-- A task that returns is done and leaves the queue. -/
theorem Represents.finish (h : Represents globals completed ((index, 0) :: rest))
    (hmoved : Moved globals next index coro) (hdone : next.doneCtx = true) :
    ∃ last, step ⟨next, .inside completed (yields 0)⟩ =
        some (⟨last, .test (completed + 1)⟩, .finish index) ∧
      Represents last (completed + 1) rest := by
  have hfinished := (hmoved.setState .done).withDoneCtx false
  have hlast := hfinished.withDoneCtx true
  refine ⟨doneSpawn { next.setState .done with doneCtx := false }, ?_, ?_⟩
  · rw [yields, step, Coroutines.finish, if_pos hdone, Option.bind_some, afterSwitch,
      hfinished.running, hmoved.current_eq]
    rfl
  · obtain ⟨hring, hctx⟩ := h.turn hlast
    constructor
    case doneCtx => exact rfl
    case ready_eq => exact (List.append_nil _).symm.trans hring
    case ctx => exact hctx
    case completed_eq =>
      have hcount := h.completed_eq
      rw [← hlast.count_eq, List.length_cons] at hcount
      rw [add_assoc, add_comm 1]
      exact hcount

/-- With an empty queue the scheduler returns. -/
theorem Represents.exit (h : Represents globals completed []) :
    step ⟨globals, .test completed⟩ = some (⟨globals, .returned⟩, .exit) := by
  have hcompleted : ¬ completed < globals.coroCount := by
    rw [← h.completed_eq]
    exact lt_irrefl _
  rw [step, if_neg hcompleted]

end Turn

/-! ### Whole runs -/

/-- From any point at which the scheduler has a queue it resumes the tasks in the turns of the queue
and returns. -/
theorem run_turns {fns : List Code} {queue : List (ℕ × ℕ)} {globals : Globals} {completed : ℕ}
    {trace : List Event} (h : Represents globals completed queue)
    (hrun : (schedulerRun fns).Run trace ⟨globals, .test completed⟩) :
    ∃ last, (schedulerRun fns).Run (trace ++ (turns queue).flatMap turnEvents ++ [.exit])
      ⟨last, .returned⟩ := by
  induction queue using turns.induct generalizing globals completed trace with
  | case1 =>
    refine ⟨globals, ?_⟩
    rw [turns, List.flatMap_nil, List.append_nil]
    exact hrun.step h.exit
  | case2 index rest ih =>
    obtain ⟨next, coro, hresume, hmoved, -, hdone⟩ := h.resume
    obtain ⟨last, hfinish, hlast⟩ := h.finish hmoved hdone
    obtain ⟨final, hfinal⟩ := ih hlast ((hrun.step hresume).step hfinish)
    refine ⟨final, ?_⟩
    rw [turns, List.flatMap_cons]
    simpa [turnEvents] using hfinal
  | case3 index left rest ih =>
    obtain ⟨next, coro, hresume, hmoved, hrunning, hdone⟩ := h.resume
    obtain ⟨last, hyield, hlast⟩ := h.yield hmoved hrunning hdone
    obtain ⟨final, hfinal⟩ := ih hlast ((hrun.step hresume).step hyield)
    refine ⟨final, ?_⟩
    rw [turns, List.flatMap_cons]
    simpa [turnEvents] using hfinal

/-- Spawning coroutines appends them, ready, as long as there is room. -/
theorem spawnAll_eq {globals : Globals} {fns : List Code}
    (hroom : globals.coroCount + fns.length ≤ maxCoroutines) :
    spawnAll globals fns = some { globals with
      coros := globals.coros ++ fns.mapIdx fun i fn ↦ ⟨fn, .ready, globals.coroCount + i⟩ } := by
  induction fns generalizing globals with
  | nil => simp [spawnAll]
  | cons fn fns ih =>
    rw [List.length_cons] at hroom
    have hspawn : coroSpawn globals fn =
        some { globals with coros := globals.coros ++ [⟨fn, .ready, globals.coroCount⟩] } :=
      if_pos (by omega)
    have hnext := @ih { globals with coros := globals.coros ++ [⟨fn, .ready, globals.coroCount⟩] }
      (by simp [Globals.coroCount] at hroom ⊢; omega)
    rw [spawnAll, List.foldlM_cons, hspawn]
    show spawnAll _ fns = _
    rw [hnext, List.mapIdx_cons]
    simp [Globals.coroCount, add_assoc, add_comm 1]

/-- The tasks of coroutines with given numbers of yields, in the order they were spawned. -/
def tasksOf (counts : List ℕ) : List (ℕ × ℕ) :=
  (List.range counts.length).map fun index ↦ (index, counts.getD index 0)

theorem map_fst_tasksOf (counts : List ℕ) :
    (tasksOf counts).map Prod.fst = List.range counts.length := by
  rw [tasksOf, List.map_map]
  exact List.map_id _

/-- The globals before `scheduler_run` hold the queue of all tasks. -/
theorem exists_represents {counts : List ℕ} (hmax : counts.length ≤ maxCoroutines) :
    ∃ globals, spawnAll .initial (counts.map yields) = some globals ∧
      Represents globals 0 (tasksOf counts) := by
  have hspawn := @spawnAll_eq .initial (counts.map yields)
    (by simpa [Globals.initial, doneSpawn, Globals.coroCount] using hmax)
  generalize hcoros : Globals.initial.coros ++ _ = coros at hspawn
  have hcoro : ∀ index < counts.length,
      coros[index]? = some ⟨yields (counts.getD index 0), .ready, index⟩ := by
    intro index hindex
    simp [← hcoros, Globals.initial, doneSpawn, Globals.coroCount, hindex]
  have hlength : coros.length = counts.length := by
    simp [← hcoros, Globals.initial, doneSpawn]
  refine ⟨_, hspawn, ?_⟩
  constructor
  case doneCtx => rfl
  case ready_eq =>
    have hring : ring { Globals.initial with coros := coros } = List.range counts.length := by
      show (List.range coros.length).rotate 0 = _
      rw [List.rotate_zero, hlength]
    rw [map_fst_tasksOf, hring, eq_comm, List.filter_eq_self]
    intro index hindex
    rw [Globals.isReady, hcoro index (List.mem_range.mp hindex)]
    rfl
  case ctx =>
    intro task htask
    obtain ⟨index, hindex, rfl⟩ := List.mem_map.mp htask
    exact ⟨_, hcoro index (List.mem_range.mp hindex), rfl⟩
  case completed_eq =>
    show 0 + (tasksOf counts).length = coros.length
    rw [hlength, zero_add, tasksOf, List.length_map, List.length_range]

/-- The indices of the coroutines that were resumed along a trace. -/
def resumptions (trace : List Event) : List ℕ :=
  trace.filterMap fun event ↦ match event with
    | .resume index => some index.toNat
    | _ => none

/-- The events of the coroutine with a given index. -/
def Event.isOf (index : ℕ) : Event → Bool
  | .resume other | .yield other | .finish other => other = index
  | _ => false

/-- Round `r`: the indices of all coroutines that yield at least `r` times, in increasing order. -/
def roundOf (counts : List ℕ) (r : ℕ) : List ℕ :=
  (List.range counts.length).filter fun index ↦ r ≤ counts.getD index 0

theorem resumptions_turns (turns : List (ℕ × Bool)) :
    resumptions (turns.flatMap turnEvents ++ [.exit]) = turns.map Prod.fst := by
  induction turns with
  | nil => rfl
  | cons turn turns ih =>
    obtain ⟨index, last⟩ := turn
    rw [List.map_cons, ← ih]
    cases last <;> simp [resumptions, turnEvents]

theorem filter_isOf_turns (turns : List (ℕ × Bool)) (index : ℕ) :
    (turns.flatMap turnEvents ++ [Event.exit]).filter (Event.isOf index) =
      (turns.filter (·.1 = index)).flatMap turnEvents := by
  induction turns with
  | nil => rfl
  | cons turn turns ih =>
    obtain ⟨other, last⟩ := turn
    rw [List.flatMap_cons, List.append_assoc, List.filter_append, ih]
    by_cases hsame : other = index
    · cases last <;> simp [turnEvents, Event.isOf, hsame]
    · cases last <;> simp [turnEvents, Event.isOf, hsame]

theorem roundOf_eq (counts : List ℕ) : roundOf counts = tasksInRound (tasksOf counts) := by
  funext r
  rw [roundOf, tasksInRound, tasksOf, List.filter_map, List.map_map]
  exact (List.map_id _).symm

/-- Up to eight coroutines that yield any numbers of times: the scheduler returns, on every run; it
resumes the coroutines in rounds `0, 1, 2, ..`, round `r` being all those that yield at least `r`
times, in increasing order; and each coroutine yields after each of its resumptions but the last,
after which alone it is done. -/
theorem schedulerRun_roundRobin (counts : List ℕ) (hmax : counts.length ≤ 8) :
    ∃ trace last, (schedulerRun (counts.map yields)).Run trace ⟨last, .returned⟩ ∧
      (∀ trace' state, (schedulerRun (counts.map yields)).Run trace' state → trace' <+: trace) ∧
      (∀ bound, (∀ count ∈ counts, count < bound) →
        resumptions trace = (List.range bound).flatMap (roundOf counts)) ∧
      ∀ index (hindex : index < counts.length), trace.filter (Event.isOf index) =
        (List.replicate counts[index] [.resume index, .yield index]).flatten ++
          [.resume index, .finish index] := by
  obtain ⟨globals, hspawn, hrepresents⟩ := exists_represents hmax
  have hstart : (schedulerRun (counts.map yields)).Run [] ⟨globals, .test 0⟩ :=
    .start ⟨hspawn, rfl⟩
  obtain ⟨last, hrun⟩ := run_turns hrepresents hstart
  rw [List.nil_append] at hrun
  refine ⟨_, last, hrun, ?_, ?_, ?_⟩
  · intro trace' state hrun'
    refine (schedulerRun_deterministic _).prefix_of_final hrun (fun event next hstep ↦ ?_) hrun'
    cases hstep
  · intro bound hbound
    rw [resumptions_turns, roundOf_eq]
    apply turns_rounds
    intro task htask
    obtain ⟨index, hindex, rfl⟩ := List.mem_map.mp htask
    have hlt : index < counts.length := List.mem_range.mp hindex
    show counts.getD index 0 < bound
    rw [List.getD_eq_getElem _ _ hlt]
    exact hbound _ (List.getElem_mem hlt)
  · intro index hindex
    have hnodup : ((tasksOf counts).map Prod.fst).Nodup := by
      rw [map_fst_tasksOf]
      exact List.nodup_range
    have hmem : (index, counts[index]) ∈ tasksOf counts := by
      rw [← List.getD_eq_getElem counts 0 hindex]
      exact List.mem_map_of_mem (List.mem_range.mpr hindex)
    rw [filter_isOf_turns, turns_of_task hnodup hmem, List.flatMap_append, List.flatMap_replicate]
    rfl

/-- The theorem at three coroutines that yield twice, never and once. -/
theorem schedulerRun_roundRobin_three :
    ∃ trace last, (schedulerRun ([2, 0, 1].map yields)).Run trace ⟨last, .returned⟩ ∧
      (∀ trace' state, (schedulerRun ([2, 0, 1].map yields)).Run trace' state → trace' <+: trace) ∧
      (∀ bound, (∀ count ∈ [2, 0, 1], count < bound) →
        resumptions trace = (List.range bound).flatMap (roundOf [2, 0, 1])) ∧
      ∀ index (hindex : index < [2, 0, 1].length), trace.filter (Event.isOf index) =
        (List.replicate [2, 0, 1][index] [.resume index, .yield index]).flatten ++
          [.resume index, .finish index] :=
  schedulerRun_roundRobin [2, 0, 1] (by decide)

example : (List.range 3).flatMap (roundOf [2, 0, 1]) = [0, 1, 2, 0, 2, 0] := by decide

end DailyChallenge.Coroutines
