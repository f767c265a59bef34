import Mathlib
import DailyChallenge.Coroutines.Fairness

/-!
# Calling the scheduler again

A program that calls `scheduler_run` more than once, with spawns before each call. The globals stay
from call to call, but `completed_coro` starts at zero and the loop runs to `coro_count`: once the
new coroutines are done, a call with older ones still waits for as many more, finds none ready and
resumes the one at `current`, which is done (`AtTest.resume_done`). The process ends there, so what
the model does after that step is not what the code does: such a call is not served, whatever comes.
Every call is served exactly in the programs that spawn before the last call only (`serves_iff`).
-/

set_option autoImplicit false
set_option relaxedAutoImplicit false

namespace DailyChallenge.Coroutines

open Library

/-! ### Programs -/

/-- The spawns that `main` still does before each of its calls, and the scheduler; the code of
`main` runs where the scheduler has returned. -/
structure ProgramState where
  phases : List (List Code)
  scheduler : State
deriving DecidableEq

inductive ProgramEvent
  | call
  | scheduler (event : Event)
deriving DecidableEq

/-- The spawns of a phase and its call, or a step of the call. -/
def programStep : ProgramState → Option (ProgramState × ProgramEvent)
  | ⟨fns :: phases, ⟨globals, .returned⟩⟩ =>
    (spawnAll globals fns).map fun globals ↦ (⟨phases, ⟨globals, .test 0⟩⟩, .call)
  | ⟨phases, state⟩ =>
    (step state).map fun (next, event) ↦ (⟨phases, next⟩, .scheduler event)

/-- A program that makes `done_ctx` and then goes through its phases. -/
def program (phases : List (List Code)) : TransitionSystem ProgramState ProgramEvent where
  Start state := state = ⟨phases, ⟨.initial, .returned⟩⟩
  Step state event next := programStep state = some (next, event)

theorem program_deterministic (phases : List (List Code)) : (program phases).Deterministic where
  start _ _ hfirst hsecond := hfirst.trans hsecond.symm
  step _ _ _ _ _ hstep hstep' := by
    have hsame := Option.some.inj (hstep.symm.trans hstep')
    exact ⟨(Prod.mk.inj hsame).2, (Prod.mk.inj hsame).1⟩

variable {phases : List (List Code)} {fns : List Code} {globals : Globals} {state : State}

theorem programStep_call {next : Globals} (hspawn : spawnAll globals fns = some next) :
    programStep ⟨fns :: phases, ⟨globals, .returned⟩⟩ =
      some (⟨phases, ⟨next, .test 0⟩⟩, .call) := by
  rw [programStep, hspawn]
  rfl

/-- The steps of a call are those of the scheduler. -/
theorem programStep_scheduler (hpc : state.pc ≠ .returned) :
    programStep ⟨phases, state⟩ =
      (step state).map fun (next, event) ↦ (⟨phases, next⟩, .scheduler event) := by
  obtain ⟨globals, pc⟩ := state
  cases phases <;> cases pc <;> first | rfl | exact absurd rfl hpc

theorem programStep_of_step {next : State} {event : Event}
    (hstep : step state = some (next, event)) :
    programStep ⟨phases, state⟩ = some (⟨phases, next⟩, .scheduler event) := by
  rw [programStep_scheduler (pc_ne_of_step hstep), hstep]
  rfl

/-- After the last call has begun there are only the steps of the scheduler. -/
theorem step_of_programStep {next : ProgramState} {event : ProgramEvent}
    (hstep : programStep ⟨[], state⟩ = some (next, event)) :
    ∃ after seen, step state = some (after, seen) ∧ next = ⟨[], after⟩ ∧
      event = .scheduler seen := by
  have hmap : (step state).map (fun (next, event) ↦ (ProgramState.mk [] next,
      ProgramEvent.scheduler event)) = some (next, event) := by
    obtain ⟨globals, pc⟩ := state
    cases pc <;> exact hstep
  obtain ⟨⟨after, seen⟩, hafter, hsame⟩ := Option.map_eq_some_iff.mp hmap
  obtain ⟨rfl, rfl⟩ := Prod.mk.inj hsame
  exact ⟨after, seen, hafter, rfl, rfl⟩

/-! ### What is asked of a program -/

/-- Every call resumes only coroutines that are not done, and returns, on every run, once all of
them are done. -/
structure Serves (phases : List (List Code)) : Prop where
  resumesLive : ∀ trace state index next, (program phases).Run trace state →
    programStep state = some (next, .scheduler (.resume index)) →
      ∃ live : ℕ, index = live ∧ ∃ coro, state.scheduler.globals.coros[live]? = some coro ∧
        coro.state ≠ .done
  allDone : ∀ trace left globals, (program phases).Run trace ⟨left, ⟨globals, .returned⟩⟩ →
    ∀ coro ∈ globals.coros, coro.state = .done
  returns : ∃ trace globals, (program phases).Run trace ⟨[], ⟨globals, .returned⟩⟩ ∧
    ∀ trace' state, (program phases).Run trace' state → trace' <+: trace

/-! ### Calls -/

section Calls

variable {earlier completed ahead : ℕ} {all tail : List (List Code)} {trace : List ProgramEvent}

theorem total_append (fns fns' : List Code) : total (fns ++ fns') = total fns + total fns' := by
  simp [total]

/-- At the return of a call everything was done in it, and is done before the next. -/
theorem AtTest.nextCall (h : AtTest earlier globals.coroCount ahead globals) :
    AtTest globals.coroCount 0 ahead globals := by
  have hle : doneCount globals.coros ≤ globals.coroCount := List.countP_le_length
  have hsum := h.completed_eq
  exact ⟨h.doneCtx, h.current_ge, h.current_lt, h.current_nonneg, h.notRunning, by omega, h.room⟩

/-- Where older coroutines are done and none is ready, the call resumes one that is done. -/
theorem AtTest.resume_done (h : AtTest earlier completed ahead globals)
    (hnone : ∀ index, globals.isReady index ≠ true) (hearlier : 0 < earlier) :
    ∃ next index, step ⟨globals, .test completed⟩ = some (next, .resume (index : ℕ)) ∧
      ∃ coro, globals.coros[index]? = some coro ∧ coro.state = .done := by
  have hcount := h.completed_of_settled hnone
  have hsum := h.completed_eq
  have hlt := h.current_lt
  obtain ⟨index, hindex⟩ := Int.eq_ofNat_of_zero_le (h.current_nonneg (by omega))
  have hselect : select globals = globals := by
    have hfind : (scan globals).find? globals.isReady = none := by
      rw [List.find?_eq_none]
      exact fun index _ ↦ hnone index
    rw [scan] at hfind
    rw [select, hfind]
  have hcoro : index < globals.coros.length := by
    rw [hindex] at hlt
    exact Int.ofNat_lt.mp hlt
  have hrunning : globals.running = some globals.coros[index] := by
    rw [Globals.running, hindex, if_pos (Int.natCast_nonneg index)]
    exact List.getElem?_eq_getElem hcoro
  have hdone := h.all_done hcount.ge _ (List.getElem_mem hcoro)
  refine ⟨⟨globals.setState .running, .inside completed globals.coros[index].ctx⟩, index, ?_,
    globals.coros[index], List.getElem?_eq_getElem hcoro, hdone⟩
  rw [step, if_pos (by omega), hselect]
  dsimp only
  rw [hrunning, hindex]
  rfl

/-- Calls before anything is spawned return at once. -/
theorem idle_run {empties : List (List Code)} (hempties : ∀ fns ∈ empties, fns = [])
    (hrun : (program all).Run trace ⟨empties ++ tail, ⟨.initial, .returned⟩⟩) :
    ∃ rest, (program all).Run (trace ++ rest) ⟨tail, ⟨.initial, .returned⟩⟩ := by
  induction empties generalizing trace with
  | nil => exact ⟨[], by rwa [List.append_nil]⟩
  | cons fns empties ih =>
    obtain ⟨rfl, hrest⟩ := List.forall_mem_cons.mp hempties
    have hcall := hrun.step (programStep_call (by rfl))
    have hexit : step ⟨.initial, .test 0⟩ = some (⟨.initial, .returned⟩, .exit) := rfl
    obtain ⟨rest, hlast⟩ := ih hrest (hcall.step (programStep_of_step hexit))
    refine ⟨.call :: .scheduler .exit :: rest, ?_⟩
    simpa using hlast

/-- A call goes on until no coroutine is ready. -/
theorem call_run (h : AtTest earlier 0 (total fns + ahead) globals)
    (hrun : (program all).Run trace ⟨fns :: tail, ⟨globals, .returned⟩⟩) :
    ∃ rest completed next, (program all).Run (trace ++ rest) ⟨tail, ⟨next, .test completed⟩⟩ ∧
      AtTest earlier completed ahead next ∧ (∀ index, next.isReady index ≠ true) ∧
      globals.coroCount + fns.length ≤ next.coroCount := by
  obtain ⟨spawned, hspawn, hatTest, hcount⟩ := h.spawnAll
  have hcall := hrun.step (programStep_call hspawn)
  have hinv : Inv earlier ahead ⟨spawned, .test 0⟩ := hatTest
  obtain ⟨rest, completed, next, hlast, hsettled, hnone, hle⟩ :=
    hinv.exists_settled (ProgramState.mk tail)
      (fun _ event _ hstep ↦ ⟨.scheduler event, programStep_of_step hstep⟩) Pc.noConfusion hcall
  refine ⟨.call :: rest, completed, next, ?_, hsettled, hnone, hcount.ge.trans hle⟩
  rwa [List.append_cons]

end Calls

/-! ### Spawns before the last call only -/

/-- The states of a program that spawns before its last call only. -/
inductive Served : ProgramState → Prop
  | idle {phases : List (List Code)} (hidle : ∀ fns ∈ phases.dropLast, fns = [])
    (hmax : total phases.flatten ≤ maxCoroutines) : Served ⟨phases, ⟨.initial, .returned⟩⟩
  | idleCall {phases : List (List Code)} (hidle : ∀ fns ∈ phases.dropLast, fns = [])
    (hmax : total phases.flatten ≤ maxCoroutines) : Served ⟨phases, ⟨.initial, .test 0⟩⟩
  | last {state : State} (hinv : Inv 0 0 state) : Served ⟨[], state⟩

theorem Served.step {state next : ProgramState} {event : ProgramEvent} (h : Served state)
    (hstep : programStep state = some (next, event)) : Served next := by
  cases h with
  | @idle phases hidle hmax =>
    cases phases with
    | nil => cases hstep
    | cons fns rest =>
      cases rest with
      | nil =>
        rw [List.flatten_cons, List.flatten_nil, List.append_nil] at hmax
        obtain ⟨globals, hspawn, hatTest⟩ := exists_start hmax
        rw [programStep_call hspawn] at hstep
        cases hstep
        exact .last hatTest
      | cons fns' rest =>
        obtain ⟨rfl, hrest⟩ := List.forall_mem_cons.mp hidle
        cases hstep
        exact .idleCall hrest hmax
  | idleCall hidle hmax =>
    rw [programStep_scheduler Pc.noConfusion] at hstep
    cases hstep
    exact .idle hidle hmax
  | last hinv =>
    obtain ⟨after, seen, hafter, rfl, -⟩ := step_of_programStep hstep
    exact .last (hinv.stepKind hafter).inv

theorem served_run {trace : List ProgramEvent} {state : ProgramState}
    (hidle : ∀ fns ∈ phases.dropLast, fns = []) (hmax : total phases.flatten ≤ maxCoroutines)
    (hrun : (program phases).Run trace state) : Served state := by
  apply hrun.invariant
  · rintro _ rfl
    exact .idle hidle hmax
  · intro trace state event next _ hserved hstep
    exact hserved.step hstep

/-- A program that spawns before its last call only is at its end after that call. -/
theorem exists_end (hidle : ∀ fns ∈ phases.dropLast, fns = [])
    (hmax : total phases.flatten ≤ maxCoroutines) :
    ∃ trace globals, (program phases).Run trace ⟨[], ⟨globals, .returned⟩⟩ := by
  have hstart : (program phases).Run [] ⟨phases, ⟨.initial, .returned⟩⟩ := .start rfl
  rcases phases.eq_nil_or_concat with rfl | ⟨empties, fns, rfl⟩
  · exact ⟨[], .initial, hstart⟩
  · rw [List.concat_eq_append] at hidle hmax hstart ⊢
    rw [List.dropLast_concat] at hidle
    obtain ⟨trace, hrun⟩ := idle_run hidle hstart
    have hfns : total fns + 0 ≤ maxCoroutines := by
      rw [List.flatten_append, total_append] at hmax
      simp at hmax
      omega
    obtain ⟨rest, completed, globals, hlast, hsettled, hnone, -⟩ :=
      call_run (atTest_initial hfns) hrun
    have hexit := (hsettled.exit (hsettled.completed_of_settled hnone).ge).1
    exact ⟨_, globals, hlast.step (programStep_of_step hexit)⟩

theorem serves_of_idle (hidle : ∀ fns ∈ phases.dropLast, fns = [])
    (hmax : total phases.flatten ≤ maxCoroutines) : Serves phases := by
  constructor
  case resumesLive =>
    intro trace state index next hrun hstep
    cases served_run hidle hmax hrun with
    | @idle phases =>
      cases phases with
      | nil => cases hstep
      | cons fns rest =>
        obtain ⟨globals, -, hsame⟩ := Option.map_eq_some_iff.mp hstep
        cases hsame
    | idleCall =>
      rw [programStep_scheduler Pc.noConfusion] at hstep
      cases hstep
    | last hinv =>
      obtain ⟨after, seen, hafter, -, hevent⟩ := step_of_programStep hstep
      obtain rfl := ProgramEvent.scheduler.inj hevent
      cases hinv.stepKind hafter with
      | resume _ hfind _ =>
        obtain ⟨coro, hcoro, hready⟩ := isReady_iff.mp (List.find?_some hfind)
        exact ⟨_, rfl, coro, hcoro, by simp [hready]⟩
      | act hacts => exact absurd rfl (hacts.event_ne index)
  case allDone =>
    intro trace left globals hrun
    cases served_run hidle hmax hrun with
    | idle => exact fun coro hcoro ↦ absurd hcoro List.not_mem_nil
    | last hinv => exact AtTest.all_done hinv (Nat.le_add_right _ _)
  case returns =>
    obtain ⟨trace, globals, hrun⟩ := exists_end hidle hmax
    refine ⟨trace, globals, hrun, fun trace' state hrun' ↦ ?_⟩
    refine (program_deterministic phases).prefix_of_final hrun (fun event next hstep ↦ ?_) hrun'
    cases hstep

/-! ### Spawns before another call -/

/-- The first phase with spawns, where it is not the last. -/
theorem exists_first_phase (h : ¬ ∀ fns ∈ phases.dropLast, fns = []) :
    ∃ empties fns next rest, phases = empties ++ fns :: next :: rest ∧
      (∀ fns ∈ empties, fns = []) ∧ fns ≠ [] := by
  induction phases with
  | nil => exact absurd (fun _ hmem ↦ absurd hmem List.not_mem_nil) h
  | cons fns phases ih =>
    cases phases with
    | nil => exact absurd (fun _ hmem ↦ absurd hmem List.not_mem_nil) h
    | cons next rest =>
      by_cases hfns : fns = []
      · have hrest : ¬ ∀ fns ∈ (next :: rest).dropLast, fns = [] := by
          intro hall
          rw [List.dropLast_cons_cons, List.forall_mem_cons] at h
          exact h ⟨hfns, hall⟩
        obtain ⟨empties, first, next', rest', hsplit, hempties, hne⟩ := ih hrest
        refine ⟨fns :: empties, first, next', rest', ?_, ?_, hne⟩
        · rw [hsplit, List.cons_append]
        · exact List.forall_mem_cons.mpr ⟨hfns, hempties⟩
      · exact ⟨[], fns, next, rest, rfl, fun _ hmem ↦ absurd hmem List.not_mem_nil, hfns⟩

/-- A program with spawns before a call that is not the last resumes a coroutine that is done. -/
theorem exists_resume_done (h : ¬ ∀ fns ∈ phases.dropLast, fns = [])
    (hmax : total phases.flatten ≤ maxCoroutines) :
    ∃ trace state next index, (program phases).Run trace state ∧
      programStep state = some (next, .scheduler (.resume (index : ℕ))) ∧
      ∃ coro, state.scheduler.globals.coros[index]? = some coro ∧ coro.state = .done := by
  obtain ⟨empties, fns, next, rest, rfl, hempties, hne⟩ := exists_first_phase h
  have hstart : (program (empties ++ fns :: next :: rest)).Run []
      ⟨empties ++ fns :: next :: rest, ⟨.initial, .returned⟩⟩ := .start rfl
  obtain ⟨idle, hidle⟩ := idle_run hempties hstart
  have hroom : total fns + (total next + 0) ≤ maxCoroutines := by
    simp [total_append] at hmax
    omega
  -- The call that has something to do returns with every coroutine done.
  obtain ⟨first, completed, globals, hfirst, hsettled, hnone, hcount⟩ :=
    call_run (atTest_initial hroom) hidle
  obtain ⟨hexit, hreturned⟩ := hsettled.exit (hsettled.completed_of_settled hnone).ge
  have hsecond := hfirst.step (programStep_of_step hexit)
  -- The next one starts to count again.
  obtain ⟨second, completed', globals', hlast, hsettled', hnone', -⟩ :=
    call_run (AtTest.nextCall hreturned) hsecond
  have hpos : 0 < globals.coroCount := by
    have hlength := List.length_pos_of_ne_nil hne
    omega
  obtain ⟨after, index, hresume, hdone⟩ := hsettled'.resume_done hnone' hpos
  exact ⟨_, _, _, index, hlast, programStep_of_step hresume, hdone⟩

theorem not_serves (h : ¬ ∀ fns ∈ phases.dropLast, fns = [])
    (hmax : total phases.flatten ≤ maxCoroutines) : ¬ Serves phases := by
  intro hserves
  obtain ⟨trace, state, next, index, hrun, hstep, coro, hcoro, hdone⟩ := exists_resume_done h hmax
  obtain ⟨live, hlive, coro', hcoro', hnotDone⟩ :=
    hserves.resumesLive trace state index next hrun hstep
  obtain rfl := Int.ofNat_inj.mp hlive
  rw [hcoro] at hcoro'
  obtain rfl := Option.some_inj.mp hcoro'
  exact hnotDone hdone

/-- With at most eight coroutines in all, every call of a program is served exactly if all phases
but the last spawn nothing. -/
theorem serves_iff (phases : List (List Code)) (hmax : total phases.flatten ≤ 8) :
    Serves phases ↔ ∀ fns ∈ phases.dropLast, fns = [] := by
  constructor
  · intro hserves
    by_contra hspawns
    exact not_serves hspawns hmax hserves
  · exact fun hidle ↦ serves_of_idle hidle hmax

/-- A call that finds nothing to do, and one with a coroutine that yields. -/
theorem serves_iff_twoCalls :
    Serves [[], [.yield .ret]] ↔ ∀ fns ∈ [[], [Code.yield .ret]].dropLast, fns = [] :=
  serves_iff [[], [.yield .ret]] (by decide)

/-- A second call after a coroutine has finished resumes it again. -/
theorem not_serves_secondCall : ¬ Serves [[.ret], []] := not_serves (by decide) (by decide)

end DailyChallenge.Coroutines
