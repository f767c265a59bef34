import Mathlib
import DailyChallenge.Coroutines.Invariant

/-!
# Safety, fairness and termination of the scheduler

Any program of coroutines that yield and spawn in any order before they return, as long as there are
never more than eight. `Inv.turn` takes a call on until no coroutine is ready, and `Inv.stepKind` is
what every step does when nothing was done before the call; `inv_run` has the invariant in every
reachable state. A ready coroutine waits at most for one turn of each other (`fair_run`): the turns
of others that are past do not come before its own again. The call returns (`exists_returned`).
-/

set_option autoImplicit false
set_option relaxedAutoImplicit false

namespace DailyChallenge.Coroutines

open Library

variable {earlier ahead : ℕ} {state next : State} {event : Event} {fns : List Code}
  {trace : List Event}

/-! ### One step -/

/-- What a step of the scheduler and the coroutines under it is, while there is something to resume
or the call returns. -/
inductive StepKind (earlier ahead : ℕ) (state : State) : Event → State → Prop
  | resume {completed index : ℕ} {next : State}
    (atTest : AtTest earlier completed ahead state.globals)
    (find : (scan state.globals).find? state.globals.isReady = some index)
    (resumes : Resumes earlier ahead state index next) :
    StepKind earlier ahead state (.resume index) next
  | act {event : Event} {next : State} (acts : Acts earlier ahead state event next) :
    StepKind earlier ahead state event next
  | exit (inv : Inv earlier ahead ⟨state.globals, .returned⟩)
    (step_eq : step state = some (⟨state.globals, .returned⟩, .exit)) :
    StepKind earlier ahead state .exit ⟨state.globals, .returned⟩

theorem StepKind.step_eq (h : StepKind earlier ahead state event next) :
    step state = some (next, event) := by
  cases h with
  | resume _ _ resumes => exact resumes.step_eq
  | act acts => exact acts.step_eq
  | exit _ step_eq => exact step_eq

theorem StepKind.inv (h : StepKind earlier ahead state event next) : Inv earlier ahead next := by
  cases h with
  | resume _ _ resumes => exact resumes.inv
  | act acts => exact acts.inv
  | exit inv _ => exact inv

/-- The scheduler is at its test and no coroutine is ready. -/
def State.Settled (state : State) : Prop :=
  (∃ completed, state.pc = .test completed) ∧ ∀ index, state.globals.isReady index ≠ true

/-- Until it is settled the call goes on, with less left to do. -/
theorem Inv.turn (h : Inv earlier ahead state) (hpc : state.pc ≠ .returned)
    (hsettled : ¬ state.Settled) :
    ∃ event next, StepKind earlier ahead state event next ∧ next.work < state.work ∧
      state.globals.coroCount ≤ next.globals.coroCount ∧ next.pc ≠ .returned := by
  obtain ⟨globals, pc⟩ := state
  cases pc with
  | test completed =>
    have hready : ∃ index, globals.isReady index = true := by
      by_contra hnone
      exact hsettled ⟨⟨completed, rfl⟩, not_exists.mp hnone⟩
    obtain ⟨ready, hready⟩ := hready
    obtain ⟨index, hfind⟩ := AtTest.exists_find h hready
    obtain ⟨next, hnext⟩ := AtTest.resume h hfind
    exact ⟨_, next, .resume h hfind hnext, hnext.work_lt, hnext.count_le, hnext.pc_ne⟩
  | inside completed code =>
    obtain ⟨before, coro, after, hinside⟩ := h
    obtain ⟨event, next, hacts⟩ := hinside.step
    exact ⟨event, next, .act hacts, hacts.work_lt, hacts.count_le, hacts.pc_ne⟩
  | returned => exact absurd rfl hpc

/-- When no coroutine is ready all are done. -/
theorem AtTest.completed_of_settled {completed : ℕ} {globals : Globals}
    (h : AtTest earlier completed ahead globals)
    (hsettled : ∀ index, globals.isReady index ≠ true) :
    completed + earlier = globals.coroCount := by
  have hle : doneCount globals.coros ≤ globals.coroCount := List.countP_le_length
  have hsum := h.completed_eq
  refine le_antisymm (by omega) (not_lt.mp fun hless ↦ ?_)
  obtain ⟨index, hready⟩ := h.exists_ready hless
  exact hsettled index hready

/-- Every step of a call before which nothing was done is one of these. -/
theorem Inv.stepKind (h : Inv 0 ahead state) (hstep : step state = some (next, event)) :
    StepKind 0 ahead state event next := by
  have hkind : ∃ event next, StepKind 0 ahead state event next := by
    obtain ⟨globals, pc⟩ := state
    by_cases hsettled : (State.mk globals pc).Settled
    · obtain ⟨⟨completed, rfl⟩, hnone⟩ := hsettled
      have hcount := AtTest.completed_of_settled h hnone
      obtain ⟨hexit, hinv⟩ := AtTest.exit h hcount.ge
      exact ⟨_, _, .exit hinv hexit⟩
    · obtain ⟨event, next, hkind, -⟩ := h.turn (pc_ne_of_step hstep) hsettled
      exact ⟨event, next, hkind⟩
  obtain ⟨event', next', hkind⟩ := hkind
  have hsame := Option.some_inj.mp (hkind.step_eq.symm.trans hstep)
  obtain ⟨rfl, rfl⟩ := Prod.mk.inj hsame
  exact hkind

/-- A run of a system that contains the call can be continued until the call is settled. -/
theorem Inv.exists_settled {Whole Label : Type*} {system : TransitionSystem Whole Label}
    (embed : State → Whole)
    (hembed : ∀ state event next, step state = some (next, event) →
      ∃ label, system.Step (embed state) label (embed next))
    (h : Inv earlier ahead state) (hpc : state.pc ≠ .returned) {trace : List Label}
    (hrun : system.Run trace (embed state)) :
    ∃ rest completed globals, system.Run (trace ++ rest) (embed ⟨globals, .test completed⟩) ∧
      AtTest earlier completed ahead globals ∧ (∀ index, globals.isReady index ≠ true) ∧
      state.globals.coroCount ≤ globals.coroCount := by
  induction hwork : state.work using Nat.strong_induction_on generalizing state trace with
  | _ size ih =>
    by_cases hsettled : state.Settled
    · obtain ⟨globals, pc⟩ := state
      obtain ⟨⟨completed, rfl⟩, hnone⟩ := hsettled
      exact ⟨[], completed, globals, by rwa [List.append_nil], h, hnone, le_rfl⟩
    · obtain ⟨event, next, hkind, hless, hcount, hnextPc⟩ := h.turn hpc hsettled
      obtain ⟨label, hstep⟩ := hembed _ _ _ hkind.step_eq
      obtain ⟨rest, completed, globals, hlast, hatTest, hnone, hle⟩ :=
        ih _ (hwork ▸ hless) hkind.inv hnextPc (hrun.step hstep) rfl
      refine ⟨label :: rest, completed, globals, ?_, hatTest, hnone, hcount.trans hle⟩
      rwa [List.append_cons]

/-! ### Reachable states -/

/-- The coroutines of a program: those that are spawned before the call, and those that they spawn.
-/
def total (fns : List Code) : ℕ := (fns.map fun fn ↦ fn.spawned + 1).sum

/-- Spawning before a call. -/
theorem AtTest.spawnAll {completed : ℕ} {globals : Globals}
    (h : AtTest earlier completed (total fns + ahead) globals) :
    ∃ next, Coroutines.spawnAll globals fns = some next ∧ AtTest earlier completed ahead next ∧
      next.coroCount = globals.coroCount + fns.length := by
  induction fns generalizing globals with
  | nil =>
    refine ⟨globals, rfl, ?_, rfl⟩
    simpa [total] using h
  | cons fn fns ih =>
    have hbudget := h.room
    have hcompleted := h.completed_eq
    have hcurrent := h.current_lt
    rw [total, List.map_cons, List.sum_cons] at hbudget
    have hspawn : coroSpawn globals fn =
        some { globals with coros := globals.coros ++ [⟨fn, .ready, globals.coroCount⟩] } :=
      if_pos (by omega)
    have hspawned : AtTest earlier completed (total fns + ahead)
        { globals with coros := globals.coros ++ [⟨fn, .ready, globals.coroCount⟩] } := by
      constructor
      case doneCtx => exact h.doneCtx
      case current_ge => exact h.current_ge
      case current_lt =>
        simp [Globals.coroCount] at hcurrent ⊢
        omega
      case current_nonneg => simpa using h.current_nonneg
      case notRunning =>
        intro coro hcoro
        rcases List.mem_append.mp hcoro with hold | hnew
        · exact h.notRunning coro hold
        · obtain rfl := List.mem_singleton.mp hnew
          simp
      case completed_eq => simpa using hcompleted
      case room =>
        simp [Globals.coroCount, total] at hbudget ⊢
        omega
    obtain ⟨next, hnext, hatTest, hcount⟩ := ih hspawned
    refine ⟨next, ?_, hatTest, ?_⟩
    · rw [Coroutines.spawnAll, List.foldlM_cons, hspawn]
      exact hnext
    · rw [hcount]
      simp [Globals.coroCount]
      omega

theorem atTest_initial (h : ahead ≤ maxCoroutines) : AtTest 0 0 ahead .initial :=
  ⟨rfl, le_rfl, by decide, by decide, by simp [Globals.initial, doneSpawn], rfl,
    by simpa [Globals.initial, doneSpawn, Globals.coroCount] using h⟩

/-- The start of a call after nothing but spawns. -/
theorem exists_start (hmax : total fns ≤ maxCoroutines) :
    ∃ globals, Coroutines.spawnAll .initial fns = some globals ∧ AtTest 0 0 0 globals := by
  have hinitial : AtTest 0 0 (total fns + 0) .initial := atTest_initial hmax
  obtain ⟨globals, hspawn, hatTest, -⟩ := hinitial.spawnAll
  exact ⟨globals, hspawn, hatTest⟩

theorem inv_run (hmax : total fns ≤ maxCoroutines) (hrun : (schedulerRun fns).Run trace state) :
    Inv 0 0 state := by
  apply hrun.invariant
  · rintro ⟨globals, pc⟩ ⟨hspawn, rfl⟩
    obtain ⟨globals', hspawn', hatTest⟩ := exists_start hmax
    obtain rfl := Option.some_inj.mp (hspawn.symm.trans hspawn')
    exact hatTest
  · intro trace state event next _ hinv hstep
    exact (hinv.stepKind hstep).inv

/-! ### Fairness -/

/-- After the turns of some coroutines a ready one still waits: it has not been resumed since, and
the turns of the others are single and do not come again before its own. -/
structure WaitsAfter (index : ℕ) (between : List Event) (state : State) : Prop where
  ready : state.globals.isReady index = true
  once : ∀ other, between.count (.resume other) ≤ 1
  passed : ∀ other, .resume other ∈ between → ¬ Before state.globals.current other index

theorem WaitsAfter.start {index : ℕ} (hready : state.globals.isReady index = true) :
    WaitsAfter index [] state :=
  ⟨hready, fun _ ↦ Nat.zero_le _, fun _ hmem ↦ absurd hmem List.not_mem_nil⟩

/-- A step that is no resumption and leaves `current` alone. -/
theorem WaitsAfter.keep {index : ℕ} {between : List Event} (h : WaitsAfter index between state)
    (hready : next.globals.isReady index = true)
    (hcurrent : next.globals.current = state.globals.current)
    (hevent : ∀ other, event ≠ .resume other) : WaitsAfter index (between ++ [event]) next := by
  constructor
  case ready => exact hready
  case once =>
    intro other
    rw [List.count_append, List.count_singleton, if_neg (by simpa using hevent other)]
    exact h.once other
  case passed =>
    intro other hmem
    rw [hcurrent]
    rcases List.mem_append.mp hmem with hold | hnew
    · exact h.passed other hold
    · exact absurd (List.mem_singleton.mp hnew).symm (hevent other)

/-- The turn of a coroutine that comes before the one that waits. -/
theorem WaitsAfter.resume {index found : ℕ} {between : List Event}
    (h : WaitsAfter index between state) (hbefore : Before state.globals.current found index)
    (hready : next.globals.isReady index = true) (hcurrent : next.globals.current = found) :
    WaitsAfter index (between ++ [.resume found]) next := by
  have hfirst : Event.resume found ∉ between := fun hmem ↦ h.passed found hmem hbefore
  constructor
  case ready => exact hready
  case once =>
    intro other
    rw [List.count_append, List.count_singleton]
    by_cases hsame : other = found
    · rw [hsame, List.count_eq_zero.mpr hfirst, if_pos (by simp)]
    · rw [if_neg (by simpa using Ne.symm hsame)]
      exact h.once other
  case passed =>
    intro other hmem
    rw [hcurrent]
    rcases List.mem_append.mp hmem with hold | hnew
    · have hpassed := h.passed other hold
      unfold Before at hbefore hpassed ⊢
      split_ifs at * <;> omega
    · obtain rfl := Event.resume.inj (List.mem_singleton.mp hnew)
      unfold Before
      split_ifs <;> omega

/-- While a coroutine is ready and not resumed, no other is resumed twice. -/
theorem fair_run {before between : List Event} {middle last : State} {index : ℕ}
    (hmax : total fns ≤ maxCoroutines) (hmiddle : (schedulerRun fns).Run before middle)
    (hready : middle.globals.isReady index = true)
    (hlast : (schedulerRun fns).Run (before ++ between) last)
    (hnot : .resume index ∉ between) (other : ℤ) : between.count (.resume other) ≤ 1 := by
  have hwaits : .resume index ∉ between → WaitsAfter index between last := by
    apply (schedulerRun_deterministic fns).segmentInvariant hmiddle _ _ hlast
    · exact fun _ ↦ .start hready
    intro between state event next hrun ih hstep hnot
    rw [List.mem_append, not_or, List.mem_singleton] at hnot
    have hwaits := ih hnot.1
    cases (inv_run hmax hrun).stepKind hstep with
    | resume hatTest hfind hresumes =>
      have hne : index ≠ _ := fun hsame ↦ hnot.2 (congrArg (Event.resume ∘ Nat.cast) hsame)
      exact hwaits.resume (hatTest.find_before hfind hwaits.ready hne)
        (hresumes.ready index hne hwaits.ready) hresumes.current_eq
    | act hacts =>
      exact hwaits.keep (hacts.ready index hwaits.ready) hacts.current_eq hacts.event_ne
    | exit => exact hwaits.keep hwaits.ready rfl (fun _ hevent ↦ by cases hevent)
  exact (hwaits hnot).once other

/-! ### The whole call -/

/-- The call returns, and everything before it is on the way there. -/
theorem exists_returned (hmax : total fns ≤ maxCoroutines) :
    ∃ trace globals, (schedulerRun fns).Run trace ⟨globals, .returned⟩ ∧
      (∀ coro ∈ globals.coros, coro.state = .done) ∧
      ∀ trace' state, (schedulerRun fns).Run trace' state → trace' <+: trace := by
  obtain ⟨start, hspawn, hatTest⟩ := exists_start hmax
  have hstart : (schedulerRun fns).Run [] ⟨start, .test 0⟩ := .start ⟨hspawn, rfl⟩
  have hinv : Inv 0 0 ⟨start, .test 0⟩ := hatTest
  obtain ⟨trace, completed, globals, hrun, hsettled, hnone, -⟩ :=
    hinv.exists_settled id (fun _ event _ hstep ↦ ⟨event, hstep⟩) Pc.noConfusion hstart
  obtain ⟨hexit, hreturned⟩ := hsettled.exit (hsettled.completed_of_settled hnone).ge
  have hlast := hrun.step hexit
  have hdone := AtTest.all_done hreturned (Nat.le_add_right _ _)
  refine ⟨_, globals, hlast, hdone, fun trace' state hrun' ↦ ?_⟩
  refine (schedulerRun_deterministic fns).prefix_of_final hlast (fun event next hstep ↦ ?_) hrun'
  cases hstep

/-- Exactly the coroutine at `current` is running. -/
def Globals.OnlyCurrentRuns (globals : Globals) : Prop :=
  ∃ index : ℕ, globals.current = index ∧ ∃ coro, globals.coros[index]? = some coro ∧
    coro.state = .running ∧
    ∀ (other : ℕ) (coro : Coroutine), globals.coros[other]? = some coro →
      coro.state = .running → other = index

theorem Inside.onlyCurrentRuns {completed : ℕ} {code : Code} {globals : Globals}
    {before after : List Coroutine} {coro : Coroutine}
    (h : Inside earlier completed ahead code globals before coro after) :
    globals.OnlyCurrentRuns := by
  refine ⟨before.length, h.current_eq, coro, ?_, h.running, fun other coro' hother hrunning ↦ ?_⟩
  · rw [h.coros_eq, getElem?_middle]
  · by_contra hne
    rw [h.coros_eq] at hother
    exact h.notRunning coro' (getElem?_others hother hne).1 hrunning

/-- What is asked of a call of `scheduler_run` after some spawns. In every reachable state exactly
the coroutine at `current` is running while coroutine code executes; at each test `completed_coro`
is the number of coroutines that are done, and if the loop continues the scan finds a ready one;
only a ready coroutine is resumed. While a coroutine is ready and not resumed no other is resumed
twice. The call returns, on every run, with every coroutine done. -/
structure Schedules (fns : List Code) : Prop where
  onlyCurrentRuns : ∀ trace globals completed code,
    (schedulerRun fns).Run trace ⟨globals, .inside completed code⟩ → globals.OnlyCurrentRuns
  completed_eq : ∀ trace globals completed,
    (schedulerRun fns).Run trace ⟨globals, .test completed⟩ → completed = doneCount globals.coros
  finds : ∀ trace globals completed, (schedulerRun fns).Run trace ⟨globals, .test completed⟩ →
    completed < globals.coroCount → ∃ index, (scan globals).find? globals.isReady = some index
  resumesReady : ∀ trace state index next, (schedulerRun fns).Run trace state →
    step state = some (next, .resume index) →
      ∃ ready : ℕ, index = ready ∧ state.globals.isReady ready = true
  fair : ∀ before between middle last index, (schedulerRun fns).Run before middle →
    middle.globals.isReady index = true → (schedulerRun fns).Run (before ++ between) last →
      .resume index ∉ between → ∀ other, between.count (.resume other) ≤ 1
  returns : ∃ trace globals, (schedulerRun fns).Run trace ⟨globals, .returned⟩ ∧
    (∀ coro ∈ globals.coros, coro.state = .done) ∧
    ∀ trace' state, (schedulerRun fns).Run trace' state → trace' <+: trace

/-- Every program of coroutines that yield and spawn in any order before they return, with at most
eight coroutines in all. -/
theorem schedules_of_total_le (fns : List Code) (hmax : total fns ≤ 8) : Schedules fns := by
  constructor
  case onlyCurrentRuns =>
    intro trace globals completed code hrun
    obtain ⟨before, coro, after, hinside⟩ := inv_run hmax hrun
    exact hinside.onlyCurrentRuns
  case completed_eq =>
    intro trace globals completed hrun
    exact AtTest.completed_eq (inv_run hmax hrun)
  case finds =>
    intro trace globals completed hrun hless
    have hatTest : AtTest 0 completed 0 globals := inv_run hmax hrun
    obtain ⟨index, hready⟩ := hatTest.exists_ready hless
    exact hatTest.exists_find hready
  case resumesReady =>
    intro trace state index next hrun hstep
    cases (inv_run hmax hrun).stepKind hstep with
    | resume _ hfind _ => exact ⟨_, rfl, List.find?_some hfind⟩
    | act hacts => exact absurd rfl (hacts.event_ne index)
  case fair =>
    intro before between middle last index hmiddle hready hlast hnot other
    exact fair_run hmax hmiddle hready hlast hnot other
  case returns => exact exists_returned hmax

/-- Two coroutines, one of which spawns a third between two yields. -/
theorem schedules_of_total_le_three :
    Schedules [.yield (.spawn (.yield .ret) (.yield .ret)), .yield .ret] :=
  schedules_of_total_le [.yield (.spawn (.yield .ret) (.yield .ret)), .yield .ret] (by decide)

end DailyChallenge.Coroutines
