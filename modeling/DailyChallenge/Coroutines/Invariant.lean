import Mathlib
import DailyChallenge.Coroutines.Scheduler

/-!
# What a call of the scheduler keeps

Coroutines that yield and spawn in any order before they return. Between the turns (`AtTest`) no
coroutine is running and `completed_coro` counts the coroutines that are done, but for those that
were done before the call; in a turn (`Inside`) exactly the coroutine at `current` is running. Every
action of a coroutine is one step that keeps this (`Inside.step`), as is the start of a turn
(`AtTest.resume`), and the actions that are left get fewer (`State.work`).
-/

set_option autoImplicit false
set_option relaxedAutoImplicit false

namespace DailyChallenge.Coroutines

open Library

/-! ### What is left to do -/

/-- The coroutines that some code spawns, and those that they spawn. -/
def Code.spawned : Code → ℕ
  | .ret => 0
  | .yield rest => rest.spawned
  | .spawn fn rest => fn.spawned + 1 + rest.spawned

/-- The steps until some running code and what it spawns has returned: a yield and a spawn are each
followed by a resumption. -/
def Code.steps : Code → ℕ
  | .ret => 1
  | .yield rest => rest.steps + 2
  | .spawn fn rest => fn.steps + rest.steps + 2

/-- A sum over the code that the ready coroutines have left. -/
def overReady (f : Code → ℕ) (coros : List Coroutine) : ℕ :=
  (coros.map fun coro ↦ if coro.state = .ready then f coro.ctx else 0).sum

/-- The number of coroutines that are done. -/
def doneCount (coros : List Coroutine) : ℕ := coros.countP fun coro ↦ coro.state = .done

variable {f : Code → ℕ} {coro : Coroutine} {coros before after : List Coroutine}

@[simp] theorem overReady_append :
    overReady f (before ++ after) = overReady f before + overReady f after := by
  simp [overReady]

@[simp] theorem overReady_cons :
    overReady f (coro :: coros) =
      (if coro.state = .ready then f coro.ctx else 0) + overReady f coros := by
  simp [overReady]

@[simp] theorem overReady_nil : overReady f [] = 0 := rfl

@[simp] theorem doneCount_append :
    doneCount (before ++ after) = doneCount before + doneCount after :=
  List.countP_append

@[simp] theorem doneCount_cons :
    doneCount (coro :: coros) = doneCount coros + if coro.state = .done then 1 else 0 := by
  simp [doneCount, List.countP_cons]

@[simp] theorem doneCount_nil : doneCount [] = 0 := rfl

/-- The steps until the scheduler returns. -/
def State.work : State → ℕ
  | ⟨globals, .test _⟩ => overReady (fun code ↦ code.steps + 1) globals.coros + 1
  | ⟨globals, .inside _ code⟩ =>
    overReady (fun code ↦ code.steps + 1) globals.coros + code.steps + 1
  | ⟨_, .returned⟩ => 0

/-! ### The invariant -/

/-- Between the turns. `earlier` coroutines were done before the call, and there is room for as many
as the ready ones still spawn and for `ahead` more. -/
structure AtTest (earlier completed ahead : ℕ) (globals : Globals) : Prop where
  doneCtx : globals.doneCtx = true
  current_ge : -1 ≤ globals.current
  current_lt : globals.current < globals.coroCount
  current_nonneg : 0 < doneCount globals.coros → 0 ≤ globals.current
  notRunning : ∀ coro ∈ globals.coros, coro.state ≠ .running
  completed_eq : completed + earlier = doneCount globals.coros
  room : globals.coroCount + (overReady Code.spawned globals.coros + ahead) ≤ maxCoroutines

/-- In a turn of the coroutine between the others. -/
structure Inside (earlier completed ahead : ℕ) (code : Code) (globals : Globals)
    (before : List Coroutine) (coro : Coroutine) (after : List Coroutine) : Prop where
  doneCtx : globals.doneCtx = true
  coros_eq : globals.coros = before ++ coro :: after
  current_eq : globals.current = before.length
  running : coro.state = .running
  notRunning : ∀ other ∈ before ++ after, other.state ≠ .running
  completed_eq : completed + earlier = doneCount (before ++ after)
  room : globals.coroCount + (overReady Code.spawned (before ++ after) + code.spawned + ahead) ≤
    maxCoroutines

/-- The invariant of a call of `scheduler_run`. -/
def Inv (earlier ahead : ℕ) : State → Prop
  | ⟨globals, .test completed⟩ => AtTest earlier completed ahead globals
  | ⟨globals, .inside completed code⟩ =>
    ∃ before coro after, Inside earlier completed ahead code globals before coro after
  | ⟨globals, .returned⟩ => AtTest earlier globals.coroCount ahead globals

/-! ### Actions of the running coroutine -/

section Middle

variable {globals next : Globals}

theorem modify_middle (hcoros : globals.coros = before ++ coro :: after)
    (hcurrent : globals.current = before.length) (f : Coroutine → Coroutine) :
    globals.modify f = { globals with coros := before ++ f coro :: after } := by
  have hlist : ∀ before : List Coroutine,
      (before ++ coro :: after).modify before.length f = before ++ f coro :: after := by
    intro before
    induction before with
    | nil => rfl
    | cons first rest ih => exact congrArg (first :: ·) ih
  rw [Globals.modify, hcoros, hcurrent, Int.toNat_natCast, hlist]

theorem getElem?_middle : (before ++ coro :: after)[before.length]? = some coro := by
  rw [List.getElem?_append_right le_rfl, Nat.sub_self]
  rfl

/-- The others are where they were when the one between them changes and more are added. -/
theorem getElem?_others {other : Coroutine} {index : ℕ}
    (h : (before ++ coro :: after)[index]? = some other) (hne : index ≠ before.length) :
    other ∈ before ++ after ∧
      ∀ coro' more, (before ++ coro' :: (after ++ more))[index]? = some other := by
  rcases Nat.lt_or_gt_of_ne hne with hlt | hgt
  · rw [List.getElem?_append_left hlt] at h
    refine ⟨List.mem_append_left _ (List.mem_of_getElem? h), fun coro' more ↦ ?_⟩
    rw [List.getElem?_append_left hlt, h]
  · obtain ⟨i, hi⟩ := Nat.exists_eq_add_of_lt hgt
    have hindex : index - before.length = i + 1 := by omega
    rw [List.getElem?_append_right hgt.le, hindex, List.getElem?_cons_succ] at h
    refine ⟨List.mem_append_right _ (List.mem_of_getElem? h), fun coro' more ↦ ?_⟩
    rw [List.getElem?_append_right hgt.le, hindex, List.getElem?_cons_succ,
      List.getElem?_append_left (List.getElem?_eq_some_iff.mp h).1, h]

theorem running_middle (hcoros : globals.coros = before ++ coro :: after)
    (hcurrent : globals.current = before.length) : globals.running = some coro := by
  rw [Globals.running, hcurrent, if_pos (Int.natCast_nonneg _), Int.toNat_natCast, hcoros,
    getElem?_middle]

theorem isReady_iff {index : ℕ} :
    globals.isReady index = true ↔
      ∃ coro, globals.coros[index]? = some coro ∧ coro.state = .ready := by
  unfold Globals.isReady
  cases globals.coros[index]? <;> simp

/-- The others that are ready stay so when the running coroutine changes and coroutines are added.
-/
theorem isReady_middle {coro' : Coroutine} (more : List Coroutine)
    (hcoros : globals.coros = before ++ coro :: after) (hrunning : coro.state = .running)
    (hnext : next.coros = before ++ coro' :: (after ++ more)) {index : ℕ}
    (hready : globals.isReady index = true) : next.isReady index = true := by
  obtain ⟨other, hother, hstate⟩ := isReady_iff.mp hready
  rw [hcoros] at hother
  have hne : index ≠ before.length := by
    rintro rfl
    rw [getElem?_middle] at hother
    obtain rfl := Option.some_inj.mp hother
    rw [hrunning] at hstate
    cases hstate
  exact isReady_iff.mpr ⟨other, hnext ▸ (getElem?_others hother hne).2 coro' more, hstate⟩

end Middle

/-- A step in a turn: it keeps the invariant and `current`, the others that are ready stay so, and
less is left to do. -/
structure Acts (earlier ahead : ℕ) (state : State) (event : Event) (next : State) : Prop where
  step_eq : step state = some (next, event)
  inv : Inv earlier ahead next
  work_lt : next.work < state.work
  count_le : state.globals.coroCount ≤ next.globals.coroCount
  pc_ne : next.pc ≠ .returned
  current_eq : next.globals.current = state.globals.current
  ready : ∀ index, state.globals.isReady index = true → next.globals.isReady index = true
  event_ne : ∀ index, event ≠ .resume index

section Turn

variable {earlier completed ahead : ℕ} {code rest fn : Code} {globals : Globals}

/-- The switch back from a coroutine that is not done makes it ready. -/
theorem afterSwitch_middle (hcoros : globals.coros = before ++ coro :: after)
    (hcurrent : globals.current = before.length) (hstate : coro.state ≠ .done) :
    afterSwitch globals completed =
      some ⟨{ globals with coros := before ++ { coro with state := .ready } :: after },
        .test completed⟩ := by
  rw [afterSwitch, running_middle hcoros hcurrent, Option.map_some, if_neg hstate,
    Globals.setState, modify_middle hcoros hcurrent]

theorem Inside.count_eq (h : Inside earlier completed ahead code globals before coro after) :
    globals.coroCount = before.length + (after.length + 1) := by
  rw [Globals.coroCount, h.coros_eq, List.length_append, List.length_cons]

/-- After the turn the scheduler is at its test again. -/
theorem Inside.atTest (h : Inside earlier completed ahead code globals before coro after)
    {coro' : Coroutine} {completed' : ℕ} (hstate : coro'.state ≠ .running)
    (hcompleted : completed' + earlier = doneCount (before ++ coro' :: after))
    (hroom : overReady Code.spawned (before ++ coro' :: after) ≤
      overReady Code.spawned (before ++ after) + code.spawned) :
    AtTest earlier completed' ahead { globals with coros := before ++ coro' :: after } := by
  have hcount := h.count_eq
  have hlength : ({ globals with coros := before ++ coro' :: after } : Globals).coroCount =
      globals.coroCount := by
    rw [h.count_eq, Globals.coroCount, List.length_append, List.length_cons]
  constructor
  case doneCtx => exact h.doneCtx
  case current_ge =>
    show -1 ≤ globals.current
    rw [h.current_eq]
    omega
  case current_lt =>
    show globals.current < _
    rw [hlength, h.current_eq]
    omega
  case current_nonneg =>
    intro _
    exact h.current_eq.ge.trans' (Int.natCast_nonneg _)
  case notRunning =>
    intro other hother
    have hothers := h.notRunning
    simp only [List.mem_append, List.mem_cons] at hothers hother
    rcases hother with hbefore | rfl | hafter
    · exact hothers other (Or.inl hbefore)
    · exact hstate
    · exact hothers other (Or.inr hafter)
  case completed_eq => exact hcompleted
  case room =>
    have hbudget := h.room
    rw [hlength]
    show globals.coroCount + (overReady Code.spawned (before ++ coro' :: after) + ahead) ≤ _
    omega

/-- A yield makes the coroutine ready with the rest of its code. -/
theorem Inside.yield (h : Inside earlier completed ahead (.yield rest) globals before coro after) :
    ∃ next, Acts earlier ahead ⟨globals, .inside completed (.yield rest)⟩ (.yield globals.current)
      next := by
  have hnotDone : ({ coro with ctx := rest } : Coroutine).state ≠ .done := by simp [h.running]
  have hcompleted := h.completed_eq
  refine ⟨⟨{ globals with coros := before ++ { coro with ctx := rest, state := .ready } :: after },
    .test completed⟩, ?_⟩
  constructor
  case step_eq =>
    have hsaved := modify_middle h.coros_eq h.current_eq fun coro ↦ { coro with ctx := rest }
    have hswitch := @afterSwitch_middle _ _ _ completed
      { globals with coros := before ++ { coro with ctx := rest } :: after } rfl h.current_eq
      hnotDone
    rw [step, Globals.setCtx, hsaved, hswitch]
    rfl
  case inv =>
    refine h.atTest (by simp) ?_ ?_
    · simpa using hcompleted
    · simp [Code.spawned]
      omega
  case work_lt =>
    simp [State.work, h.coros_eq, h.running, Code.steps]
    omega
  case count_le => simp [Globals.coroCount, h.coros_eq]
  case pc_ne => exact Pc.noConfusion
  case current_eq => rfl
  case ready =>
    intro index hready
    exact isReady_middle [] h.coros_eq h.running (by rw [List.append_nil]) hready
  case event_ne =>
    intro index hevent
    cases hevent

/-- A return makes the coroutine done, and it is counted. -/
theorem Inside.ret (h : Inside earlier completed ahead .ret globals before coro after) :
    ∃ next, Acts earlier ahead ⟨globals, .inside completed .ret⟩ (.finish globals.current)
      next := by
  have hcompleted := h.completed_eq
  have hdone := h.doneCtx
  refine ⟨⟨{ globals with coros := before ++ { coro with state := .done } :: after },
    .test (completed + 1)⟩, ?_⟩
  constructor
  case step_eq =>
    have hfinished := modify_middle h.coros_eq h.current_eq fun coro ↦ { coro with state := .done }
    have hrunning := @running_middle _ _ _
      { globals with coros := before ++ { coro with state := .done } :: after, doneCtx := false }
      rfl h.current_eq
    rw [step, finish, if_pos hdone, Option.bind_some, Globals.setState, hfinished, afterSwitch,
      hrunning]
    simp [doneSpawn, hdone]
  case inv =>
    refine h.atTest (by simp) ?_ ?_
    · simp at hcompleted ⊢
      omega
    · simp
  case work_lt =>
    simp [State.work, h.coros_eq, h.running, Code.steps]
  case count_le => simp [Globals.coroCount, h.coros_eq]
  case pc_ne => exact Pc.noConfusion
  case current_eq => rfl
  case ready =>
    intro index hready
    exact isReady_middle [] h.coros_eq h.running (by rw [List.append_nil]) hready
  case event_ne =>
    intro index hevent
    cases hevent

/-- A spawn adds a ready coroutine. -/
theorem Inside.spawn
    (h : Inside earlier completed ahead (.spawn fn rest) globals before coro after) :
    ∃ next, Acts earlier ahead ⟨globals, .inside completed (.spawn fn rest)⟩
      (.spawn globals.current) next := by
  have hbudget := h.room
  have hcompleted := h.completed_eq
  rw [Code.spawned] at hbudget
  have hroom : globals.coroCount < maxCoroutines := by omega
  have hspawned : globals.coros ++ [⟨fn, .ready, globals.coroCount⟩] =
      before ++ coro :: (after ++ [⟨fn, .ready, globals.coroCount⟩]) := by
    rw [h.coros_eq, List.append_assoc, List.cons_append]
  refine ⟨⟨{ globals with coros := globals.coros ++ [⟨fn, .ready, globals.coroCount⟩] },
    .inside completed rest⟩, ?_⟩
  constructor
  case step_eq =>
    rw [step, coroSpawn, if_pos hroom]
    rfl
  case inv =>
    refine ⟨before, coro, after ++ [⟨fn, .ready, globals.coroCount⟩], ?_⟩
    constructor
    case doneCtx => exact h.doneCtx
    case coros_eq => exact hspawned
    case current_eq => exact h.current_eq
    case running => exact h.running
    case notRunning =>
      intro other hother
      rw [← List.append_assoc, List.mem_append, List.mem_singleton] at hother
      rcases hother with hold | rfl
      · exact h.notRunning other hold
      · simp
    case completed_eq => simpa using hcompleted
    case room =>
      simp [Globals.coroCount] at hbudget ⊢
      omega
  case work_lt =>
    simp [State.work, Code.steps]
    omega
  case count_le => simp [Globals.coroCount]
  case pc_ne => exact Pc.noConfusion
  case current_eq => rfl
  case ready =>
    intro index hready
    exact isReady_middle _ h.coros_eq h.running hspawned hready
  case event_ne =>
    intro index hevent
    cases hevent

/-- Every action of a running coroutine is a step. -/
theorem Inside.step (h : Inside earlier completed ahead code globals before coro after) :
    ∃ event next, Acts earlier ahead ⟨globals, .inside completed code⟩ event next := by
  cases code with
  | ret => exact ⟨_, h.ret⟩
  | yield rest => exact ⟨_, h.yield⟩
  | spawn fn rest => exact ⟨_, h.spawn⟩

end Turn

/-! ### The scan -/

/-- The indices that the `for` loop looks at, in order. -/
def scan (globals : Globals) : List ℕ :=
  (List.range' (globals.current + 1).toNat globals.coroCount).map (· % globals.coroCount)

/-- From the index after `current` on, around the array, the first index comes before the second. -/
def Before (current first second : ℤ) : Prop :=
  if current < second then current < first ∧ first < second else current < first ∨ first < second

section Scan

variable {earlier completed ahead index other : ℕ} {globals : Globals}

theorem mod_of_lt_twice {n count : ℕ} (h : n < 2 * count) :
    n % count = if n < count then n else n - count := by
  split_ifs with hlt
  · exact Nat.mod_eq_of_lt hlt
  · rw [Nat.mod_eq_sub_mod (not_lt.mp hlt), Nat.mod_eq_of_lt (by omega)]

theorem length_scan (globals : Globals) : (scan globals).length = globals.coroCount := by
  rw [scan, List.length_map, List.length_range']

theorem AtTest.scan_getElem (h : AtTest earlier completed ahead globals) {i : ℕ}
    (hi : i < (scan globals).length) :
    ((scan globals)[i] : ℤ) = if globals.current + 1 + i < globals.coroCount
      then globals.current + 1 + i else globals.current + 1 + i - globals.coroCount := by
  have hge := h.current_ge
  have hlt := h.current_lt
  have hcount : i < globals.coroCount := by rwa [← length_scan]
  have hvalue : (scan globals)[i] = ((globals.current + 1).toNat + i) % globals.coroCount := by
    simp [scan]
  rw [hvalue, mod_of_lt_twice (by omega)]
  split_ifs <;> omega

/-- The scan goes through all indices. -/
theorem AtTest.exists_scan (h : AtTest earlier completed ahead globals)
    (hindex : index < globals.coroCount) :
    ∃ i, ∃ hi : i < (scan globals).length, (scan globals)[i] = index := by
  have hge := h.current_ge
  have hlt := h.current_lt
  have hlength := length_scan globals
  by_cases hafter : globals.current < index
  · have hi : (index - (globals.current + 1)).toNat < (scan globals).length := by omega
    have hvalue := h.scan_getElem hi
    refine ⟨_, hi, ?_⟩
    split_ifs at hvalue <;> omega
  · have hi :
        (index + globals.coroCount - (globals.current + 1)).toNat < (scan globals).length := by
      omega
    have hvalue := h.scan_getElem hi
    refine ⟨_, hi, ?_⟩
    split_ifs at hvalue <;> omega

/-- While some coroutine is ready the `for` loop finds one. -/
theorem AtTest.exists_find (h : AtTest earlier completed ahead globals)
    (hready : globals.isReady index = true) :
    ∃ found, (scan globals).find? globals.isReady = some found := by
  obtain ⟨coro, hcoro, -⟩ := isReady_iff.mp hready
  obtain ⟨i, hi, hvalue⟩ := h.exists_scan (List.getElem?_eq_some_iff.mp hcoro).1
  refine Option.isSome_iff_exists.mp (List.find?_isSome.mpr ⟨index, ?_, hready⟩)
  rw [← hvalue]
  exact List.getElem_mem hi

/-- The `for` loop finds the first ready coroutine. -/
theorem AtTest.find_before (h : AtTest earlier completed ahead globals)
    (hfind : (scan globals).find? globals.isReady = some index)
    (hready : globals.isReady other = true) (hne : other ≠ index) :
    Before globals.current index other := by
  obtain ⟨-, i, hi, hindex, hfirst⟩ := List.find?_eq_some_iff_getElem.mp hfind
  obtain ⟨coro, hcoro, -⟩ := isReady_iff.mp hready
  obtain ⟨j, hj, hother⟩ := h.exists_scan (List.getElem?_eq_some_iff.mp hcoro).1
  have hless : i < j := by
    by_contra hle
    rcases Nat.lt_or_eq_of_le (not_lt.mp hle) with hlt | rfl
    · have hnot := hfirst j hlt
      rw [hother, hready] at hnot
      exact absurd hnot (by simp)
    · exact hne (hother.symm.trans hindex)
  have hfound := h.scan_getElem hi
  have hlater := h.scan_getElem hj
  have hge := h.current_ge
  have hlt := h.current_lt
  rw [length_scan] at hj
  rw [hindex] at hfound
  rw [hother] at hlater
  unfold Before
  split_ifs at hfound hlater ⊢ <;> omega

theorem select_of_find (hfind : (scan globals).find? globals.isReady = some index) :
    select globals = { globals with current := index } := by
  rw [scan] at hfind
  rw [select, hfind]

end Scan

/-! ### The start of a turn -/

/-- The start of a turn: it keeps the invariant, the others that are ready stay so, and less is left
to do. -/
structure Resumes (earlier ahead : ℕ) (state : State) (index : ℕ) (next : State) : Prop where
  step_eq : step state = some (next, .resume index)
  inv : Inv earlier ahead next
  work_lt : next.work < state.work
  count_le : state.globals.coroCount ≤ next.globals.coroCount
  pc_ne : next.pc ≠ .returned
  current_eq : next.globals.current = index
  ready : ∀ other, other ≠ index → state.globals.isReady other = true →
    next.globals.isReady other = true

section Resume

variable {earlier completed ahead index : ℕ} {globals : Globals}

theorem exists_middle (h : coros[index]? = some coro) :
    ∃ before after, coros = before ++ coro :: after ∧ before.length = index := by
  obtain ⟨hlt, hcoro⟩ := List.getElem?_eq_some_iff.mp h
  refine ⟨coros.take index, coros.drop (index + 1), ?_, ?_⟩
  · rw [← hcoro, ← List.drop_eq_getElem_cons hlt, List.take_append_drop]
  · rw [List.length_take, min_eq_left hlt.le]

/-- The coroutine that the `for` loop finds is resumed. -/
theorem AtTest.resume (h : AtTest earlier completed ahead globals)
    (hfind : (scan globals).find? globals.isReady = some index) :
    ∃ next, Resumes earlier ahead ⟨globals, .test completed⟩ index next := by
  obtain ⟨coro, hcoro, hready⟩ := isReady_iff.mp (List.find?_some hfind)
  obtain ⟨before, after, hcoros, hlength⟩ := exists_middle hcoro
  have hcompleted := h.completed_eq
  have hbudget := h.room
  have hless : completed < globals.coroCount := by
    have hle : doneCount (before ++ after) ≤ (before ++ after).length := List.countP_le_length
    simp [hcoros, hready] at hcompleted hle
    simp [Globals.coroCount, hcoros]
    omega
  have hcurrent : ({ globals with current := index } : Globals).current = before.length := by
    rw [hlength]
  have hrunning := @running_middle _ _ _ { globals with current := index } hcoros hcurrent
  have hmodify := @modify_middle _ _ _ { globals with current := index } hcoros hcurrent
    fun coro ↦ { coro with state := .running }
  refine ⟨⟨{ globals with
    coros := before ++ { coro with state := .running } :: after
    current := index }, .inside completed coro.ctx⟩, ?_⟩
  constructor
  case step_eq =>
    rw [step, if_pos hless, select_of_find hfind]
    dsimp only
    rw [hrunning, Globals.setState, hmodify]
    rfl
  case inv =>
    refine ⟨before, { coro with state := .running }, after, ?_⟩
    constructor
    case doneCtx => exact h.doneCtx
    case coros_eq => rfl
    case current_eq => exact hcurrent
    case running => rfl
    case notRunning =>
      intro other hother
      refine h.notRunning other ?_
      rw [hcoros]
      exact List.mem_append.mpr ((List.mem_append.mp hother).imp_right (List.mem_cons_of_mem _))
    case completed_eq => simpa [hcoros, hready] using hcompleted
    case room =>
      simp [Globals.coroCount, hcoros, hready] at hbudget ⊢
      omega
  case work_lt =>
    simp [State.work, hcoros, hready]
    omega
  case count_le => simp [Globals.coroCount, hcoros]
  case pc_ne => exact Pc.noConfusion
  case current_eq => rfl
  case ready =>
    intro other hne hother
    obtain ⟨waiting, hwaiting, hstate⟩ := isReady_iff.mp hother
    rw [hcoros] at hwaiting
    have hsame := (getElem?_others hwaiting (hlength ▸ hne)).2 { coro with state := .running } []
    rw [List.append_nil] at hsame
    exact isReady_iff.mpr ⟨waiting, hsame, hstate⟩

/-- When as many coroutines have completed as there are, the scheduler returns. -/
theorem AtTest.exit (h : AtTest earlier completed ahead globals)
    (hcompleted : globals.coroCount ≤ completed) :
    step ⟨globals, .test completed⟩ = some (⟨globals, .returned⟩, .exit) ∧
      Inv earlier ahead ⟨globals, .returned⟩ := by
  have hle : doneCount globals.coros ≤ globals.coroCount := List.countP_le_length
  have heq : completed = globals.coroCount := by
    have hsum := h.completed_eq
    omega
  subst heq
  exact ⟨by rw [step, if_neg (lt_irrefl _)], h⟩

/-- If as many coroutines have completed as there are, all are done. -/
theorem AtTest.all_done (h : AtTest earlier completed ahead globals)
    (hcount : globals.coroCount ≤ completed + earlier) :
    ∀ coro ∈ globals.coros, coro.state = .done := by
  rw [h.completed_eq] at hcount
  have hlength : doneCount globals.coros = globals.coros.length :=
    le_antisymm List.countP_le_length hcount
  simpa using List.countP_eq_length.mp hlength

/-- A coroutine that is not done is ready. -/
theorem AtTest.exists_ready (h : AtTest earlier completed ahead globals)
    (hless : completed + earlier < globals.coroCount) :
    ∃ index, globals.isReady index = true := by
  rw [h.completed_eq] at hless
  have hnot : ¬ ∀ coro ∈ globals.coros, coro.state = .done := by
    intro hall
    have hcount : doneCount globals.coros = globals.coros.length :=
      List.countP_eq_length.mpr (by simpa using hall)
    exact hless.ne hcount
  simp only [not_forall] at hnot
  obtain ⟨coro, hmem, hstate⟩ := hnot
  obtain ⟨index, hindex, rfl⟩ := List.getElem_of_mem hmem
  refine ⟨index, isReady_iff.mpr ⟨_, List.getElem?_eq_getElem hindex, ?_⟩⟩
  have hrunning := h.notRunning _ hmem
  cases hcase : globals.coros[index].state <;> simp_all

end Resume

end DailyChallenge.Coroutines
