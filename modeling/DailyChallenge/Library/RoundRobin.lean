import Mathlib

/-!
# Round robin

Tasks with a number of turns left wait in a queue. The task at the front takes a turn; it goes to
the back while it has turns left, and its last turn removes it. `turns` is the sequence of turns,
and two laws describe it: `turns_rounds` says that the tasks come in rounds, and `turns_of_task`
that every task takes all its turns, the last of them at the end.

`range_rotate_next` is about the ring of indices in which such a queue is found: after an index of
the ring the rest of the ring follows, and the index comes last.
-/

set_option autoImplicit false
set_option relaxedAutoImplicit false

namespace DailyChallenge.Library

variable {ι : Type*}

/-- The turns of the tasks in a queue, each marked with whether it is the task's last. The number
beside a task is how often it goes to the back. -/
def turns : List (ι × ℕ) → List (ι × Bool)
  | [] => []
  | (task, 0) :: rest => (task, true) :: turns rest
  | (task, left + 1) :: rest => (task, false) :: turns (rest ++ [(task, left)])
termination_by tasks => (tasks.map fun task ↦ task.2 + 1).sum
decreasing_by
  · simp
  · simp
    omega

/-- The queue after every task in it took one turn. -/
def nextRound (tasks : List (ι × ℕ)) : List (ι × ℕ) :=
  tasks.filterMap fun task ↦ match task.2 with
    | 0 => none
    | left + 1 => some (task.1, left)

/-- The tasks at the front of a queue take a turn each, and those not done are found at its back. -/
theorem map_turns_append (first second : List (ι × ℕ)) :
    (turns (first ++ second)).map Prod.fst =
      first.map Prod.fst ++ (turns (second ++ nextRound first)).map Prod.fst := by
  induction first generalizing second with
  | nil => simp [nextRound]
  | cons task first ih =>
    obtain ⟨task, left⟩ := task
    cases left with
    | zero =>
      rw [List.cons_append, turns, List.map_cons, ih]
      rfl
    | succ left =>
      rw [List.cons_append, turns, List.map_cons, List.append_assoc, ih, List.append_assoc]
      rfl

/-- The tasks that go to the back at least `round` times, in the order of the queue. -/
def tasksInRound (tasks : List (ι × ℕ)) (round : ℕ) : List ι :=
  (tasks.filter fun task ↦ round ≤ task.2).map Prod.fst

theorem tasksInRound_zero (tasks : List (ι × ℕ)) : tasksInRound tasks 0 = tasks.map Prod.fst := by
  simp [tasksInRound]

theorem tasksInRound_nextRound (tasks : List (ι × ℕ)) (index : ℕ) :
    tasksInRound (nextRound tasks) index = tasksInRound tasks (index + 1) := by
  induction tasks with
  | nil => rfl
  | cons task tasks ih =>
    obtain ⟨task, left⟩ := task
    rw [tasksInRound, tasksInRound] at ih ⊢
    cases left with
    | zero =>
      rw [List.filter_cons_of_neg (by simp)]
      exact ih
    | succ left =>
      have hnext : nextRound ((task, left + 1) :: tasks) = (task, left) :: nextRound tasks := rfl
      rw [hnext]
      by_cases h : index ≤ left
      · rw [List.filter_cons_of_pos (by simpa), List.filter_cons_of_pos (by simpa), List.map_cons,
          List.map_cons, ih]
      · rw [List.filter_cons_of_neg (by simpa using h), List.filter_cons_of_neg (by simpa using h),
          ih]

/-- The tasks take their turns in rounds. -/
theorem turns_rounds {tasks : List (ι × ℕ)} {bound : ℕ} (h : ∀ task ∈ tasks, task.2 < bound) :
    (turns tasks).map Prod.fst = (List.range bound).flatMap (tasksInRound tasks) := by
  induction bound generalizing tasks with
  | zero =>
    cases tasks with
    | nil => simp [turns]
    | cons task tasks => exact absurd (h task List.mem_cons_self) (Nat.not_lt_zero _)
  | succ bound ih =>
    have hnext : ∀ task ∈ nextRound tasks, task.2 < bound := by
      intro task htask
      obtain ⟨⟨old, left⟩, hold, hleft⟩ := List.mem_filterMap.mp htask
      have hlt := h (old, left) hold
      cases left with
      | zero => cases hleft
      | succ left =>
        cases hleft
        exact Nat.lt_of_succ_lt_succ hlt
    have hround := map_turns_append tasks []
    rw [List.append_nil, List.nil_append] at hround
    rw [hround, ih hnext, List.range_succ_eq_map, List.flatMap_cons, List.flatMap_map,
      tasksInRound_zero]
    congr 1
    apply List.flatMap_congr
    intro index _
    exact tasksInRound_nextRound tasks index

/-- A task that does not wait takes no turn. -/
theorem filter_turns_of_notMem [DecidableEq ι] {tasks : List (ι × ℕ)} {task : ι}
    (h : task ∉ tasks.map Prod.fst) : (turns tasks).filter (·.1 = task) = [] := by
  induction tasks using turns.induct with
  | case1 => simp [turns]
  | case2 other rest ih =>
    rw [List.map_cons, List.mem_cons, not_or] at h
    rw [turns, List.filter_cons_of_neg (by simpa using Ne.symm h.1), ih h.2]
  | case3 other left rest ih =>
    rw [List.map_cons, List.mem_cons, not_or] at h
    rw [turns, List.filter_cons_of_neg (by simpa using Ne.symm h.1)]
    apply ih
    simpa [not_or] using ⟨fun k hk ↦ h.2 (List.mem_map.mpr ⟨(task, k), hk, rfl⟩), h.1⟩

/-- Every task takes all its turns, and its last one at the end. -/
theorem turns_of_task [DecidableEq ι] {tasks : List (ι × ℕ)} (hnodup : (tasks.map Prod.fst).Nodup)
    {task : ι} {left : ℕ} (h : (task, left) ∈ tasks) :
    (turns tasks).filter (·.1 = task) = List.replicate left (task, false) ++ [(task, true)] := by
  induction tasks using turns.induct generalizing left with
  | case1 => exact absurd h List.not_mem_nil
  | case2 other rest ih =>
    obtain ⟨hother, hrest⟩ := List.nodup_cons.mp hnodup
    rw [turns]
    by_cases hsame : other = task
    · subst hsame
      obtain rfl : left = 0 := by
        rcases List.mem_cons.mp h with heq | hmem
        · exact (Prod.mk.inj heq).2
        · exact absurd (List.mem_map.mpr ⟨_, hmem, rfl⟩) hother
      rw [List.filter_cons_of_pos (by simp), filter_turns_of_notMem hother]
      rfl
    · rw [List.filter_cons_of_neg (by simpa using hsame)]
      apply ih hrest
      rcases List.mem_cons.mp h with heq | hmem
      · exact absurd (Prod.mk.inj heq).1.symm hsame
      · exact hmem
  | case3 other count rest ih =>
    obtain ⟨hother, hrest⟩ := List.nodup_cons.mp hnodup
    have hback : ((rest ++ [(other, count)]).map Prod.fst).Nodup := by
      rw [List.map_append, List.nodup_append']
      refine ⟨hrest, List.nodup_singleton _, fun index hindex hlast ↦ ?_⟩
      obtain rfl := List.mem_singleton.mp hlast
      exact hother hindex
    rw [turns]
    by_cases hsame : other = task
    · subst hsame
      obtain rfl : left = count + 1 := by
        rcases List.mem_cons.mp h with heq | hmem
        · exact (Prod.mk.inj heq).2
        · exact absurd (List.mem_map.mpr ⟨_, hmem, rfl⟩) hother
      rw [List.filter_cons_of_pos (by simp), ih hback (List.mem_append_right _ List.mem_cons_self)]
      rfl
    · rw [List.filter_cons_of_neg (by simpa using hsame)]
      apply ih hback
      rcases List.mem_cons.mp h with heq | hmem
      · exact absurd (Prod.mk.inj heq).1.symm hsame
      · exact List.mem_append_left _ hmem

/-! ### The ring of indices -/

/-- After an index of the ring comes the rest of the ring, and the index last. -/
theorem range_rotate_next {count start index : ℕ} {before after : List ℕ}
    (h : (List.range count).rotate start = before ++ index :: after) :
    (List.range count).rotate (index + 1) = after ++ before ++ [index] := by
  have hlength : before.length < count := by
    have hlen := congrArg List.length h
    simp at hlen
    omega
  have hindex : index = (before.length + start) % count := by
    have hget := congrArg (·[before.length]?) h
    simpa [List.getElem?_rotate, hlength] using hget.symm
  calc (List.range count).rotate (index + 1)
      = ((List.range count).rotate start).rotate (before.length + 1) := by
        rw [List.rotate_rotate, hindex, ← List.rotate_mod, ← List.rotate_mod _ (start + _)]
        simp [add_comm, add_assoc]
    _ = after ++ before ++ [index] := by
        have hrotate := List.rotate_append_length_eq (before ++ [index]) after
        rw [List.length_append, List.length_singleton] at hrotate
        rw [h, List.append_cons, hrotate, List.append_assoc]

end DailyChallenge.Library
