import Mathlib
import DailyChallenge.Lsm.Refinement

/-!
# When the scan of `get` meets newer tables first

Age is represented only by the descending order of path strings. `listsNewestFirst_iff` settles for
which histories that order is flush order: exactly those of at most ten thousand flushes, the ones
whose file numbers have four digits. The next flush writes file 10000, whose path sorts below the
path of file 9999 (`not_listsNewestFirst_tenThousandAndOne`).
-/

set_option autoImplicit false
set_option relaxedAutoImplicit false

namespace DailyChallenge.Lsm

open Library

/-- The path vector is the record of the flushes, latest first, and no path is listed twice. -/
def ListsNewestFirst (store : Store) : Prop :=
  store.tree.sstablePaths = store.directory.written ∧ store.directory.written.Nodup

/-- The flushed tables of a store decide whether it lists them newest first. -/
theorem Represents.lists_iff {dataDir : Bytes} {tables : List Table} {store : Store}
    (h : Represents dataDir tables store) :
    ListsNewestFirst store ↔ tables.length ≤ fourDigitFiles := by
  constructor
  · rintro ⟨hpaths, -⟩
    by_contra hmany
    apply flushedPaths_not_pairwise (not_le.mp hmany)
    rw [← h.written_eq, ← hpaths, h.paths_eq]
    exact sortNewestFirst_pairwise _
  · intro hcount
    rw [ListsNewestFirst, h.paths_eq_flushedPaths hcount, h.written_eq]
    exact ⟨rfl, nodup_flushedPaths _ _⟩

/-- In every state reached by puts, deletes and restarts on a directory that starts empty, the path
vector lists the tables newest first exactly when at most ten thousand flushes were made. The count
of flushes is not bounded here; the `int` of the source holds counts below `2 ^ 31`. -/
theorem listsNewestFirst_iff {dataDir : Bytes} {history : List Op} {store : Store}
    (hrun : (histories dataDir).Run history store) :
    ListsNewestFirst store ↔ (referenceAfter history).flushes ≤ 10000 := by
  obtain ⟨tables, hrefines, -⟩ := refines_run hrun
  rw [hrefines.represents.lists_iff, hrefines.tracks.flushes]
  rfl

/-- Two flushes and a restart in between are listed newest first. -/
theorem listsNewestFirst_two_flushes :
    ListsNewestFirst (runListed [100] (lostOverwrite ++ lostOverwrite)) ↔
      (referenceAfter (lostOverwrite ++ lostOverwrite)).flushes ≤ 10000 :=
  listsNewestFirst_iff (run_runListed [100] (lostOverwrite ++ lostOverwrite))

/-- Four puts of different keys. -/
def fourPuts : List Op := [.put [1] [7], .put [2] [8], .put [3] [9], .put [4] [10]]

/-- Four puts flush a reference with an empty volatile map once. -/
theorem foldl_fourPuts (reference : Reference Bytes Bytes) (h : reference.volatile = ∅) :
    (fourPuts.foldl Reference.step reference).volatile = ∅ ∧
      (fourPuts.foldl Reference.step reference).flushes = reference.flushes + 1 := by
  obtain ⟨durable, volatile, flushes⟩ := reference
  obtain rfl : volatile = ∅ := h
  exact ⟨rfl, rfl⟩

/-- Four puts repeated flush once each time. -/
theorem flushes_replicate_fourPuts (count : ℕ) :
    (referenceAfter (List.replicate count fourPuts).flatten).volatile = ∅ ∧
      (referenceAfter (List.replicate count fourPuts).flatten).flushes = count := by
  induction count with
  | zero => exact ⟨rfl, rfl⟩
  | succ count ih =>
    have hfold := foldl_fourPuts _ ih.1
    rw [List.replicate_succ', List.flatten_append, List.flatten_singleton, referenceAfter,
      List.foldl_append]
    exact ⟨hfold.1, hfold.2.trans (congrArg (· + 1) ih.2)⟩

/-- After ten thousand and one flushes of the same four keys, far fewer than an `int` can count, the
path vector does not list the tables newest first. -/
theorem not_listsNewestFirst_tenThousandAndOne :
    (referenceAfter (List.replicate 10001 fourPuts).flatten).flushes = 10001 ∧
      ¬ ListsNewestFirst (runListed [100] (List.replicate 10001 fourPuts).flatten) := by
  have hflushes := (flushes_replicate_fourPuts 10001).2
  refine ⟨hflushes, ?_⟩
  obtain ⟨tables, hrefines, -⟩ :=
    refines_run (run_runListed [100] (List.replicate 10001 fourPuts).flatten)
  rw [hrefines.represents.lists_iff, ← hrefines.tracks.flushes, hflushes]
  decide

end DailyChallenge.Lsm
