import Mathlib
import DailyChallenge.Lsm.Refinement

/-!
# The value that reads as deleted

Values and the deletion mark share one string space, and the mark is the empty string. A put of the
empty string is a deletion, call for call (`Op.asDeletion`, `deletions`), and every other value is
admissible. So a stored value is found again until its key is written again exactly when it is not
empty (`get_put_iff`).
-/

set_option autoImplicit false
set_option relaxedAutoImplicit false

namespace DailyChallenge.Lsm

open Library

/-- The strings of an operation are shorter than `2 ^ 32`. -/
def Op.Fits : Op → Prop
  | .put key value => Lsm.Fits key ∧ Lsm.Fits value
  | .del key => Lsm.Fits key
  | .restart => True

/-- A put or a deletion of another key. -/
def Op.Spares (key : Bytes) : Op → Prop
  | .put other _ | .del other => other ≠ key
  | .restart => False

/-- A put of the sentinel, seen as the deletion it is. -/
def Op.asDeletion : Op → Op
  | .put key value => if value = tombstone then .del key else .put key value
  | .del key => .del key
  | .restart => .restart

theorem Op.asDeletion_put (key value : Bytes) :
    (Op.put key value).asDeletion = if value = tombstone then .del key else .put key value := rfl

/-- On the reference the operation writes the mark that the value reads as. -/
theorem Reference.step_asDeletion_put (reference : Reference Bytes Bytes) (key value : Bytes) :
    reference.step (Op.put key value).asDeletion = reference.write key (Store.answer value) := by
  rw [Op.asDeletion_put]
  unfold Store.answer
  split_ifs with hvalue
  · rfl
  · rfl

theorem Op.Fits.admissible {op : Op} (h : op.Fits) : op.asDeletion.Admissible := by
  cases op with
  | put key value =>
    rw [asDeletion_put]
    split_ifs with hvalue
    · exact h.1
    · exact ⟨h.1, h.2, hvalue⟩
  | del key => exact h
  | restart => trivial

theorem Op.Spares.asDeletion {key : Bytes} {op : Op} (h : op.Spares key) :
    op.asDeletion.Spares key := by
  cases op with
  | put other value =>
    rw [asDeletion_put]
    split_ifs
    · exact h
    · exact h
  | del other => exact h
  | restart => exact h

/-- A history and the same history with its puts of the sentinel as deletions have the same runs. -/
def deletions (dataDir : Bytes) :
    Simulation (histories dataDir) (histories dataDir) fun op ↦ some op.asDeletion where
  Related store other := store = other
  start store hstart := ⟨store, hstart, rfl⟩
  silent := by
    rintro store _ op next rfl hstep ⟨⟩
  visible := by
    rintro store _ op next seen rfl hstep ⟨⟩
    refine ⟨next, ?_, rfl⟩
    cases hstep with
    | put key value =>
      rw [Op.asDeletion_put]
      split_ifs with hvalue
      · subst hvalue
        exact .del store key
      · exact .put store key value
    | del key => exact .del store key
    | restart listing hlisting => exact .restart store listing hlisting

theorem run_asDeletion {dataDir : Bytes} {history : List Op} {store : Store}
    (hrun : (histories dataDir).Run history store) :
    (histories dataDir).Run (history.map Op.asDeletion) store := by
  obtain ⟨_, hdeletions, rfl⟩ := (deletions dataDir).run hrun
  rwa [List.filterMap_eq_map'] at hdeletions

/-- The flushes of the reference are the flushes of the store. -/
theorem flushes_eq_sstableCount {dataDir : Bytes} {history : List Op} {store : Store}
    (hrun : (histories dataDir).Run history store) :
    (referenceAfter history).flushes = store.tree.sstableCount := by
  obtain ⟨tables, hrefines, -⟩ := refines_run hrun
  rw [hrefines.tracks.flushes, hrefines.represents.count_eq]

/-- Operations on other keys leave the answer of the reference. -/
theorem get_foldl_step {key : Bytes} {history : List Op} (reference : Reference Bytes Bytes)
    (h : ∀ op ∈ history, op.Spares key) :
    (history.foldl Reference.step reference).get key = reference.get key := by
  induction history generalizing reference with
  | nil => rfl
  | cons op rest ih =>
    obtain ⟨hop, hrest⟩ := List.forall_mem_cons.mp h
    rw [List.foldl_cons, ih _ hrest]
    cases op with
    | put other value => exact (reference.get_write other key _).trans (if_neg (Ne.symm hop))
    | del other => exact (reference.get_write other key _).trans (if_neg (Ne.symm hop))
    | restart => exact hop.elim

/-- After a put, and after puts and deletions of other keys behind it, the key reads as the value
exactly when the value is not empty. -/
theorem get_put_iff {dataDir : Bytes} {before after : List Op} {store : Store} {key value : Bytes}
    (hrun : (histories dataDir).Run (before ++ .put key value :: after) store)
    (hfits : ∀ op ∈ before ++ .put key value :: after, op.Fits)
    (hafter : ∀ op ∈ after, op.Spares key)
    (hflushes : (referenceAfter (before ++ .put key value :: after)).flushes ≤ 10000) :
    store.get key = some value ↔ value ≠ [] := by
  have hrun' := run_asDeletion hrun
  obtain ⟨tables, hrefines, hmirrors⟩ := refines_run hrun'
  have hadmissible : ∀ op ∈ (before ++ .put key value :: after).map Op.asDeletion,
      op.Admissible := by
    intro op hop
    obtain ⟨source, hsource, rfl⟩ := List.mem_map.mp hop
    exact (hfits source hsource).admissible
  have hcount : (referenceAfter ((before ++ .put key value :: after).map Op.asDeletion)).flushes ≤
      fourDigitFiles := by
    rw [flushes_eq_sstableCount hrun', ← flushes_eq_sstableCount hrun]
    exact hflushes
  have hspares : ∀ op ∈ after.map Op.asDeletion, op.Spares key := by
    intro op hop
    obtain ⟨source, hsource, rfl⟩ := List.mem_map.mp hop
    exact (hafter source hsource).asDeletion
  have hanswer : store.get key = Store.answer value := by
    rw [hrefines.get_eq (hmirrors hadmissible) hcount, referenceAfter, List.map_append,
      List.foldl_append, List.map_cons, List.foldl_cons, get_foldl_step _ hspares,
      Reference.step_asDeletion_put, Reference.get_write, if_pos rfl]
  rw [hanswer, Store.answer, tombstone_eq_nil]
  split_ifs with hvalue
  · simp [hvalue]
  · simp [hvalue]

instance (op : Op) : Decidable op.Fits :=
  match op with
  | .put key value => inferInstanceAs (Decidable (Fits key ∧ Fits value))
  | .del key => inferInstanceAs (Decidable (Fits key))
  | .restart => inferInstanceAs (Decidable True)

instance (key : Bytes) (op : Op) : Decidable (op.Spares key) :=
  match op with
  | .put other _ => inferInstanceAs (Decidable (other ≠ key))
  | .del other => inferInstanceAs (Decidable (other ≠ key))
  | .restart => inferInstanceAs (Decidable False)

/-- The value of a put is found again after a flush, beside an empty value of another key. -/
theorem get_put_iff_flushed :
    (runListed [100] ([.put [2] []] ++ .put [1] [7] :: [.put [3] [], .del [4]])).get [1] =
      some [7] ↔ ([7] : Bytes) ≠ [] :=
  get_put_iff (run_runListed [100] _) (by decide) (by decide) (by decide)

/-- A put of the empty string reads as deleted. -/
theorem not_get_put_empty : (runListed [100] [.put [1] []]).get [1] ≠ some [] := by
  decide

end DailyChallenge.Lsm
