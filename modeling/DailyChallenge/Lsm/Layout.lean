import Mathlib
import DailyChallenge.Lsm.EmptyValue
import DailyChallenge.Lsm.Records

/-!
# The layout of memory and disk

`LaidOut` says how the memtable, the path vector, the counter and the files fit together. It holds
after every history whose strings fit their length fields, for any number of flushes and whatever
the order of the directory at a restart, and no file that was written changes afterwards
(`laidOut_run`). `FullTables` is the invariant: what `Represents` says of the stack of flushed
tables, and that each of them has four keys.
-/

set_option autoImplicit false
set_option relaxedAutoImplicit false

namespace DailyChallenge.Lsm

open Library

/-- How the memtable, the path vector, the counter and the files of a store fit together. -/
structure LaidOut (dataDir : Bytes) (store : Store) : Prop where
  memtable_lt : store.tree.memtable.size < 4
  records : ∀ path ∈ store.tree.sstablePaths,
    (readSSTable store.directory dataDir path).length = 4 ∧
      ((readSSTable store.directory dataDir path).map SSTableEntry.key).Pairwise
        fun first second ↦ compare first second = .lt
  count_eq_paths : store.tree.sstableCount = store.tree.sstablePaths.length
  count_eq_files : store.tree.sstableCount = store.directory.files.size
  nodup_paths : store.tree.sstablePaths.Nodup
  mem_paths : ∀ path, path ∈ store.tree.sstablePaths ↔
    ∃ number < store.tree.sstableCount, path = pathOf dataDir (sstableName number)
  mem_files : ∀ name, name ∈ store.directory.files ↔
    ∃ number < store.tree.sstableCount, name = sstableName number

/-- The stack of flushed tables of a store, each with four keys, and a memtable with fewer. -/
structure FullTables (dataDir : Bytes) (tables : List Table) (store : Store) : Prop where
  represents : Represents dataDir tables store
  full : ∀ table ∈ tables, table.size = 4 ∧ TableFits table
  memtable_lt : store.tree.memtable.size < 4
  memtable_fits : TableFits store.tree.memtable

variable {dataDir : Bytes} {tables : List Table} {store next : Store}

/-! ### The invariant -/

/-- A store on a directory that starts empty. -/
theorem fullTables_fresh (h : Fresh dataDir store) : FullTables dataDir [] store := by
  have hmemtable : store.tree.memtable = ∅ := by cases h <;> rfl
  refine ⟨represents_fresh h, by simp, ?_, ?_⟩
  · rw [hmemtable]
    decide
  · rw [hmemtable]
    exact tableFits_empty

/-- A put flushes when it brings the memtable to four keys, and no sooner. -/
theorem FullTables.put (h : FullTables dataDir tables store) {key value : Bytes} (hkey : Fits key)
    (hvalue : Fits value) :
    ∃ stack, FullTables dataDir stack (store.put key value true) := by
  have hset := h.represents.setMemtable (store.tree.memtable.insert key value)
  have hfits := h.memtable_fits.insert hkey hvalue
  have hsize : (store.tree.memtable.insert key value).size ≤ store.tree.memtable.size + 1 :=
    Std.TreeMap.size_insert_le
  have hlt := h.memtable_lt
  rcases Nat.lt_or_ge (store.tree.memtable.insert key value).size memtableFlushThreshold with
    hroom | hfull
  · rw [Store.put_of_lt hroom]
    exact ⟨tables, hset, h.full, hroom, hfits⟩
  · rw [Store.put_of_le hfull]
    refine ⟨_, hset.flush, ?_, ?_, tableFits_empty⟩
    · intro table htable
      rcases List.mem_cons.mp htable with rfl | hold
      · have hthreshold : 4 ≤ (store.tree.memtable.insert key value).size := hfull
        exact ⟨by show (store.tree.memtable.insert key value).size = 4; omega, hfits⟩
      · exact h.full table hold
    · exact Nat.zero_lt_succ _

/-- Every operation keeps the invariant, for the stack after it. -/
theorem FullTables.step (h : FullTables dataDir tables store) {op : Op} (hfits : op.Fits)
    (hstep : Step store op next) : ∃ stack, FullTables dataDir stack next := by
  cases hstep with
  | put key value => exact h.put hfits.1 hfits.2
  | del key => exact h.put hfits fits_tombstone
  | restart listing hlisting =>
    exact ⟨tables, h.represents.restart hlisting, h.full, Nat.zero_lt_succ _, tableFits_empty⟩

/-- After every history whose strings fit. -/
theorem fullTables_run {history : List Op} (hrun : (histories dataDir).Run history store)
    (hfits : ∀ op ∈ history, op.Fits) : ∃ tables, FullTables dataDir tables store := by
  revert hfits
  refine @TransitionSystem.Run.traceInvariant Store Op (histories dataDir)
    (fun history store ↦ (∀ op ∈ history, op.Fits) → ∃ tables, FullTables dataDir tables store)
    ?_ ?_ history store hrun
  · exact fun store hstart _ ↦ ⟨[], fullTables_fresh hstart⟩
  · intro history store op next _ ih hstep hfits
    obtain ⟨tables, htables⟩ := ih fun op hop ↦ hfits op (List.mem_append_left _ hop)
    exact htables.step (hfits op (List.mem_append_right _ (List.mem_singleton_self op))) hstep

/-! ### The layout -/

/-- The file of a number below the height of the stack is the encoding of one of its tables. -/
theorem Contents.exists_table {files : Std.TreeMap Bytes Bytes} (h : Contents files tables)
    {number : ℕ} (hnumber : number < tables.length) :
    ∃ table ∈ tables, files[sstableName number]? = some (encodeTable table) := by
  induction tables with
  | nil => exact absurd hnumber (Nat.not_lt_zero _)
  | cons table older ih =>
    rcases Nat.lt_succ_iff_lt_or_eq.mp hnumber with hlt | rfl
    · obtain ⟨other, hother, hfile⟩ := ih h.2 hlt
      exact ⟨other, List.mem_cons_of_mem _ hother, hfile⟩
    · exact ⟨table, List.mem_cons_self, h.1⟩

/-- The paths in the vector are the paths of the flushes. -/
theorem Represents.mem_paths (h : Represents dataDir tables store) (path : Bytes) :
    path ∈ store.tree.sstablePaths ↔
      ∃ number < tables.length, path = pathOf dataDir (sstableName number) := by
  rw [h.paths_eq, (sortNewestFirst_perm _).mem_iff, mem_flushedPaths]
  simp only [sstablePath, eq_comm]

theorem FullTables.laidOut (h : FullTables dataDir tables store) : LaidOut dataDir store := by
  have hcount := h.represents.count_eq
  have hpaths : store.tree.sstablePaths.Perm (flushedPaths dataDir tables.length) := by
    rw [h.represents.paths_eq]
    exact sortNewestFirst_perm _
  constructor
  case memtable_lt => exact h.memtable_lt
  case records =>
    intro path hpath
    obtain ⟨number, hnumber, rfl⟩ := (h.represents.mem_paths path).mp hpath
    obtain ⟨table, htable, hfile⟩ := h.represents.contents.exists_table hnumber
    obtain ⟨hsize, hfits⟩ := h.full table htable
    have hread : readSSTable store.directory dataDir (pathOf dataDir (sstableName number)) =
        table.toList.map toEntry := by
      rw [readSSTable, DataDirectory.open?_pathOf, hfile]
      exact readEntries_flatMap_encodeEntry _ hfits
    rw [hread, List.length_map, Std.TreeMap.length_toList]
    exact ⟨hsize, pairwise_keys_toList table⟩
  case count_eq_paths =>
    rw [hcount, hpaths.length_eq]
    simp [flushedPaths]
  case count_eq_files =>
    rw [hcount, ← Std.TreeMap.length_keys, h.represents.keys_perm.length_eq]
    simp
  case nodup_paths => exact hpaths.nodup_iff.mpr (nodup_flushedPaths _ _)
  case mem_paths =>
    rw [hcount]
    exact h.represents.mem_paths
  case mem_files =>
    intro name
    rw [hcount, h.represents.names]
    simp only [eq_comm]

/-! ### Files that were written -/

/-- A flush writes a file that was not there and leaves the others. -/
theorem Represents.file_flush (h : Represents dataDir tables store) {name content : Bytes}
    (hfile : store.directory.files[name]? = some content) :
    (store.flush true).directory.files[name]? = some content := by
  have hmem : name ∈ store.directory.files := by
    rw [Std.TreeMap.mem_iff_isSome_getElem?, hfile]
    rfl
  obtain ⟨number, hnumber, rfl⟩ := (h.names name).mp hmem
  have hother : sstableName tables.length ≠ sstableName number := fun hsame ↦ by
    have hnumbers := sstableName_injective hsame
    omega
  rw [h.directory_flush, Std.TreeMap.getElem?_insert, if_neg (by simpa using hother)]
  exact hfile

/-- No operation changes a file. -/
theorem Represents.file_step (h : Represents dataDir tables store) {op : Op}
    (hstep : Step store op next) {name content : Bytes}
    (hfile : store.directory.files[name]? = some content) :
    next.directory.files[name]? = some content := by
  have hput : ∀ key value : Bytes,
      (store.put key value true).directory.files[name]? = some content := by
    intro key value
    rcases Nat.lt_or_ge (store.tree.memtable.insert key value).size memtableFlushThreshold with
      hroom | hfull
    · rw [Store.put_of_lt hroom]
      exact hfile
    · rw [Store.put_of_le hfull]
      exact (h.setMemtable _).file_flush hfile
  cases hstep with
  | put key value => exact hput key value
  | del key => exact hput key tombstone
  | restart listing _ => exact hfile

/-- A file that was written keeps its bytes through all that follows. -/
theorem file_run {before after : List Op} (hbefore : (histories dataDir).Run before store)
    (hafter : ((histories dataDir).continuing store).Run after next) {name content : Bytes}
    (hfile : store.directory.files[name]? = some content) :
    next.directory.files[name]? = some content := by
  refine @TransitionSystem.Run.invariant Store Op ((histories dataDir).continuing store)
    (fun later ↦ later.directory.files[name]? = some content) ?_ ?_ after next hafter
  · rintro _ rfl
    exact hfile
  · intro after state op next hrun hstate hstep
    obtain ⟨tables, hrefines, -⟩ := refines_run (hbefore.append hrun)
    exact hrefines.represents.file_step hstep hstate

/-- After every history of operations whose strings are shorter than `2 ^ 32`, memory and disk are
laid out, and every file keeps its bytes through all that follows. -/
theorem laidOut_run {history : List Op} (hrun : (histories dataDir).Run history store)
    (hfits : ∀ op ∈ history, op.Fits) :
    LaidOut dataDir store ∧
      ∀ (after : List Op) (next : Store) (name content : Bytes),
        ((histories dataDir).continuing store).Run after next →
          store.directory.files[name]? = some content →
            next.directory.files[name]? = some content := by
  obtain ⟨tables, htables⟩ := fullTables_run hrun hfits
  exact ⟨htables.laidOut, fun after next name content hafter hfile ↦ file_run hrun hafter hfile⟩

theorem laidOut_run_lostOverwrite :
    LaidOut [100] (runListed [100] lostOverwrite) ∧
      ∀ (after : List Op) (next : Store) (name content : Bytes),
        ((histories [100]).continuing (runListed [100] lostOverwrite)).Run after next →
          (runListed [100] lostOverwrite).directory.files[name]? = some content →
            next.directory.files[name]? = some content :=
  laidOut_run (run_runListed [100] lostOverwrite) (by decide)

end DailyChallenge.Lsm
