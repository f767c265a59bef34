import Mathlib
import DailyChallenge.Lsm.FailedFlush
import DailyChallenge.Lsm.FileNames

/-!
# File numbers over a directory that is not empty

The first file number of a session is the number of directory entries, not one past the largest
number in them. `InSession` says where a session is after so many flushes: it has written the files
from the first number on and touched no other. Hence it overwrites nothing exactly when no entry has
a number in that range (`keepsFiles_iff`), for any directory and any puts and deletions. A gap in
the numbering makes the ranges meet (`not_keepsFiles_gap`).
-/

set_option autoImplicit false
set_option relaxedAutoImplicit false

namespace DailyChallenge.Lsm

open Library

/-! ### Sessions -/

/-- A tree constructed over a directory with the given files, in this session still unwritten. -/
inductive Constructed (dataDir : Bytes) (files : Std.TreeMap Bytes Bytes) : Store → Prop
  | created (h : files = ∅) : Constructed dataDir files ⟨⟨files, []⟩, .new dataDir true []⟩
  | existing (listing : List Bytes) (h : listing.Perm files.keys) :
    Constructed dataDir files ⟨⟨files, []⟩, .new dataDir false listing⟩

/-- A put or a deletion. -/
def Event.IsWrite : Event → Prop
  | .put _ _ _ | .del _ _ => True
  | .restart _ => False

/-- The keys written since the last flush, and the flushes that opened their file. -/
structure Buffer where
  keys : Finset Bytes
  flushes : ℕ

/-- A write of a key; every fourth key flushes. -/
def Buffer.write (buffer : Buffer) (key : Bytes) (opened : Bool) : Buffer :=
  if 4 ≤ (insert key buffer.keys).card then
    ⟨∅, if opened then buffer.flushes + 1 else buffer.flushes⟩
  else ⟨insert key buffer.keys, buffer.flushes⟩

/-- The buffer after an operation of a session. -/
def Buffer.step (buffer : Buffer) : Event → Buffer
  | .put key _ opened | .del key opened => buffer.write key opened
  | .restart _ => buffer

/-- The number of flushes in a session that opened their file. -/
def flushesIn (events : List Event) : ℕ := (events.foldl Buffer.step ⟨∅, 0⟩).flushes

/-- No flush of the session opened a path that was there at construction or that it had opened
before, the files that were there have their bytes, and no path is listed twice. -/
structure KeepsFiles (dataDir : Bytes) (files : Std.TreeMap Bytes Bytes) (store : Store) :
    Prop where
  opensNew : ∀ name ∈ files, pathOf dataDir name ∉ store.directory.written
  opensOnce : store.directory.written.Nodup
  bytes : ∀ name ∈ files, store.directory.files[name]? = files[name]?
  listsOnce : store.tree.sstablePaths.Nodup

/-! ### Where a session is -/

/-- The paths of the flushes with numbers from `first` on, latest first. -/
def sessionPaths (dataDir : Bytes) (first count : ℕ) : List Bytes :=
  (List.range count).reverse.map fun i ↦ sstablePath dataDir (first + i)

theorem sessionPaths_succ (dataDir : Bytes) (first count : ℕ) :
    sessionPaths dataDir first (count + 1) =
      sstablePath dataDir (first + count) :: sessionPaths dataDir first count := by
  simp [sessionPaths, List.range_succ]

theorem mem_sessionPaths {dataDir path : Bytes} {first count : ℕ} :
    path ∈ sessionPaths dataDir first count ↔
      ∃ i < count, sstablePath dataDir (first + i) = path := by
  simp [sessionPaths]

theorem nodup_sessionPaths (dataDir : Bytes) (first count : ℕ) :
    (sessionPaths dataDir first count).Nodup := by
  refine (List.nodup_reverse.mpr List.nodup_range).map fun i j h ↦ ?_
  exact Nat.add_left_cancel (sstablePath_injective dataDir h)

/-- The state of a session over the given files, beside its buffer. -/
structure InSession (dataDir : Bytes) (files : Std.TreeMap Bytes Bytes) (store : Store)
    (buffer : Buffer) : Prop where
  dataDir_eq : store.tree.dataDir = dataDir
  count_eq : store.tree.sstableCount = files.size + buffer.flushes
  keys : ∀ key, key ∈ store.tree.memtable ↔ key ∈ buffer.keys
  written_eq : store.directory.written = sessionPaths dataDir files.size buffer.flushes
  paths_perm : store.tree.sstablePaths.Perm
    (sessionPaths dataDir files.size buffer.flushes ++ files.keys.map (pathOf dataDir))
  untouched : ∀ name, (∀ i < buffer.flushes, sstableName (files.size + i) ≠ name) →
    store.directory.files[name]? = files[name]?

variable {dataDir : Bytes} {files : Std.TreeMap Bytes Bytes} {store : Store} {buffer : Buffer}

/-- At construction the first number is the number of entries. -/
theorem inSession_constructed (h : Constructed dataDir files store) :
    InSession dataDir files store ⟨∅, 0⟩ := by
  have hempty : ∀ key : Bytes, key ∈ (∅ : Std.TreeMap Bytes Bytes) ↔ key ∈ (∅ : Finset Bytes) :=
    fun key ↦ iff_of_false Std.TreeMap.not_mem_emptyc (Finset.notMem_empty key)
  cases h with
  | created hfiles =>
    subst hfiles
    exact ⟨rfl, rfl, hempty, rfl, List.Perm.refl _, fun _ _ ↦ rfl⟩
  | existing listing hlisting =>
    refine ⟨rfl, ?_, hempty, rfl, ?_, fun _ _ ↦ rfl⟩
    · exact hlisting.length_eq.trans Std.TreeMap.length_keys
    · exact (sortNewestFirst_perm _).trans (hlisting.map _)

/-- Two descriptions of the same keys count them alike. -/
theorem InSession.size_memtable (h : InSession dataDir files store buffer) :
    store.tree.memtable.size = buffer.keys.card := by
  have hkeys : buffer.keys = store.tree.memtable.keys.toFinset := by
    ext key
    rw [List.mem_toFinset, Std.TreeMap.mem_keys, h.keys]
  rw [hkeys, List.toFinset_card_of_nodup Std.TreeMap.nodup_keys, Std.TreeMap.length_keys]

/-- A write to the memtable. -/
theorem InSession.setMemtable (h : InSession dataDir files store buffer) (key value : Bytes) :
    InSession dataDir files (store.setMemtable key value)
      ⟨insert key buffer.keys, buffer.flushes⟩ where
  dataDir_eq := h.dataDir_eq
  count_eq := h.count_eq
  keys other := by
    rw [Finset.mem_insert, ← h.keys]
    refine Std.TreeMap.mem_insert.trans ?_
    rw [Std.LawfulEqOrd.compare_eq_iff_eq, eq_comm]
  written_eq := h.written_eq
  paths_perm := h.paths_perm
  untouched := h.untouched

/-- A flush, whether or not it opens its file. -/
theorem InSession.flush (h : InSession dataDir files store buffer) (opened : Bool) :
    InSession dataDir files (store.flush opened)
      ⟨∅, if opened then buffer.flushes + 1 else buffer.flushes⟩ := by
  have hempty : ∀ key : Bytes, key ∈ (∅ : Std.TreeMap Bytes Bytes) ↔ key ∈ (∅ : Finset Bytes) :=
    fun key ↦ iff_of_false Std.TreeMap.not_mem_emptyc (Finset.notMem_empty key)
  cases opened with
  | false => exact ⟨h.dataDir_eq, h.count_eq, hempty, h.written_eq, h.paths_perm, h.untouched⟩
  | true =>
    have hdirectory : (store.flush true).directory =
        ⟨store.directory.files.insert (sstableName (files.size + buffer.flushes))
          (encodeTable store.tree.memtable),
          sstablePath dataDir (files.size + buffer.flushes) :: store.directory.written⟩ := by
      rw [Store.flush_opened, h.count_eq, h.dataDir_eq]
    constructor
    case dataDir_eq => exact h.dataDir_eq
    case count_eq =>
      rw [Store.flush_opened, h.count_eq, if_pos rfl, add_assoc]
    case keys => exact hempty
    case written_eq =>
      rw [hdirectory, if_pos rfl, sessionPaths_succ, h.written_eq]
    case paths_perm =>
      rw [Store.flush_opened, if_pos rfl, sessionPaths_succ, h.dataDir_eq, h.count_eq]
      refine (sortNewestFirst_perm _).trans ((List.perm_append_singleton _ _).trans ?_)
      exact h.paths_perm.cons _
    case untouched =>
      intro name hname
      rw [if_pos rfl] at hname
      rw [hdirectory, Std.TreeMap.getElem?_insert, if_neg]
      · exact h.untouched name fun i hi ↦ hname i (Nat.lt_succ_of_lt hi)
      · simpa using hname buffer.flushes (Nat.lt_succ_self _)

/-- One put or deletion. -/
theorem InSession.step (h : InSession dataDir files store buffer) {event : Event}
    (hwrite : event.IsWrite) :
    InSession dataDir files (store.apply event) (buffer.step event) := by
  have hput : ∀ key value opened,
      InSession dataDir files (store.put key value opened) (buffer.write key opened) := by
    intro key value opened
    have hset := h.setMemtable key value
    have hsize : (store.tree.memtable.insert key value).size = (insert key buffer.keys).card :=
      hset.size_memtable
    unfold Buffer.write
    rw [← hsize]
    rcases Nat.lt_or_ge (store.tree.memtable.insert key value).size memtableFlushThreshold with
      hroom | hfull
    · rw [Store.put_of_lt hroom, if_neg (show ¬ 4 ≤ _ from not_le.mpr hroom)]
      exact hset
    · rw [Store.put_of_le hfull, if_pos (show 4 ≤ _ from hfull)]
      exact hset.flush opened
  cases event with
  | put key value opened => exact hput key value opened
  | del key opened => exact hput key tombstone opened
  | restart listing => exact hwrite.elim

/-- A whole session of puts and deletions. -/
theorem InSession.run (h : InSession dataDir files store buffer) {events : List Event}
    (hwrites : ∀ event ∈ events, event.IsWrite) :
    InSession dataDir files (store.applyAll events) (events.foldl Buffer.step buffer) := by
  induction events generalizing store buffer with
  | nil => exact h
  | cons event rest ih =>
    obtain ⟨hevent, hrest⟩ := List.forall_mem_cons.mp hwrites
    exact ih (h.step hevent) hrest

/-! ### When nothing is overwritten -/

/-- A session keeps the files that were there exactly when none of them has one of its numbers. -/
theorem InSession.keeps_iff (h : InSession dataDir files store buffer) :
    KeepsFiles dataDir files store ↔
      ∀ number, files.size ≤ number → number < files.size + buffer.flushes →
        sstableName number ∉ files := by
  constructor
  · intro hkeeps number hlow hhigh hmem
    apply hkeeps.opensNew _ hmem
    rw [h.written_eq, mem_sessionPaths]
    exact ⟨number - files.size, by omega, by rw [Nat.add_sub_cancel' hlow]; rfl⟩
  · intro hnumbers
    have hnew : ∀ name ∈ files, ∀ i < buffer.flushes, sstableName (files.size + i) ≠ name := by
      rintro _ hmem i hi rfl
      exact hnumbers (files.size + i) (by omega) (by omega) hmem
    have hpaths : ∀ name ∈ files,
        pathOf dataDir name ∉ sessionPaths dataDir files.size buffer.flushes := by
      intro name hmem hpath
      obtain ⟨i, hi, hsame⟩ := mem_sessionPaths.mp hpath
      exact hnew name hmem i hi (pathOf_injective dataDir hsame)
    constructor
    case opensNew =>
      rw [h.written_eq]
      exact hpaths
    case opensOnce =>
      rw [h.written_eq]
      exact nodup_sessionPaths _ _ _
    case bytes => exact fun name hmem ↦ h.untouched name (hnew name hmem)
    case listsOnce =>
      rw [h.paths_perm.nodup_iff]
      refine List.Nodup.append (nodup_sessionPaths _ _ _) ?_ ?_
      · exact Std.TreeMap.nodup_keys.map (pathOf_injective dataDir)
      · intro path hsession hold
        obtain ⟨name, hname, rfl⟩ := List.mem_map.mp hold
        exact hpaths name (Std.TreeMap.mem_keys.mp hname) hsession

/-- Over any directory, a session of puts and deletions overwrites nothing exactly when no file that
was there has a number between the count of files and that count plus the flushes of the session. -/
theorem keepsFiles_iff {start : Store} (hstart : Constructed dataDir files start)
    {events : List Event} (hwrites : ∀ event ∈ events, event.IsWrite) :
    KeepsFiles dataDir files (start.applyAll events) ↔
      ∀ number, files.size ≤ number → number < files.size + flushesIn events →
        sstableName number ∉ files :=
  ((inSession_constructed hstart).run hwrites).keeps_iff

/-- A session of four puts, whose flush opens its file. -/
def fourWrites : List Event :=
  [.put [1] [7] true, .put [2] [8] true, .put [3] [9] true, .put [4] [10] true]

/-- A directory with the one file of a given number. -/
def oneFile (number : ℕ) : Std.TreeMap Bytes Bytes :=
  (∅ : Std.TreeMap Bytes Bytes).insert (sstableName number) []

/-- A tree constructed over a directory with one file. -/
def overOneFile (number : ℕ) : Store :=
  ⟨⟨oneFile number, []⟩, .new [100] false [sstableName number]⟩

theorem constructed_overOneFile (number : ℕ) :
    Constructed [100] (oneFile number) (overOneFile number) :=
  .existing [sstableName number] (List.Perm.refl _)

/-- The theorem over the file that the first flush of an earlier session left. -/
theorem keepsFiles_iff_overOneFile :
    KeepsFiles [100] (oneFile 0) ((overOneFile 0).applyAll fourWrites) ↔
      ∀ number, (oneFile 0).size ≤ number → number < (oneFile 0).size + flushesIn fourWrites →
        sstableName number ∉ oneFile 0 :=
  keepsFiles_iff (constructed_overOneFile 0) fun event hevent ↦ by
    simp only [fourWrites, List.mem_cons, List.not_mem_nil, or_false] at hevent
    obtain rfl | rfl | rfl | rfl := hevent <;> trivial

/-- Where file 0 was removed and file 1 is left, the first flush opens file 1. -/
theorem not_keepsFiles_gap : Constructed [100] (oneFile 1) (overOneFile 1) ∧
    ¬ KeepsFiles [100] (oneFile 1) ((overOneFile 1).applyAll fourWrites) := by
  refine ⟨constructed_overOneFile 1, fun hkeeps ↦ ?_⟩
  have hwritten : ((overOneFile 1).applyAll fourWrites).directory.written =
      [pathOf [100] (sstableName 1)] := rfl
  have hmem : sstableName 1 ∈ oneFile 1 := Std.TreeMap.mem_insert_self
  have hnew := hkeeps.opensNew _ hmem
  rw [hwritten] at hnew
  exact hnew List.mem_cons_self

end DailyChallenge.Lsm
