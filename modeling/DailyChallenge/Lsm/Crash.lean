import Mathlib
import DailyChallenge.Lsm.FailedFlush
import DailyChallenge.Lsm.Layout
import DailyChallenge.Lsm.TornFlush

/-!
# Crashes inside a flush

A process that dies in `writeSSTable` leaves a file with some first bytes of the table under the
name of the flush, and the next process finds it in the directory. `crashHistories` are the
histories in which this may happen to any flush after any number of bytes, any number of times.

To every reader the store after a crash is like one that flushed the surviving records and nothing
else and was then restarted (`SameReads`). So `Layers` describes all such histories: `get` answers
from the volatile writes, then from what has become durable, where a crash makes only the surviving
records durable (`get_eq_layers`).
-/

set_option autoImplicit false
set_option relaxedAutoImplicit false

namespace DailyChallenge.Lsm

open Library

/-! ### Histories with crashes -/

/-- The directory in the middle of a flush, with the first bytes of the table in its file. -/
def Store.tornDirectory (store : Store) (cut : ℕ) : DataDirectory :=
  store.directory.write store.tree.dataDir
    (pathOf store.tree.dataDir (sstableName store.tree.sstableCount))
    ((encodeTable store.tree.memtable).take cut)

/-- The process dies in the middle of a flush and a new one starts on the directory. -/
def Store.crash (store : Store) (cut : ℕ) (listing : List Bytes) : Store :=
  ⟨store.tornDirectory cut, .new store.tree.dataDir false listing⟩

/-- An operation, or a put whose flush is cut after some bytes. A deletion is the put of the
sentinel. -/
inductive CrashOp
  | call (op : Op)
  | crash (key value : Bytes) (cut : ℕ)

/-- An operation with every file operation succeeding, or a crash in the flush that a put triggers
and a restart that lists the directory in any order. -/
inductive CrashStep : Store → CrashOp → Store → Prop
  | call (store : Store) (op : Op) (next : Store) (h : Step store op next) :
    CrashStep store (.call op) next
  | crash (store : Store) (key value : Bytes) (cut : ℕ) (listing : List Bytes)
      (hfull : memtableFlushThreshold ≤ (store.setMemtable key value).tree.memtable.size)
      (hlisting : listing.Perm ((store.setMemtable key value).tornDirectory cut).files.keys) :
    CrashStep store (.crash key value cut) ((store.setMemtable key value).crash cut listing)

/-- Histories with crashes over a directory that starts empty and that nobody else touches. -/
def crashHistories (dataDir : Bytes) : TransitionSystem Store CrashOp where
  Start := Fresh dataDir
  Step := CrashStep

/-- The strings of an operation are shorter than `2 ^ 32`. -/
def CrashOp.Fits : CrashOp → Prop
  | .call op => op.Fits
  | .crash key value _ => Lsm.Fits key ∧ Lsm.Fits value

/-! ### The abstract store -/

/-- What every key reads as on disk, the writes in memory, and the flushes begun. -/
structure Layers where
  durable : Bytes → Option Bytes
  volatile : Table
  flushes : ℕ

namespace Layers

/-- Nothing stored. -/
def empty : Layers := ⟨fun _ ↦ none, ∅, 0⟩

/-- The memory goes to disk and some records get there. -/
def persist (layers : Layers) (records : List (Bytes × Bytes)) : Layers where
  durable key := ((records.find? fun record ↦ record.1 = key).map fun record ↦
    Store.answer record.2).getD (layers.durable key)
  volatile := ∅
  flushes := layers.flushes + 1

/-- A write to memory, of which all goes to disk as soon as there are four keys. -/
def write (layers : Layers) (key value : Bytes) : Layers :=
  let written := { layers with volatile := layers.volatile.insert key value }
  if memtableFlushThreshold ≤ written.volatile.size then written.persist written.volatile.toList
  else written

/-- A write to memory and a flush that is cut. -/
def crash (layers : Layers) (key value : Bytes) (cut : ℕ) : Layers :=
  layers.persist (surviving (layers.volatile.insert key value).toList cut)

/-- The answer from memory, then the one from disk. -/
def get (layers : Layers) (key : Bytes) : Option Bytes :=
  (layers.volatile[key]?.map Store.answer).getD (layers.durable key)

/-- The layers after an operation or a crash. -/
def step (layers : Layers) : CrashOp → Layers
  | .call (.put key value) => layers.write key value
  | .call (.del key) => layers.write key tombstone
  | .call .restart => { layers with volatile := ∅ }
  | .crash key value cut => layers.crash key value cut

end Layers

/-- The layers after a history. -/
def layersAfter (history : List CrashOp) : Layers := history.foldl Layers.step .empty

theorem layersAfter_append (history : List CrashOp) (op : CrashOp) :
    layersAfter (history ++ [op]) = (layersAfter history).step op := by
  rw [layersAfter, layersAfter, List.foldl_append]
  rfl

/-! ### Two stores with the same reads -/

/-- What the file of a name reads as. -/
def DataDirectory.scan (directory : DataDirectory) (name key : Bytes) :
    Option (Option (Option Bytes)) :=
  directory.files[name]?.map fun content ↦ Store.scanTable key (readEntries ⟨content, false⟩)

/-- The same process state on directories whose files read alike, whatever their bytes. -/
structure SameReads (store ideal : Store) : Prop where
  tree : store.tree = ideal.tree
  scans : store.directory.scan = ideal.directory.scan

theorem DataDirectory.scan_insert (directory : DataDirectory) (name content : Bytes)
    (written : List Bytes) (other key : Bytes) :
    (DataDirectory.mk (directory.files.insert name content) written).scan other key =
      if name = other then some (Store.scanTable key (readEntries ⟨content, false⟩))
      else directory.scan other key := by
  unfold scan
  rw [Std.TreeMap.getElem?_insert]
  by_cases hname : name = other
  · simp [hname]
  · simp [hname]

/-- Directories whose files read alike have the same names. -/
theorem DataDirectory.keys_perm {directory ideal : DataDirectory}
    (h : directory.scan = ideal.scan) : directory.files.keys.Perm ideal.files.keys := by
  refine (List.perm_ext_iff_of_nodup Std.TreeMap.nodup_keys Std.TreeMap.nodup_keys).mpr
    fun name ↦ ?_
  have hscan := congrArg Option.isSome (congrFun (congrFun h name) name)
  unfold scan at hscan
  rw [Option.isSome_map, Option.isSome_map] at hscan
  rw [Std.TreeMap.mem_keys, Std.TreeMap.mem_keys, Std.TreeMap.mem_iff_isSome_getElem?,
    Std.TreeMap.mem_iff_isSome_getElem?, hscan]

namespace SameReads

variable {store ideal next : Store}

theorem scanTable_readSSTable (h : SameReads store ideal) (path key : Bytes) :
    Store.scanTable key (readSSTable store.directory store.tree.dataDir path) =
      Store.scanTable key (readSSTable ideal.directory ideal.tree.dataDir path) := by
  rw [h.tree]
  unfold readSSTable DataDirectory.open?
  cases path.dropPrefix? (pathOf ideal.tree.dataDir []) with
  | none => rfl
  | some name =>
    have hscan := congrFun (congrFun h.scans name) key
    unfold DataDirectory.scan at hscan
    dsimp only
    generalize store.directory.files[name]? = content at hscan ⊢
    generalize ideal.directory.files[name]? = other at hscan ⊢
    rcases content with _ | content <;> rcases other with _ | other
    · rfl
    · cases hscan
    · cases hscan
    · exact Option.some.inj hscan

/-- Stores with the same reads give the same answers. -/
theorem get (h : SameReads store ideal) (key : Bytes) : store.get key = ideal.get key := by
  have hscan : ∀ paths, store.scanTables key paths = ideal.scanTables key paths := by
    intro paths
    induction paths with
    | nil => rfl
    | cons path rest ih => rw [Store.scanTables, Store.scanTables, h.scanTable_readSSTable, ih]
  rw [Store.get, Store.get, hscan, h.tree]

theorem setMemtable (h : SameReads store ideal) (key value : Bytes) :
    SameReads (store.setMemtable key value) (ideal.setMemtable key value) :=
  ⟨by rw [Store.setMemtable, Store.setMemtable, h.tree], h.scans⟩

theorem flush (h : SameReads store ideal) : SameReads (store.flush true) (ideal.flush true) := by
  rw [Store.flush_opened, Store.flush_opened, h.tree]
  refine ⟨rfl, ?_⟩
  funext name key
  rw [DataDirectory.scan_insert, DataDirectory.scan_insert, h.scans]

theorem put (h : SameReads store ideal) (key value : Bytes) :
    SameReads (store.put key value true) (ideal.put key value true) := by
  have hset := h.setMemtable key value
  unfold Store.put Store.maybeFlush
  show SameReads (if _ ≤ (store.setMemtable key value).tree.memtable.size then _ else _)
    (if _ ≤ (ideal.setMemtable key value).tree.memtable.size then _ else _)
  rw [hset.tree]
  split_ifs
  · exact hset.flush
  · exact hset

theorem restart (h : SameReads store ideal) (listing : List Bytes) :
    SameReads (store.restart listing) (ideal.restart listing) :=
  ⟨by rw [Store.restart, Store.restart, h.tree], h.scans⟩

/-- A step of the one is a step of the other. -/
theorem step (h : SameReads store ideal) {op : Op} (hstep : Step store op next) :
    ∃ idealNext, Step ideal op idealNext ∧ SameReads next idealNext := by
  cases hstep with
  | put key value => exact ⟨_, .put _ key value, h.put key value⟩
  | del key => exact ⟨_, .del _ key, h.put key tombstone⟩
  | restart listing hlisting =>
    exact ⟨_, .restart _ listing (hlisting.trans (DataDirectory.keys_perm h.scans)),
      h.restart listing⟩

end SameReads

/-! ### A crash as the flush of the survivors -/

/-- The table of the records that survive a cut. -/
def survivors (memtable : Table) (cut : ℕ) : Table :=
  .ofList (surviving memtable.toList cut)

theorem getElem?_survivors (memtable : Table) (cut : ℕ) (key : Bytes) :
    (survivors memtable cut)[key]? =
      ((surviving memtable.toList cut).find? fun record ↦ record.1 = key).map (·.2) := by
  have hordered : ((surviving memtable.toList cut).map Prod.fst).Pairwise
      fun first second ↦ compare first second = .lt := by
    refine List.Pairwise.sublist (map_fst_surviving _ cut).sublist ?_
    rw [List.pairwise_map]
    exact memtable.ordered_keys_toList
  rw [List.pairwise_map] at hordered
  cases hfind : (surviving memtable.toList cut).find? fun record ↦ record.1 = key with
  | none =>
    refine Std.TreeMap.getElem?_ofList_of_contains_eq_false ?_
    rw [List.contains_eq_mem, decide_eq_false_iff_not, List.mem_map]
    rintro ⟨record, hmem, rfl⟩
    simpa using List.find?_eq_none.mp hfind record hmem
  | some record =>
    obtain rfl : record.1 = key := by simpa using List.find?_some hfind
    have hdistinct : (surviving memtable.toList cut).Pairwise
        fun first second ↦ ¬ compare first.1 second.1 = .eq :=
      hordered.imp fun hlt ↦ by simp [hlt]
    exact Std.TreeMap.getElem?_ofList_of_mem Std.ReflCmp.compare_self hdistinct
      (List.mem_of_find?_eq_some hfind)

theorem tableFits_survivors {memtable : Table} (h : TableFits memtable) (cut : ℕ) :
    TableFits (survivors memtable cut) := by
  intro entry hentry
  have hlookup := Std.TreeMap.mem_toList_iff_getElem?_eq_some.mp hentry
  rw [getElem?_survivors, Option.map_eq_some_iff] at hlookup
  obtain ⟨record, hfind, hvalue⟩ := hlookup
  have hkey : record.1 = entry.1 := by simpa using List.find?_some hfind
  have hmem : (entry.1, entry.2) ∈ surviving memtable.toList cut := by
    rw [← hkey, ← hvalue]
    exact List.mem_of_find?_eq_some hfind
  obtain ⟨written, count, hwritten, htorn⟩ := exists_of_mem_surviving hmem
  refine ⟨(h _ hwritten).1, ?_⟩
  rw [Fits, htorn, length_tornValue]
  exact (h _ hwritten).2

/-- A cut file reads as the file of the survivors would. -/
theorem scanTable_readEntries_take {memtable : Table} (h : TableFits memtable) (cut : ℕ)
    (key : Bytes) :
    Store.scanTable key (readEntries ⟨(encodeTable memtable).take cut, false⟩) =
      Store.scanTable key (readEntries ⟨encodeTable (survivors memtable cut), false⟩) := by
  rw [encodeTable, readEntries_take h, scanTable_map_toEntry,
    scanTable_readEntries_encodeTable (tableFits_survivors h cut), getElem?_survivors,
    Option.map_map]
  rfl

/-- The store with another table in memory. -/
def Store.holding (store : Store) (memtable : Table) : Store :=
  { store with tree := { store.tree with memtable := memtable } }

/-- After a crash the files read as after a flush of the survivors. -/
theorem SameReads.scan_tornDirectory {store ideal : Store} (h : SameReads store ideal)
    (hfits : TableFits store.tree.memtable) (cut : ℕ) :
    (store.tornDirectory cut).scan =
      ((ideal.holding (survivors store.tree.memtable cut)).flush true).directory.scan := by
  funext name key
  rw [Store.tornDirectory, DataDirectory.write_pathOf, Store.flush_opened,
    DataDirectory.scan_insert, DataDirectory.scan_insert, scanTable_readEntries_take hfits,
    h.scans, Store.holding, h.tree]

/-- A crash and the next start look like a flush of the survivors and a restart. -/
theorem SameReads.crash {store ideal : Store} (h : SameReads store ideal)
    (hfits : TableFits store.tree.memtable) (cut : ℕ) (listing : List Bytes) :
    SameReads (store.crash cut listing)
      (((ideal.holding (survivors store.tree.memtable cut)).flush true).restart listing) := by
  refine ⟨?_, h.scan_tornDirectory hfits cut⟩
  rw [Store.crash, Store.restart, Store.flush_opened, Store.holding, h.tree]

/-! ### The store and its layers -/

/-- Everything that ties a store to its layers: a store that reads the same and whose files are the
encodings of a stack of tables, latest first. -/
structure Layered (dataDir : Bytes) (tables : List Table) (ideal store : Store)
    (layers : Layers) : Prop where
  same : SameReads store ideal
  represents : Represents dataDir tables ideal
  fits : ∀ table ∈ store.tree.memtable :: tables, TableFits table
  volatile_eq : layers.volatile = store.tree.memtable
  durable_eq : ∀ key, layers.durable key = ((newest tables key).map Store.answer).join
  flushes_eq : layers.flushes = tables.length

/-- Records on disk answer for their keys, older tables for the others. -/
theorem durable_persist {layers : Layers} {tables : List Table}
    (h : ∀ key, layers.durable key = ((newest tables key).map Store.answer).join)
    {table : Table} {records : List (Bytes × Bytes)}
    (htable : ∀ key, table[key]? = (records.find? fun record ↦ record.1 = key).map (·.2))
    (key : Bytes) :
    (layers.persist records).durable key =
      ((newest (table :: tables) key).map Store.answer).join := by
  rw [newest, List.findSome?_cons, htable]
  show (Option.map _ _).getD _ = _
  cases records.find? fun record ↦ record.1 = key with
  | none => exact h key
  | some record => rfl

variable {dataDir : Bytes} {tables : List Table} {ideal store next : Store} {layers : Layers}

theorem layered_fresh (h : Fresh dataDir store) : Layered dataDir [] store store .empty := by
  have hmemtable : store.tree.memtable = ∅ := by cases h <;> rfl
  refine ⟨⟨rfl, rfl⟩, represents_fresh h, ?_, hmemtable.symm, fun _ ↦ rfl, rfl⟩
  rw [hmemtable]
  intro table htable
  rw [List.mem_singleton.mp htable]
  exact tableFits_empty

/-- A write to memory that leaves the disk alone. -/
theorem Layered.setMemtable (h : Layered dataDir tables ideal store layers) {key value : Bytes}
    (hkey : Fits key) (hvalue : Fits value) :
    Layered dataDir tables (ideal.setMemtable key value) (store.setMemtable key value)
      { layers with volatile := layers.volatile.insert key value } where
  same := h.same.setMemtable key value
  represents := h.represents.setMemtable _
  fits := by
    intro table htable
    rcases List.mem_cons.mp htable with rfl | hold
    · exact (h.fits _ List.mem_cons_self).insert hkey hvalue
    · exact h.fits table (List.mem_cons_of_mem _ hold)
  volatile_eq := by
    rw [h.volatile_eq]
    rfl
  durable_eq := h.durable_eq
  flushes_eq := h.flushes_eq

/-- The stack after a flush or a crash, with an empty memory on top. -/
theorem Layered.fits_cons (h : Layered dataDir tables ideal store layers) {table : Table}
    (htable : TableFits table) : ∀ other ∈ ∅ :: table :: tables, TableFits other := by
  intro other hother
  rcases List.mem_cons.mp hother with rfl | hflushed
  · exact tableFits_empty
  · rcases List.mem_cons.mp hflushed with rfl | hold
    · exact htable
    · exact h.fits other (List.mem_cons_of_mem _ hold)

theorem Layered.flush (h : Layered dataDir tables ideal store layers) :
    Layered dataDir (store.tree.memtable :: tables) (ideal.flush true) (store.flush true)
      (layers.persist layers.volatile.toList) where
  same := h.same.flush
  represents := by
    rw [h.same.tree]
    exact h.represents.flush
  fits := h.fits_cons (h.fits _ List.mem_cons_self)
  volatile_eq := rfl
  durable_eq := durable_persist h.durable_eq fun key ↦ by rw [h.volatile_eq, find?_toList]
  flushes_eq := congrArg (· + 1) h.flushes_eq

theorem Layered.crash (h : Layered dataDir tables ideal store layers) (cut : ℕ)
    {listing : List Bytes} (hlisting : listing.Perm (store.tornDirectory cut).files.keys) :
    ∃ idealNext, Layered dataDir (survivors store.tree.memtable cut :: tables) idealNext
      (store.crash cut listing) (layers.persist (surviving layers.volatile.toList cut)) := by
  have hmemtable := h.fits _ List.mem_cons_self
  have hflush := (h.represents.setMemtable (survivors store.tree.memtable cut)).flush
  have hkeys := DataDirectory.keys_perm (h.same.scan_tornDirectory hmemtable cut)
  refine ⟨_, h.same.crash hmemtable cut listing, hflush.restart (hlisting.trans hkeys),
    h.fits_cons (tableFits_survivors hmemtable cut), rfl, durable_persist h.durable_eq fun key ↦ ?_,
    congrArg (· + 1) h.flushes_eq⟩
  rw [h.volatile_eq, getElem?_survivors]

/-- A put writes to memory, and flushes what it fills. -/
theorem Layered.put (h : Layered dataDir tables ideal store layers) {key value : Bytes}
    (hkey : Fits key) (hvalue : Fits value) :
    ∃ stack idealNext, Layered dataDir stack idealNext (store.put key value true)
      (layers.write key value) := by
  have hset := h.setMemtable hkey hvalue
  unfold Layers.write
  dsimp only
  rw [h.volatile_eq]
  rcases Nat.lt_or_ge (store.tree.memtable.insert key value).size memtableFlushThreshold with
    hroom | hfull
  · rw [Store.put_of_lt hroom, if_neg (not_le.mpr hroom)]
    rw [h.volatile_eq] at hset
    exact ⟨_, _, hset⟩
  · rw [Store.put_of_le hfull, if_pos hfull]
    have hflush := hset.flush
    dsimp only at hflush
    rw [h.volatile_eq] at hflush
    exact ⟨_, _, hflush⟩

/-- Every operation and every crash keeps the store beside its layers. -/
theorem Layered.step (h : Layered dataDir tables ideal store layers) {op : CrashOp}
    (hfits : op.Fits) (hstep : CrashStep store op next) :
    ∃ stack idealNext, Layered dataDir stack idealNext next (layers.step op) := by
  cases hstep with
  | call op _ hcall =>
    cases hcall with
    | put key value => exact h.put hfits.1 hfits.2
    | del key => exact h.put hfits fits_tombstone
    | restart listing hlisting =>
      refine ⟨tables, _, h.same.restart listing,
        h.represents.restart (hlisting.trans (DataDirectory.keys_perm h.same.scans)), ?_, rfl,
        h.durable_eq, h.flushes_eq⟩
      intro table htable
      rcases List.mem_cons.mp htable with rfl | hold
      · exact tableFits_empty
      · exact h.fits table (List.mem_cons_of_mem _ hold)
  | crash key value cut listing hfull hlisting =>
    obtain ⟨idealNext, hcrash⟩ := (h.setMemtable hfits.1 hfits.2).crash cut hlisting
    exact ⟨_, idealNext, hcrash⟩

/-- The layers after a history whose strings fit. -/
theorem layered_run {history : List CrashOp} (hrun : (crashHistories dataDir).Run history store)
    (hfits : ∀ op ∈ history, op.Fits) :
    ∃ tables ideal, Layered dataDir tables ideal store (layersAfter history) := by
  induction hrun with
  | start hfresh => exact ⟨[], _, layered_fresh hfresh⟩
  | @step history store next op _ hstep ih =>
    obtain ⟨tables, ideal, h⟩ := ih fun other hother ↦ hfits other (List.mem_append_left _ hother)
    rw [layersAfter_append]
    exact h.step (hfits op (List.mem_append_right _ (List.mem_singleton_self op))) hstep

/-! ### Answers -/

/-- The newest table answers first, as long as sorted order is flush order. -/
theorem Layered.get_eq (h : Layered dataDir tables ideal store layers)
    (hflushes : layers.flushes ≤ fourDigitFiles) (key : Bytes) :
    store.get key = layers.get key := by
  rw [h.flushes_eq] at hflushes
  rw [h.same.get, Store.get, Layers.get, h.volatile_eq, ← h.same.tree]
  cases hlookup : store.tree.memtable[key]? with
  | some value => rfl
  | none =>
    dsimp only
    rw [h.same.tree, h.represents.paths_eq_flushedPaths hflushes, ← h.represents.dataDir_eq,
      scanTables_flushedPaths key h.represents.contents fun table htable ↦
        h.fits table (List.mem_cons_of_mem _ htable)]
    exact (h.durable_eq key).symm

/-- After every history with crashes in any of its flushes and at most ten thousand flushes, `get`
answers as the layers do. -/
theorem get_eq_layers {history : List CrashOp}
    (hrun : (crashHistories dataDir).Run history store) (hfits : ∀ op ∈ history, op.Fits)
    (hflushes : (layersAfter history).flushes ≤ 10000) (key : Bytes) :
    store.get key = (layersAfter history).get key := by
  obtain ⟨tables, ideal, h⟩ := layered_run hrun hfits
  exact h.get_eq hflushes key

instance (op : CrashOp) : Decidable op.Fits :=
  match op with
  | .call op => inferInstanceAs (Decidable op.Fits)
  | .crash key value _ => inferInstanceAs (Decidable (Fits key ∧ Fits value))

/-- Three puts, and a fourth whose flush is cut inside the third value. -/
def cutThirdValue : List CrashOp :=
  [.call (.put [1] [7]), .call (.put [2] [8]), .call (.put [3] [9, 9]), .crash [4] [10] 30]

/-- The store after the three puts. -/
def beforeCut : Store := runListed [100] [.put [1] [7], .put [2] [8], .put [3] [9, 9]]

/-- The store after `cutThirdValue`, with the directory listed in name order. -/
def cutThirdValueStore : Store :=
  (beforeCut.setMemtable [4] [10]).crash 30
    ((beforeCut.setMemtable [4] [10]).tornDirectory 30).files.keys

theorem run_cutThirdValue : (crashHistories [100]).Run cutThirdValue cutThirdValueStore := by
  have h : (crashHistories [100]).Run [] ⟨.empty, .new [100] true []⟩ := .start .created
  have h := h.step (.call _ _ _ (.put _ [1] [7]))
  have h := h.step (.call _ _ _ (.put _ [2] [8]))
  have h := h.step (.call _ _ _ (.put _ [3] [9, 9]))
  exact h.step (.crash beforeCut [4] [10] 30 _ (by decide) (List.Perm.refl _))

/-- The third value is read with a zero in place of its second byte, the fourth is lost. -/
theorem get_eq_layers_cutThirdValue :
    cutThirdValueStore.get [3] = (layersAfter cutThirdValue).get [3] ∧
      (layersAfter cutThirdValue).get [3] = some [9, 0] ∧
        (layersAfter cutThirdValue).get [4] = none :=
  ⟨get_eq_layers run_cutThirdValue (by decide) (by decide) [3], by decide, by decide⟩

end DailyChallenge.Lsm
