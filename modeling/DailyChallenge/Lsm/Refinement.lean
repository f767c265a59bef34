import Mathlib
import DailyChallenge.Lsm.Codec
import DailyChallenge.Lsm.FileNames
import DailyChallenge.Lsm.Reference

/-!
# The store refines its reference

Every state of the store has a stack of flushed tables, latest first. `Represents` ties the stack to
the disk, the counter and the path vector: the file of a table is the encoding of the table, the
files are numbered by the tables, and the path vector is the sorted vector of their paths whatever
order the directory was listed in. `Tracks` ties the state to the reference as far as keys and
flushes go, for any history; `Mirrors` ties the marks, for histories whose strings fit their length
fields and that put no value equal to the sentinel.

`represents_step` is the step lemma and `represents_run` the run lemma. `get_eq_reference` follows
for every history of at most ten thousand flushes, where sorted order is flush order.
-/

set_option autoImplicit false
set_option relaxedAutoImplicit false

namespace DailyChallenge.Lsm

open Library

/-- A flushed table. -/
abbrev Table := Std.TreeMap Bytes Bytes

/-! ### The flushed tables on disk -/

/-- The file of every table of a stack, latest first, is the encoding of the table. -/
def Contents (files : Std.TreeMap Bytes Bytes) : List Table → Prop
  | [] => True
  | table :: older =>
    files[sstableName older.length]? = some (encodeTable table) ∧ Contents files older

/-- Writing a file with a later number keeps the files of a stack. -/
theorem Contents.insert {files : Std.TreeMap Bytes Bytes} {number : ℕ} (content : Bytes) :
    ∀ {tables : List Table}, Contents files tables → tables.length ≤ number →
      Contents (files.insert (sstableName number) content) tables
  | [], _, _ => trivial
  | table :: older, h, hlength => by
    rw [List.length_cons] at hlength
    have hname : sstableName number ≠ sstableName older.length := fun hsame ↦ by
      have hnumber := sstableName_injective hsame
      omega
    refine ⟨?_, h.2.insert content (by omega)⟩
    rw [Std.TreeMap.getElem?_insert, if_neg (by simpa using hname)]
    exact h.1

/-- The disk, the counter, the path vector and the write record of a store whose flushed tables are
the given stack, latest first. -/
structure Represents (dataDir : Bytes) (tables : List Table) (store : Store) : Prop where
  dataDir_eq : store.tree.dataDir = dataDir
  count_eq : store.tree.sstableCount = tables.length
  names : ∀ name, name ∈ store.directory.files ↔ ∃ number < tables.length, sstableName number = name
  contents : Contents store.directory.files tables
  paths_eq : store.tree.sstablePaths = sortNewestFirst (flushedPaths dataDir tables.length)
  written_eq : store.directory.written = flushedPaths dataDir tables.length

/-- A store on a directory that starts empty has flushed nothing. -/
theorem represents_fresh {dataDir : Bytes} {store : Store} (h : Fresh dataDir store) :
    Represents dataDir [] store := by
  cases h <;>
    exact
      { dataDir_eq := rfl
        count_eq := rfl
        names := fun name ↦ by
          simp [DataDirectory.empty]
        contents := trivial
        paths_eq := rfl
        written_eq := rfl }

/-- A successful flush writes the file whose number is the height of the stack. -/
theorem Represents.directory_flush {dataDir : Bytes} {tables : List Table} {store : Store}
    (h : Represents dataDir tables store) :
    (store.flush true).directory =
      ⟨store.directory.files.insert (sstableName tables.length) (encodeTable store.tree.memtable),
        sstablePath dataDir tables.length :: store.directory.written⟩ := by
  rw [Store.flush_opened, h.count_eq, h.dataDir_eq]

/-- A successful flush puts the memtable on the stack. -/
theorem Represents.flush {dataDir : Bytes} {tables : List Table} {store : Store}
    (h : Represents dataDir tables store) :
    Represents dataDir (store.tree.memtable :: tables) (store.flush true) := by
  have hdirectory := h.directory_flush
  refine
    { dataDir_eq := ?_
      count_eq := ?_
      names := fun name ↦ ?_
      contents := ?_
      paths_eq := ?_
      written_eq := ?_ }
  · exact h.dataDir_eq
  · rw [Store.flush_opened, h.count_eq, List.length_cons]
  · rw [hdirectory, Std.TreeMap.mem_insert, h.names, List.length_cons,
      Std.LawfulEqOrd.compare_eq_iff_eq]
    constructor
    · rintro (hnew | ⟨number, hnumber, hname⟩)
      · exact ⟨tables.length, by omega, hnew⟩
      · exact ⟨number, by omega, hname⟩
    · rintro ⟨number, hnumber, hname⟩
      rcases Nat.lt_or_ge number tables.length with hold | hnew
      · exact Or.inr ⟨number, hold, hname⟩
      · obtain rfl : number = tables.length := by omega
        exact Or.inl hname
  · rw [hdirectory]
    refine ⟨?_, h.contents.insert _ le_rfl⟩
    simp
  · rw [Store.flush_opened, h.paths_eq, h.dataDir_eq, h.count_eq, List.length_cons,
      flushedPaths_succ]
    refine sortNewestFirst_congr ?_
    exact ((sortNewestFirst_perm _).append_right _).trans (List.perm_append_singleton _ _)
  · rw [hdirectory, List.length_cons, flushedPaths_succ, h.written_eq]

/-- The names of the files are the names of the flushes. -/
theorem Represents.keys_perm {dataDir : Bytes} {tables : List Table} {store : Store}
    (h : Represents dataDir tables store) :
    store.directory.files.keys.Perm ((List.range tables.length).map sstableName) := by
  refine (List.perm_ext_iff_of_nodup Std.TreeMap.nodup_keys
    (List.nodup_range.map sstableName_injective)).mpr fun name ↦ ?_
  rw [Std.TreeMap.mem_keys, h.names]
  simp

/-- A restart recovers the counter and the path vector, in whatever order the directory is listed,
and loses the memtable. -/
theorem Represents.restart {dataDir : Bytes} {tables : List Table} {store : Store}
    (h : Represents dataDir tables store) {listing : List Bytes}
    (hlisting : listing.Perm store.directory.files.keys) :
    Represents dataDir tables (store.restart listing) where
  dataDir_eq := h.dataDir_eq
  count_eq := by
    show listing.length = _
    rw [(hlisting.trans h.keys_perm).length_eq, List.length_map, List.length_range]
  names := h.names
  contents := h.contents
  paths_eq := by
    show sortNewestFirst (listing.map (pathOf store.tree.dataDir)) = _
    rw [h.dataDir_eq]
    refine sortNewestFirst_congr (((hlisting.trans h.keys_perm).map _).trans ?_)
    rw [flushedPaths, List.map_map]
    exact (List.reverse_perm _).symm.map _
  written_eq := h.written_eq

/-- Changing the memtable alone keeps the flushed tables. -/
theorem Represents.setMemtable {dataDir : Bytes} {tables : List Table} {store : Store}
    (h : Represents dataDir tables store) (memtable : Table) :
    Represents dataDir tables { store with tree := { store.tree with memtable := memtable } } :=
  ⟨h.dataDir_eq, h.count_eq, h.names, h.contents, h.paths_eq, h.written_eq⟩

/-! ### The reference beside the store -/

/-- The reference holds the same volatile keys as the memtable and has flushed as often. -/
structure Tracks (tables : List Table) (memtable : Table)
    (reference : Reference Bytes Bytes) : Prop where
  keys : ∀ key, key ∈ reference.volatile ↔ key ∈ memtable
  flushes : reference.flushes = tables.length

/-- The newest value of a key in a stack of tables, latest first. -/
def newest (tables : List Table) (key : Bytes) : Option Bytes :=
  tables.findSome? fun table ↦ table[key]?

/-- The marks of the reference are the answers the stored values stand for, and every stored string
fits its length field. -/
structure Mirrors (tables : List Table) (memtable : Table)
    (reference : Reference Bytes Bytes) : Prop where
  volatile : ∀ key, reference.volatile.lookup key = memtable[key]?.map Store.answer
  durable : ∀ key, reference.durable.lookup key = (newest tables key).map Store.answer
  fits : ∀ table ∈ memtable :: tables, TableFits table

/-- Two maps with the same keys hold equally many. -/
theorem Tracks.card_eq {tables : List Table} {memtable : Table}
    {reference : Reference Bytes Bytes} (h : Tracks tables memtable reference) :
    reference.volatile.keys.card = memtable.size := by
  have hkeys : reference.volatile.keys = memtable.keys.toFinset := by
    ext key
    rw [Finmap.mem_keys, h.keys, List.mem_toFinset, Std.TreeMap.mem_keys]
  rw [hkeys, List.toFinset_card_of_nodup Std.TreeMap.nodup_keys, Std.TreeMap.length_keys]

/-- Assumes: a reference beside the store. The same key written to both keeps them together. -/
theorem Tracks.insert {tables : List Table} {memtable : Table} {reference : Reference Bytes Bytes}
    (h : Tracks tables memtable reference) (key value : Bytes) (mark : Option Bytes) :
    Tracks tables (memtable.insert key value)
      { reference with volatile := reference.volatile.insert key mark } where
  keys other := by
    rw [Finmap.mem_insert, h.keys, Std.TreeMap.mem_insert, Std.LawfulEqOrd.compare_eq_iff_eq,
      eq_comm]
  flushes := h.flushes

/-- A flush of both keeps them together. -/
theorem Tracks.flush {tables : List Table} {memtable : Table} {reference : Reference Bytes Bytes}
    (h : Tracks tables memtable reference) : Tracks (memtable :: tables) ∅ reference.flush where
  keys other := by
    simp [Reference.flush, Finmap.notMem_empty]
  flushes := by
    rw [Reference.flush, h.flushes, List.length_cons]

/-- The empty table has nothing that could not fit. -/
theorem tableFits_empty : TableFits ∅ := by
  intro entry hentry
  have hlookup := Std.TreeMap.mem_toList_iff_getElem?_eq_some.mp hentry
  rw [Std.TreeMap.getElem?_emptyc] at hlookup
  cases hlookup

/-- Inserting strings that fit into a table that fits. -/
theorem TableFits.insert {table : Table} (h : TableFits table) {key value : Bytes} (hkey : Fits key)
    (hvalue : Fits value) : TableFits (table.insert key value) := by
  intro entry hentry
  have hlookup := Std.TreeMap.mem_toList_iff_getElem?_eq_some.mp hentry
  rw [Std.TreeMap.getElem?_insert] at hlookup
  split_ifs at hlookup with hsame
  · rw [← Std.LawfulEqOrd.eq_of_compare hsame, ← Option.some.inj hlookup]
    exact ⟨hkey, hvalue⟩
  · exact h entry (Std.TreeMap.mem_toList_iff_getElem?_eq_some.mpr hlookup)

/-- Assumes: a reference that mirrors the store. A value written to the memtable and the mark it
stands for written to the reference keep it a mirror. -/
theorem Mirrors.insert {tables : List Table} {memtable : Table} {reference : Reference Bytes Bytes}
    (h : Mirrors tables memtable reference) {key value : Bytes} (hkey : Fits key)
    (hvalue : Fits value) :
    Mirrors tables (memtable.insert key value)
      { reference with volatile := reference.volatile.insert key (Store.answer value) } where
  volatile other := by
    by_cases hsame : other = key
    · rw [hsame, Finmap.lookup_insert, Std.TreeMap.getElem?_insert_self]
      rfl
    · rw [Finmap.lookup_insert_of_ne _ hsame, h.volatile, Std.TreeMap.getElem?_insert,
        if_neg (by simpa using Ne.symm hsame)]
  durable := h.durable
  fits := by
    intro table htable
    rcases List.mem_cons.mp htable with rfl | hold
    · exact (h.fits memtable List.mem_cons_self).insert hkey hvalue
    · exact h.fits table (List.mem_cons_of_mem _ hold)

/-- A flush of both keeps a mirror. -/
theorem Mirrors.flush {tables : List Table} {memtable : Table} {reference : Reference Bytes Bytes}
    (h : Mirrors tables memtable reference) : Mirrors (memtable :: tables) ∅ reference.flush where
  volatile other := by
    rw [Std.TreeMap.getElem?_emptyc]
    exact Finmap.lookup_empty other
  durable other := by
    rw [Reference.lookup_durable_flush, h.volatile, h.durable, newest, newest,
      List.findSome?_cons]
    cases memtable[other]? <;> rfl
  fits := by
    intro table htable
    rcases List.mem_cons.mp htable with rfl | hold
    · exact tableFits_empty
    · exact h.fits table hold

/-! ### Steps and runs -/

/-- The strings of an operation fit their length fields and no put value is the sentinel. -/
def Op.Admissible : Op → Prop
  | .put key value => Fits key ∧ Fits value ∧ value ≠ tombstone
  | .del key => Fits key
  | .restart => True

theorem fits_tombstone : Fits tombstone := by
  rw [tombstone_eq_nil, Fits, List.length_nil]
  decide

/-- Everything that ties a store to a reference after some history. -/
structure Refines (dataDir : Bytes) (tables : List Table) (store : Store)
    (reference : Reference Bytes Bytes) : Prop where
  represents : Represents dataDir tables store
  tracks : Tracks tables store.tree.memtable reference

/-- A successful put keeps the store beside a reference that writes any mark at the key. Where the
mark is the answer the value stands for, it keeps a mirror. -/
theorem Refines.put {dataDir : Bytes} {tables : List Table} {store : Store}
    {reference : Reference Bytes Bytes} (h : Refines dataDir tables store reference)
    (key value : Bytes) (mark : Option Bytes) :
    ∃ stack, Refines dataDir stack (store.put key value true) (reference.write key mark) ∧
      (Mirrors tables store.tree.memtable reference → Fits key → Fits value →
        mark = Store.answer value →
          Mirrors stack (store.put key value true).tree.memtable (reference.write key mark)) := by
  have htracks := h.tracks.insert key value mark
  have hsize := htracks.card_eq
  unfold Reference.write
  dsimp only at hsize ⊢
  rw [hsize]
  rcases Nat.lt_or_ge (store.tree.memtable.insert key value).size memtableFlushThreshold with
    hroom | hfull
  · rw [Store.put_of_lt hroom, if_neg (show ¬ 4 ≤ _ from not_le.mpr hroom)]
    refine ⟨tables, ⟨h.represents.setMemtable _, htracks⟩, ?_⟩
    rintro hmirrors hkey hvalue rfl
    exact hmirrors.insert hkey hvalue
  · rw [Store.put_of_le hfull, if_pos (show 4 ≤ _ from hfull)]
    refine ⟨_, ⟨(h.represents.setMemtable _).flush, htracks.flush⟩, ?_⟩
    rintro hmirrors hkey hvalue rfl
    exact (hmirrors.insert hkey hvalue).flush

/-- One operation of a history keeps the store beside its reference, and an admissible one keeps a
mirror. -/
theorem Refines.step {dataDir : Bytes} {tables : List Table} {store next : Store} {op : Op}
    {reference : Reference Bytes Bytes} (h : Refines dataDir tables store reference)
    (hstep : Step store op next) :
    ∃ stack, Refines dataDir stack next (reference.step op) ∧
      (Mirrors tables store.tree.memtable reference → op.Admissible →
        Mirrors stack next.tree.memtable (reference.step op)) := by
  cases hstep with
  | put key value =>
    obtain ⟨stack, hrefines, hmirrors⟩ := h.put key value (some value)
    refine ⟨stack, hrefines, fun hold hadmissible ↦ ?_⟩
    obtain ⟨hkey, hvalue, hsentinel⟩ := hadmissible
    exact hmirrors hold hkey hvalue (by rw [Store.answer, if_neg hsentinel])
  | del key =>
    obtain ⟨stack, hrefines, hmirrors⟩ := h.put key tombstone none
    refine ⟨stack, hrefines, fun hold hadmissible ↦ ?_⟩
    exact hmirrors hold hadmissible fits_tombstone (by rw [Store.answer, if_pos rfl])
  | restart listing hlisting =>
    refine ⟨tables, ⟨h.represents.restart hlisting, ⟨?_, h.tracks.flushes⟩⟩, fun hold _ ↦ ?_⟩
    · intro key
      exact iff_of_false Finmap.notMem_empty Std.TreeMap.not_mem_emptyc
    · refine ⟨fun key ↦ ?_, hold.durable, ?_⟩
      · show Finmap.lookup key ∅ = (∅ : Table)[key]?.map _
        rw [Std.TreeMap.getElem?_emptyc]
        exact Finmap.lookup_empty key
      · intro table htable
        rcases List.mem_cons.mp htable with rfl | hflushed
        · exact tableFits_empty
        · exact hold.fits table (List.mem_cons_of_mem _ hflushed)

/-- After every history the store is beside its reference, and after an admissible one the
reference is a mirror. -/
theorem refines_run {dataDir : Bytes} {history : List Op} {store : Store}
    (hrun : (histories dataDir).Run history store) :
    ∃ tables, Refines dataDir tables store (referenceAfter history) ∧
      ((∀ op ∈ history, op.Admissible) →
        Mirrors tables store.tree.memtable (referenceAfter history)) := by
  induction hrun with
  | start h =>
    have hmemtable : ∀ state, Fresh dataDir state → state.tree.memtable = ∅ := by
      rintro _ (_ | _) <;> rfl
    refine ⟨[], ⟨represents_fresh h, ?_⟩, fun _ ↦ ?_⟩
    · rw [hmemtable _ h]
      exact ⟨fun key ↦ iff_of_false Finmap.notMem_empty Std.TreeMap.not_mem_emptyc, rfl⟩
    · rw [hmemtable _ h]
      refine ⟨fun key ↦ ?_, fun key ↦ Finmap.lookup_empty key, ?_⟩
      · rw [Std.TreeMap.getElem?_emptyc]
        exact Finmap.lookup_empty key
      · intro table htable
        rw [List.mem_singleton.mp htable]
        exact tableFits_empty
  | @step history store next op _ hstep ih =>
    obtain ⟨tables, hrefines, hmirrors⟩ := ih
    obtain ⟨stack, hnext, hkeep⟩ := hrefines.step hstep
    rw [referenceAfter_append]
    refine ⟨stack, hnext, fun hadmissible ↦ hkeep (hmirrors fun other hother ↦ ?_) ?_⟩
    · exact hadmissible other (List.mem_append_left _ hother)
    · exact hadmissible op (List.mem_append_right _ (List.mem_singleton_self op))

/-! ### Lookups -/

/-- Scanning the tables in flush order, latest first, answers with the newest value of the key. -/
theorem scanTables_flushedPaths {store : Store} {tables : List Table} (key : Bytes) :
    Contents store.directory.files tables → (∀ table ∈ tables, TableFits table) →
      store.scanTables key (flushedPaths store.tree.dataDir tables.length) =
        ((newest tables key).map Store.answer).join := by
  induction tables with
  | nil => exact fun _ _ ↦ rfl
  | cons table older ih =>
    rintro ⟨hfile, holder⟩ hfits
    have hread : readSSTable store.directory store.tree.dataDir
        (sstablePath store.tree.dataDir older.length) =
          readEntries ⟨encodeTable table, false⟩ := by
      rw [readSSTable, sstablePath, DataDirectory.open?_pathOf, hfile]
    rw [List.length_cons, flushedPaths_succ, Store.scanTables, hread,
      scanTable_readEntries_encodeTable (hfits table List.mem_cons_self), newest,
      List.findSome?_cons]
    cases hkey : table[key]? with
    | some value => rfl
    | none => exact ih holder fun other hother ↦ hfits other (List.mem_cons_of_mem _ hother)

/-- Up to ten thousand flushes the path vector is in flush order, latest first. -/
theorem Represents.paths_eq_flushedPaths {dataDir : Bytes} {tables : List Table} {store : Store}
    (h : Represents dataDir tables store) (hcount : tables.length ≤ fourDigitFiles) :
    store.tree.sstablePaths = flushedPaths dataDir tables.length := by
  rw [h.paths_eq]
  exact sortNewestFirst_eq (List.Perm.refl _) (flushedPaths_pairwise hcount)

/-- A store beside a reference that mirrors it answers every key as the reference does, as long as
sorted order is flush order. -/
theorem Refines.get_eq {dataDir : Bytes} {tables : List Table} {store : Store}
    {reference : Reference Bytes Bytes} (h : Refines dataDir tables store reference)
    (hmirror : Mirrors tables store.tree.memtable reference)
    (hflushes : reference.flushes ≤ fourDigitFiles) (key : Bytes) :
    store.get key = reference.get key := by
  rw [h.tracks.flushes] at hflushes
  rw [Store.get, Reference.get, hmirror.volatile]
  cases hlookup : store.tree.memtable[key]? with
  | some value => rfl
  | none =>
    dsimp only
    rw [h.represents.paths_eq_flushedPaths hflushes, ← h.represents.dataDir_eq,
      scanTables_flushedPaths key h.represents.contents fun table htable ↦
        hmirror.fits table (List.mem_cons_of_mem _ htable), hmirror.durable]
    rfl

/-- After every admissible history of at most ten thousand flushes on a directory that starts empty,
`get` answers every key as the reference does. -/
theorem get_eq_reference {dataDir : Bytes} {history : List Op} {store : Store}
    (hrun : (histories dataDir).Run history store) (hadmissible : ∀ op ∈ history, op.Admissible)
    (hflushes : (referenceAfter history).flushes ≤ 10000) (key : Bytes) :
    store.get key = (referenceAfter history).get key := by
  obtain ⟨tables, hrefines, hmirrors⟩ := refines_run hrun
  exact hrefines.get_eq (hmirrors hadmissible) hflushes key

instance (string : Bytes) : Decidable (Fits string) :=
  inferInstanceAs (Decidable (string.length < 2 ^ 32))

instance (op : Op) : Decidable op.Admissible :=
  match op with
  | .put key value => inferInstanceAs (Decidable (Fits key ∧ Fits value ∧ value ≠ tombstone))
  | .del key => inferInstanceAs (Decidable (Fits key))
  | .restart => inferInstanceAs (Decidable True)

/-- Four writes that are flushed, an overwrite that is not, and a restart. -/
def lostOverwrite : List Op :=
  [.put [1] [7], .put [2] [8], .put [3] [9], .del [4], .put [1] [5], .restart]

/-- A flush, a lost overwrite and a restart: the flushed value is back. -/
theorem get_eq_reference_after_restart :
    (runListed [100] lostOverwrite).get [1] = (referenceAfter lostOverwrite).get [1] ∧
      (referenceAfter lostOverwrite).get [1] = some [7] :=
  ⟨get_eq_reference (run_runListed [100] lostOverwrite) (by decide) (by decide) [1], by decide⟩

end DailyChallenge.Lsm
