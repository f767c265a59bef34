import Mathlib
import DailyChallenge.Lsm.Numbering
import DailyChallenge.Lsm.Refinement

/-!
# Files that are not SSTables

The constructor lists and counts every entry of the directory, whatever its name. `Harmless` says
that the entries whose names do not end in `.sst` never change what a get returns, and
`harmless_iff` that they do unless there are none. One whose bytes read as a record answers gets by
itself (`not_harmless_decoded`). Any other still shifts the number of every flush, and after enough
flushes that decides which of two tables is scanned first: the store over the tables alone writes
its last two files on the two sides of a power of ten, where the order of the paths is not that of
the numbers, and the store over all files writes them past it (`Idle.overtaking`).
-/

set_option autoImplicit false
set_option relaxedAutoImplicit false

namespace DailyChallenge.Lsm

open Library

/-- The name ends in `.sst`. -/
def IsSSTable (name : Bytes) : Prop := [46, 115, 115, 116] <:+ name

/-- The sizes a process can meet: fewer files than the largest power of ten an `int` counts to, and
no file longer than an `off_t` counts. -/
structure WithinLimits (files : Std.TreeMap Bytes Bytes) : Prop where
  count : files.size < nineDigitFiles
  length : ∀ (name content : Bytes), files[name]? = some content → content.length < 2 ^ 63

/-- The foreign files never change what a get returns: constructed over them and the tables or over
the tables alone, the store answers alike after any puts and deletions. -/
def Harmless (dataDir : Bytes) (tables foreign : Std.TreeMap Bytes Bytes) : Prop :=
  ∀ store alone, Constructed dataDir (tables ∪ foreign) store → Constructed dataDir tables alone →
    ∀ events : List Event, (∀ event ∈ events, event.IsWrite) → ∀ key,
      (store.applyAll events).get key = (alone.applyAll events).get key

variable {dataDir key value : Bytes} {tables foreign files : Std.TreeMap Bytes Bytes}
  {store alone : Store} {count : ℕ}

/-! ### Stores that cannot be told apart -/

/-- The trees are the same and the directories have the same files. -/
structure Alike (store alone : Store) : Prop where
  tree_eq : store.tree = alone.tree
  files_eq : ∀ name : Bytes, store.directory.files[name]? = alone.directory.files[name]?

theorem Alike.readSSTable_eq (h : Alike store alone) (path : Bytes) :
    readSSTable store.directory store.tree.dataDir path =
      readSSTable alone.directory alone.tree.dataDir path := by
  have hopen : store.directory.open? store.tree.dataDir path =
      alone.directory.open? alone.tree.dataDir path := by
    rw [h.tree_eq]
    unfold DataDirectory.open?
    cases path.dropPrefix? (pathOf alone.tree.dataDir []) with
    | none => rfl
    | some name => exact h.files_eq name
  rw [readSSTable, hopen, readSSTable]

theorem Alike.get_eq (h : Alike store alone) (key : Bytes) : store.get key = alone.get key := by
  have hscan : ∀ paths, store.scanTables key paths = alone.scanTables key paths := by
    intro paths
    induction paths with
    | nil => rfl
    | cons path rest ih => rw [Store.scanTables, Store.scanTables, h.readSSTable_eq, ih]
  rw [Store.get, Store.get, hscan, h.tree_eq]

theorem Alike.flush (h : Alike store alone) (opened : Bool) :
    Alike (store.flush opened) (alone.flush opened) := by
  cases opened with
  | false =>
    refine ⟨?_, h.files_eq⟩
    show { store.tree with memtable := ∅ } = { alone.tree with memtable := ∅ }
    rw [h.tree_eq]
  | true =>
    rw [Store.flush_opened, Store.flush_opened, h.tree_eq]
    refine ⟨rfl, fun name ↦ ?_⟩
    rw [Std.TreeMap.getElem?_insert, Std.TreeMap.getElem?_insert, h.files_eq]

theorem Alike.put (h : Alike store alone) (key value : Bytes) (opened : Bool) :
    Alike (store.put key value opened) (alone.put key value opened) := by
  have hset : Alike (store.setMemtable key value) (alone.setMemtable key value) := by
    refine ⟨?_, h.files_eq⟩
    simp only [Store.setMemtable, h.tree_eq]
  have hmemtable : store.tree.memtable = alone.tree.memtable := congrArg _ h.tree_eq
  rcases Nat.lt_or_ge (alone.tree.memtable.insert key value).size memtableFlushThreshold with
    hroom | hfull
  · rw [Store.put_of_lt hroom, Store.put_of_lt (by rwa [hmemtable])]
    exact hset
  · rw [Store.put_of_le hfull, Store.put_of_le (by rwa [hmemtable])]
    exact hset.flush opened

theorem Alike.applyAll (h : Alike store alone) {events : List Event}
    (hwrites : ∀ event ∈ events, event.IsWrite) :
    Alike (store.applyAll events) (alone.applyAll events) := by
  induction events generalizing store alone with
  | nil => exact h
  | cons event rest ih =>
    obtain ⟨hevent, hrest⟩ := List.forall_mem_cons.mp hwrites
    refine ih ?_ hrest
    cases event with
    | put key value opened => exact h.put key value opened
    | del key opened => exact h.put key tombstone opened
    | restart listing => exact hevent.elim

/-- What a constructed tree is: its listing is some arrangement of the names, also where the
directory was just created. -/
theorem Constructed.listing (h : Constructed dataDir files store) :
    ∃ listing, listing.Perm files.keys ∧
      store = ⟨⟨files, []⟩, .new dataDir false listing⟩ := by
  cases h with
  | created hfiles =>
    subst hfiles
    exact ⟨[], List.Perm.refl _, rfl⟩
  | existing listing hlisting => exact ⟨listing, hlisting, rfl⟩

/-- Without foreign files the two stores start alike, however their directories are listed. -/
theorem alike_constructed (hempty : foreign.isEmpty)
    (hstore : Constructed dataDir (tables ∪ foreign) store)
    (halone : Constructed dataDir tables alone) : Alike store alone := by
  have hnone : ∀ name, name ∉ foreign := Std.TreeMap.isEmpty_iff_forall_not_mem.mp hempty
  obtain ⟨listing, hlisting, rfl⟩ := hstore.listing
  obtain ⟨listing', hlisting', rfl⟩ := halone.listing
  have hkeys : (tables ∪ foreign).keys.Perm tables.keys := by
    refine (List.perm_ext_iff_of_nodup Std.TreeMap.nodup_keys Std.TreeMap.nodup_keys).mpr ?_
    intro name
    rw [Std.TreeMap.mem_keys, Std.TreeMap.mem_keys, Std.TreeMap.mem_union_iff]
    exact or_iff_left (hnone name)
  have hsame : listing.Perm listing' := hlisting.trans (hkeys.trans hlisting'.symm)
  constructor
  case tree_eq =>
    show LSMTree.mk _ _ _ _ = LSMTree.mk _ _ _ _
    rw [hsame.length_eq, sortNewestFirst_congr (hsame.map _)]
  case files_eq =>
    intro name
    exact Std.TreeMap.getElem?_union_of_not_mem_right (hnone name)

theorem harmless_of_isEmpty (hempty : foreign.isEmpty) : Harmless dataDir tables foreign := by
  intro store alone hstore halone events hwrites key
  exact ((alike_constructed hempty hstore halone).applyAll hwrites).get_eq key

/-! ### Sessions that fill one table after the other -/

/-- What the table of a path answers for a key. -/
def Store.found (store : Store) (key path : Bytes) : Option (Option Bytes) :=
  Store.scanTable key (readSSTable store.directory store.tree.dataDir path)

/-- It is what the file of its name decodes to, if there is one. -/
theorem Store.found_pathOf (store : Store) (key name : Bytes) :
    store.found key (pathOf store.tree.dataDir name) =
      store.directory.files[name]?.bind fun content ↦
        Store.scanTable key (readEntries ⟨content, false⟩) := by
  rw [Store.found, readSSTable, DataDirectory.open?_pathOf]
  cases store.directory.files[name]? with
  | none => rfl
  | some content => rfl

/-- The scan of all tables stops at the first that answers. -/
theorem scanTables_eq_findSome? (store : Store) (key : Bytes) (paths : List Bytes) :
    store.scanTables key paths = (paths.findSome? (store.found key)).join := by
  induction paths with
  | nil => rfl
  | cons path rest ih =>
    rw [Store.scanTables, List.findSome?_cons, Store.found]
    cases Store.scanTable key (readSSTable store.directory store.tree.dataDir path) with
    | none => exact ih
    | some answer => rfl

/-- In a sorted list the answer found first is the one of the greatest path that has one. -/
theorem findSome?_eq_of_greatest {Answer : Type*} {paths : List Bytes}
    (hsorted : paths.Pairwise NotBelow) {answers : Bytes → Option Answer} {path : Bytes}
    {answer : Answer} (hmem : path ∈ paths) (hanswer : answers path = some answer)
    (hgreatest : ∀ other ∈ paths, answers other ≠ none → NotBelow path other) :
    paths.findSome? answers = some answer := by
  induction paths with
  | nil => cases hmem
  | cons first rest ih =>
    obtain ⟨hfirst, hrest⟩ := List.pairwise_cons.mp hsorted
    rw [List.findSome?_cons]
    cases hcase : answers first with
    | none =>
      have hne : path ≠ first := by
        rintro rfl
        rw [hanswer] at hcase
        cases hcase
      exact ih hrest (List.mem_of_ne_of_mem hne hmem) fun other hother ↦
        hgreatest other (List.mem_cons_of_mem _ hother)
    | some found =>
      have hsame : path = first := by
        rcases List.mem_cons.mp hmem with heq | hlater
        · exact heq
        · refine Std.Antisymm.antisymm (r := NotBelow) _ _ ?_ (hfirst path hlater)
          exact hgreatest first List.mem_cons_self (by simp [hcase])
      rw [← hsame, hanswer] at hcase
      exact hcase.symm

/-- Four puts that fill the memtable: a key with its value, and three longer keys. -/
def round (key value : Bytes) : List Event :=
  [.put key value true, .put (1 :: key) [] true, .put (2 :: key) [] true, .put (3 :: key) [] true]

/-- The table they flush. -/
def roundTable (key value : Bytes) : Std.TreeMap Bytes Bytes :=
  ((((∅ : Std.TreeMap Bytes Bytes).insert key value).insert (1 :: key) []).insert (2 :: key)
    []).insert (3 :: key) []

theorem tableFits_roundTable (hkey : key.length + 1 < 2 ^ 32) (hvalue : Fits value) :
    TableFits (roundTable key value) := by
  have hlonger : ∀ byte, Fits (byte :: key) := fun _ ↦ hkey
  have hshort : Fits key := (Nat.lt_succ_self _).trans hkey
  exact (((tableFits_empty.insert hshort hvalue).insert (hlonger 1) fits_tombstone).insert
    (hlonger 2) fits_tombstone).insert (hlonger 3) fits_tombstone

/-- The table has its key. -/
theorem getElem?_roundTable_self : (roundTable key value)[key]? = some value := by
  simp only [roundTable, Std.TreeMap.getElem?_insert, Std.LawfulEqOrd.compare_eq_iff_eq,
    List.cons_ne_self, if_false, if_true]

/-- The table of a longer key does not have the key. -/
theorem getElem?_roundTable_cons (byte : UInt8) :
    (roundTable (byte :: key) value)[key]? = none := by
  have hne : ∀ other, other :: byte :: key ≠ key := by
    intro other h
    have hlength := congrArg List.length h
    rw [List.length_cons, List.length_cons] at hlength
    omega
  simp only [roundTable, Std.TreeMap.getElem?_insert, Std.LawfulEqOrd.compare_eq_iff_eq, hne,
    List.cons_ne_self, if_false, Std.TreeMap.getElem?_emptyc]

/-- The store with another memtable. -/
def Store.withMemtable (store : Store) (table : Std.TreeMap Bytes Bytes) : Store :=
  { store with tree := { store.tree with memtable := table } }

variable {table : Std.TreeMap Bytes Bytes} {opened : Bool}

/-- A put that leaves room. -/
theorem put_withMemtable_of_lt (h : (table.insert key value).size < memtableFlushThreshold) :
    (store.withMemtable table).put key value opened =
      store.withMemtable (table.insert key value) :=
  Store.put_of_lt h

/-- A put that fills the memtable. -/
theorem put_withMemtable_of_le (h : memtableFlushThreshold ≤ (table.insert key value).size) :
    (store.withMemtable table).put key value opened =
      (store.withMemtable (table.insert key value)).flush opened :=
  Store.put_of_le h

/-- Four puts on an empty memtable are one flush. -/
theorem applyAll_round (hempty : store.tree.memtable = ∅) :
    store.applyAll (round key value) = (store.withMemtable (roundTable key value)).flush true := by
  have hone : ((∅ : Std.TreeMap Bytes Bytes).insert key value).size < memtableFlushThreshold := by
    simp [Std.TreeMap.size_insert, memtableFlushThreshold]
  have htwo : (((∅ : Std.TreeMap Bytes Bytes).insert key value).insert (1 :: key) []).size <
      memtableFlushThreshold := by
    simp [Std.TreeMap.size_insert, memtableFlushThreshold]
  have hthree : ((((∅ : Std.TreeMap Bytes Bytes).insert key value).insert (1 :: key) []).insert
      (2 :: key) []).size < memtableFlushThreshold := by
    simp [Std.TreeMap.size_insert, memtableFlushThreshold]
  have hfour : memtableFlushThreshold ≤ (roundTable key value).size := by
    simp [roundTable, Std.TreeMap.size_insert, memtableFlushThreshold]
  have hfirst : store.put key value true =
      store.withMemtable ((∅ : Std.TreeMap Bytes Bytes).insert key value) := by
    have hstore : store.withMemtable ∅ = store := by
      rw [Store.withMemtable, ← hempty]
    rw [← put_withMemtable_of_lt hone, hstore]
  have hputs : store.applyAll (round key value) =
      (((store.put key value true).put (1 :: key) [] true).put (2 :: key) [] true).put (3 :: key) []
        true := by
    simp only [Store.applyAll, round, List.foldl_cons, List.foldl_nil, Store.apply]
  rw [hputs, hfirst, put_withMemtable_of_lt htwo, put_withMemtable_of_lt hthree,
    put_withMemtable_of_le hfour, roundTable]

/-- A session between two flushes: the memtable is empty, the next file has the given number, and
the files of each name answer for one key as given. -/
structure Idle (dataDir key : Bytes) (count : ℕ) (answers : Bytes → Option (Option Bytes))
    (store : Store) : Prop where
  memtable_eq : store.tree.memtable = ∅
  dataDir_eq : store.tree.dataDir = dataDir
  count_eq : store.tree.sstableCount = count
  sorted : store.tree.sstablePaths.Pairwise NotBelow
  named : ∀ path ∈ store.tree.sstablePaths, ∃ name, pathOf dataDir name = path
  listed : ∀ name, answers name ≠ none → pathOf dataDir name ∈ store.tree.sstablePaths
  found : ∀ name, store.found key (pathOf dataDir name) = answers name

variable {answers : Bytes → Option (Option Bytes)}

/-- Where two files have the key, a get answers from the one with the greater path. -/
theorem Idle.get_eq (h : Idle dataDir key count answers store) {name other : Bytes}
    {answer : Option Bytes} (hanswer : answers name = some answer)
    (hnone : ∀ third, third ≠ name → third ≠ other → answers third = none)
    (hgreater : NotBelow (pathOf dataDir name) (pathOf dataDir other)) :
    store.get key = answer := by
  have hfind : store.tree.sstablePaths.findSome? (store.found key) = some answer := by
    have hlisted : pathOf dataDir name ∈ store.tree.sstablePaths :=
      h.listed name (by simp [hanswer])
    refine findSome?_eq_of_greatest h.sorted hlisted ?_ ?_
    · rw [h.found, hanswer]
    · intro path hpath hfound
      obtain ⟨third, rfl⟩ := h.named path hpath
      rw [h.found] at hfound
      by_cases hname : third = name
      · rw [hname]
        exact or_self_iff.mp (Std.Total.total (r := NotBelow) _ _)
      · by_cases hother : third = other
        · rw [hother]
          exact hgreater
        · exact absurd (hnone third hname hother) hfound
  rw [Store.get, h.memtable_eq, Std.TreeMap.getElem?_emptyc]
  show store.scanTables key store.tree.sstablePaths = answer
  rw [scanTables_eq_findSome?, hfind, Option.join_some]

/-- A round writes one file, under the next number. -/
theorem Idle.round (h : Idle dataDir key count answers store) {other : Bytes}
    (hfits : TableFits (roundTable other value)) :
    Idle dataDir key (count + 1) (Function.update answers (sstableName count)
      ((roundTable other value)[key]?.map Store.answer)) (store.applyAll (round other value)) := by
  obtain ⟨hmemtable, rfl, rfl, hsorted, hnamed, hlisted, hfound⟩ := h
  have hround : store.applyAll (Lsm.round other value) =
      ⟨⟨store.directory.files.insert (sstableName store.tree.sstableCount)
          (encodeTable (roundTable other value)), _⟩,
        ⟨∅, store.tree.dataDir, store.tree.sstableCount + 1, sortNewestFirst _⟩⟩ :=
    (applyAll_round hmemtable).trans (Store.flush_opened _)
  rw [hround]
  constructor
  case memtable_eq => rfl
  case dataDir_eq => rfl
  case count_eq => rfl
  case sorted => exact sortNewestFirst_pairwise _
  case named =>
    intro path hpath
    rw [(sortNewestFirst_perm _).mem_iff, List.mem_append, List.mem_singleton] at hpath
    rcases hpath with hold | rfl
    · exact hnamed path hold
    · exact ⟨_, rfl⟩
  case listed =>
    intro name hname
    rw [(sortNewestFirst_perm _).mem_iff, List.mem_append, List.mem_singleton]
    by_cases hsame : name = sstableName store.tree.sstableCount
    · exact Or.inr (congrArg _ hsame)
    · rw [Function.update_of_ne hsame] at hname
      exact Or.inl (hlisted name hname)
  case found =>
    intro name
    refine (Store.found_pathOf ..).trans ?_
    rw [Std.TreeMap.getElem?_insert]
    by_cases hsame : name = sstableName store.tree.sstableCount
    · rw [hsame, if_pos Std.ReflCmp.compare_self, Function.update_self]
      exact scanTable_readEntries_encodeTable hfits key
    · have hother : compare (sstableName store.tree.sstableCount) name ≠ .eq := fun heq ↦
        hsame (Std.LawfulEqOrd.eq_of_compare heq).symm
      rw [if_neg hother, Function.update_of_ne hsame, ← hfound, Store.found_pathOf]

/-- Rounds whose keys are longer leave the key without an answer. -/
theorem Idle.rounds (h : Idle dataDir key count (fun _ ↦ none) store)
    (hkey : key.length + 2 < 2 ^ 32) (rounds : ℕ) :
    Idle dataDir key (count + rounds) (fun _ ↦ none)
      (store.applyAll (List.replicate rounds (Lsm.round (0 :: key) [])).flatten) := by
  induction rounds generalizing count store with
  | zero => exact h
  | succ rounds ih =>
    have hfits : TableFits (roundTable (0 :: key) []) := tableFits_roundTable hkey fits_tombstone
    have hfirst := h.round hfits
    rw [getElem?_roundTable_cons, Option.map_none, Function.update_eq_self] at hfirst
    have hrest := ih hfirst
    rw [List.replicate_succ, List.flatten_cons, Store.applyAll, List.foldl_append]
    rw [add_assoc, add_comm 1] at hrest
    exact hrest

/-- Rounds without a key, and then two that write it. -/
def overtaking (key : Bytes) (rounds : ℕ) : List Event :=
  (List.replicate rounds (round (0 :: key) [])).flatten ++ round key [1] ++ round key [2]

theorem isWrite_overtaking (key : Bytes) (rounds : ℕ) :
    ∀ event ∈ overtaking key rounds, event.IsWrite := by
  have hround : ∀ other value, ∀ event ∈ round other value, event.IsWrite := by
    intro other value event hevent
    simp only [round, List.mem_cons, List.not_mem_nil, or_false] at hevent
    obtain rfl | rfl | rfl | rfl := hevent <;> trivial
  intro event hevent
  rcases List.mem_append.mp hevent with hbefore | hlast
  · rcases List.mem_append.mp hbefore with hfiller | hfirst
    · obtain ⟨events, hevents, hmem⟩ := List.mem_flatten.mp hfiller
      rw [(List.mem_replicate.mp hevents).2] at hmem
      exact hround _ _ event hmem
    · exact hround _ _ event hfirst
  · exact hround _ _ event hlast

/-- After them exactly the last two files have the key. -/
theorem Idle.overtaking (h : Idle dataDir key count (fun _ ↦ none) store)
    (hkey : key.length + 2 < 2 ^ 32) (rounds : ℕ) :
    Idle dataDir key (count + rounds + 2)
      (Function.update (Function.update (fun _ ↦ none) (sstableName (count + rounds))
        (some (some [1]))) (sstableName (count + rounds + 1)) (some (some [2])))
      (store.applyAll (Lsm.overtaking key rounds)) := by
  have hfits : ∀ value, Fits value → TableFits (roundTable key value) := fun value hvalue ↦
    tableFits_roundTable ((Nat.lt_succ_self _).trans hkey) hvalue
  have hlast := ((h.rounds hkey rounds).round (hfits [1] (by unfold Fits; decide))).round
    (hfits [2] (by unfold Fits; decide))
  rw [getElem?_roundTable_self, getElem?_roundTable_self] at hlast
  rw [Lsm.overtaking, Store.applyAll, List.foldl_append, List.foldl_append]
  exact hlast

/-- Whichever of the two has the greater path answers. -/
theorem Idle.get_overtaking (h : Idle dataDir key count (fun _ ↦ none) store)
    (hkey : key.length + 2 < 2 ^ 32) (rounds : ℕ) :
    (store.applyAll (Lsm.overtaking key rounds)).get key =
      if compare (sstablePath dataDir (count + rounds)) (sstablePath dataDir (count + rounds + 1)) =
        .gt then some [1] else some [2] := by
  have hlast := h.overtaking hkey rounds
  have hnames : sstableName (count + rounds) ≠ sstableName (count + rounds + 1) := fun hsame ↦
    absurd (sstableName_injective hsame) (Nat.lt_succ_self _).ne
  split_ifs with hgreater
  · have hover : NotBelow (pathOf dataDir (sstableName (count + rounds)))
        (pathOf dataDir (sstableName (count + rounds + 1))) := by
      unfold NotBelow
      rw [← sstablePath, ← sstablePath, hgreater]
      rfl
    refine hlast.get_eq ((Function.update_of_ne hnames ..).trans (Function.update_self ..)) ?_ hover
    intro third hfirst hsecond
    rw [Function.update_of_ne hsecond, Function.update_of_ne hfirst]
  · have hover : NotBelow (pathOf dataDir (sstableName (count + rounds + 1)))
        (pathOf dataDir (sstableName (count + rounds))) := by
      unfold NotBelow
      rw [Std.OrientedCmp.isGE_iff_isLE]
      exact Ordering.isLE_iff_ne_gt.mpr hgreater
    refine hlast.get_eq (Function.update_self ..) ?_ hover
    intro third hsecond hfirst
    rw [Function.update_of_ne hsecond, Function.update_of_ne hfirst]

/-! ### A key no file records -/

/-- The keys of all records that the files decode to. -/
def recordedKeys (files : Std.TreeMap Bytes Bytes) : List Bytes :=
  files.toList.flatMap fun file ↦ (readEntries ⟨file.2, false⟩).map SSTableEntry.key

/-- Every record takes at least one byte. -/
theorem length_readEntries_le (stream : InputStream) :
    (readEntries stream).length ≤ stream.unread.length := by
  fun_induction readEntries stream with
  | case1 => exact Nat.zero_le _
  | case2 => exact Nat.zero_le _
  | case3 stream hfail entry next hrecord ih =>
    rw [List.length_cons]
    exact ih.trans_lt (length_readRecord_lt hrecord)

theorem length_recordedKeys_lt (h : WithinLimits files) :
    (recordedKeys files).length < 256 ^ 12 := by
  have hlengths : ∀ length ∈ files.toList.map
      (fun file ↦ ((readEntries ⟨file.2, false⟩).map SSTableEntry.key).length),
        length ≤ 2 ^ 63 := by
    intro length hmem
    obtain ⟨file, hfile, rfl⟩ := List.mem_map.mp hmem
    rw [List.length_map]
    exact (length_readEntries_le _).trans (h.length file.1 file.2
      (Std.TreeMap.mem_toList_iff_getElem?_eq_some.mp hfile)).le
  have hsum := List.sum_le_card_nsmul _ _ hlengths
  rw [List.length_map, Std.TreeMap.length_toList, smul_eq_mul] at hsum
  rw [recordedKeys, List.length_flatMap]
  have hcount : files.size < 10 ^ 9 := h.count
  omega

/-- No record that does not have the key answers for it. -/
theorem scanTable_eq_none {entries : List SSTableEntry}
    (h : key ∉ entries.map SSTableEntry.key) : Store.scanTable key entries = none := by
  rw [scanTable_eq_find?, Option.map_eq_none_iff, List.find?_eq_none]
  intro entry hentry hsame
  exact h (List.mem_map.mpr ⟨entry, hentry, (of_decide_eq_true hsame).symm⟩)

/-- Some key of twelve bytes is in no record, since there are more of these than records. -/
theorem exists_fresh (h : WithinLimits files) :
    ∃ key : Bytes, key.length = 12 ∧ ∀ (name content : Bytes), files[name]? = some content →
      Store.scanTable key (readEntries ⟨content, false⟩) = none := by
  have hcard : (recordedKeys files).toFinset.card <
      ((Finset.range (256 ^ 12)).image (littleEndian 12)).card := by
    rw [Finset.card_image_of_injOn, Finset.card_range]
    · exact (List.toFinset_card_le _).trans_lt (length_recordedKeys_lt h)
    · intro first hfirst second hsecond hsame
      rw [Finset.coe_range, Set.mem_Iio] at hfirst hsecond
      rw [← ofLittleEndian_littleEndian_of_lt hfirst, hsame,
        ofLittleEndian_littleEndian_of_lt hsecond]
  obtain ⟨key, hkey, hfresh⟩ := Finset.exists_mem_notMem_of_card_lt_card hcard
  obtain ⟨number, -, rfl⟩ := Finset.mem_image.mp hkey
  refine ⟨littleEndian 12 number, length_littleEndian 12 number, ?_⟩
  intro name content hcontent
  apply scanTable_eq_none
  intro hrecorded
  rw [List.mem_toFinset] at hfresh
  exact hfresh (List.mem_flatMap.mpr
    ⟨(name, content), Std.TreeMap.mem_toList_iff_getElem?_eq_some.mpr hcontent, hrecorded⟩)

/-- Just constructed, the store answers nothing for such a key. -/
theorem idle_constructed (h : Constructed dataDir files store)
    (hfresh : ∀ (name content : Bytes), files[name]? = some content →
      Store.scanTable key (readEntries ⟨content, false⟩) = none) :
    Idle dataDir key files.size (fun _ ↦ none) store := by
  obtain ⟨listing, hlisting, rfl⟩ := h.listing
  constructor
  case memtable_eq => rfl
  case dataDir_eq => rfl
  case count_eq => exact hlisting.length_eq.trans Std.TreeMap.length_keys
  case sorted => exact sortNewestFirst_pairwise _
  case named =>
    intro path hpath
    obtain ⟨name, -, rfl⟩ := List.mem_map.mp ((sortNewestFirst_perm _).mem_iff.mp hpath)
    exact ⟨name, rfl⟩
  case listed => exact fun name hname ↦ absurd rfl hname
  case found =>
    intro name
    refine (Store.found_pathOf ..).trans ?_
    exact Option.bind_eq_none_iff.mpr (hfresh name)

/-! ### No foreign file is harmless -/

/-- The store over the tables alone ends on files `10 ^ 9 - 1` and `10 ^ 9`, whose paths are not in
the order of their numbers. The one over all files numbers the same two flushes later. -/
theorem not_harmless (hdisjoint : ∀ name ∈ tables, name ∉ foreign) (hsome : 0 < foreign.size)
    (hlimits : WithinLimits (tables ∪ foreign)) : ¬ Harmless dataDir tables foreign := by
  intro hharmless
  have hcount : tables.size + foreign.size < nineDigitFiles := by
    rw [← Std.TreeMap.size_union_of_not_mem hdisjoint]
    exact hlimits.count
  obtain ⟨key, hlength, hfresh⟩ := exists_fresh hlimits
  have hshort : key.length + 2 < 2 ^ 32 := by
    rw [hlength]
    decide
  have hfresh' : ∀ (name content : Bytes), tables[name]? = some content →
      Store.scanTable key (readEntries ⟨content, false⟩) = none := by
    intro name content hcontent
    have hmem : name ∈ tables :=
      Std.TreeMap.mem_iff_isSome_getElem?.mpr (by rw [hcontent]; rfl)
    refine hfresh name content ?_
    rw [Std.TreeMap.getElem?_union_of_not_mem_right (hdisjoint name hmem), hcontent]
  have hstore : Constructed dataDir (tables ∪ foreign) _ := .existing _ (List.Perm.refl _)
  have halone : Constructed dataDir tables _ := .existing _ (List.Perm.refl _)
  have hsame := hharmless _ _ hstore halone
    (overtaking key (nineDigitFiles - 1 - tables.size)) (isWrite_overtaking key _) key
  rw [(idle_constructed hstore hfresh).get_overtaking hshort,
    (idle_constructed halone hfresh').get_overtaking hshort,
    Std.TreeMap.size_union_of_not_mem hdisjoint] at hsame
  have hlast : tables.size + (nineDigitFiles - 1 - tables.size) = nineDigitFiles - 1 := by omega
  have hpositive : nineDigitFiles - 1 + 1 = nineDigitFiles := rfl
  have hlater : tables.size + foreign.size + (nineDigitFiles - 1 - tables.size) =
      nineDigitFiles - 1 + foreign.size := by omega
  have horder : compare (sstablePath dataDir (nineDigitFiles - 1 + foreign.size))
      (sstablePath dataDir (nineDigitFiles - 1 + foreign.size + 1)) = .lt := by
    rw [compare_sstablePath_tenDigits dataDir (by omega) (by omega) (by omega) (by omega),
      Nat.compare_eq_lt]
    exact Nat.lt_succ_self _
  rw [hlast, hlater, hpositive, compare_sstablePath_nineDigits, horder] at hsame
  exact absurd hsame (by decide)

/-- The foreign files beside the tables are harmless exactly when there are none. -/
theorem harmless_iff (htables : ∀ name ∈ tables, IsSSTable name)
    (hforeign : ∀ name ∈ foreign, ¬ IsSSTable name) (hlimits : WithinLimits (tables ∪ foreign)) :
    Harmless dataDir tables foreign ↔ foreign.isEmpty := by
  constructor
  · intro hharmless
    rw [Std.TreeMap.isEmpty_eq_size_eq_zero, beq_iff_eq]
    by_contra hsome
    refine not_harmless ?_ (Nat.pos_of_ne_zero hsome) hlimits hharmless
    exact fun name htable hmem ↦ hforeign name hmem (htables name htable)
  · exact harmless_of_isEmpty

/-- The table whose path is first in the vector answers. -/
theorem get_of_first (hmemtable : store.tree.memtable = ∅) {path content : Bytes}
    {rest : List Bytes} (hpaths : store.tree.sstablePaths = path :: rest)
    (hopen : store.directory.open? store.tree.dataDir path = some content) {answer : Option Bytes}
    (hscan : Store.scanTable key (readEntries ⟨content, false⟩) = some answer) :
    store.get key = answer := by
  rw [Store.get, hmemtable, Std.TreeMap.getElem?_emptyc]
  show store.scanTables key store.tree.sstablePaths = answer
  have htable : readSSTable store.directory store.tree.dataDir path =
      readEntries ⟨content, false⟩ := by
    rw [readSSTable, hopen]
  rw [hpaths, Store.scanTables, htable, hscan]

/-- A directory of one file, with one record of the key `[1]`. -/
def oneRecord (name value : Bytes) : Std.TreeMap Bytes Bytes :=
  (∅ : Std.TreeMap Bytes Bytes).insert name
    (encodeTable ((∅ : Std.TreeMap Bytes Bytes).insert [1] value))

/-- The first table, and beside it a file named `z`. -/
theorem isSSTable_first : ∀ name ∈ oneRecord (sstableName 0) [7], IsSSTable name := by
  intro name hname
  rw [oneRecord, Std.TreeMap.mem_insert] at hname
  rcases hname with hsame | hempty
  · rw [← Std.LawfulEqOrd.eq_of_compare hsame]
    exact List.suffix_append _ _
  · exact absurd hempty Std.TreeMap.not_mem_emptyc

theorem not_isSSTable_foreign : ∀ name ∈ oneRecord [122] [9], ¬ IsSSTable name := by
  intro name hname
  rw [oneRecord, Std.TreeMap.mem_insert] at hname
  rcases hname with hsame | hempty
  · rw [← Std.LawfulEqOrd.eq_of_compare hsame]
    exact fun hsuffix ↦ absurd hsuffix.length_le (by decide)
  · exact absurd hempty Std.TreeMap.not_mem_emptyc

/-- The theorem at these files. -/
theorem harmless_iff_oneRecord :
    Harmless [100] (oneRecord (sstableName 0) [7]) (oneRecord [122] [9]) ↔
      (oneRecord [122] [9]).isEmpty := by
  refine harmless_iff isSSTable_first not_isSSTable_foreign ⟨by decide, ?_⟩
  have hlengths : ∀ file ∈ (oneRecord (sstableName 0) [7] ∪ oneRecord [122] [9]).toList,
      file.2.length < 2 ^ 63 := by decide
  intro name content hcontent
  exact hlengths _ (Std.TreeMap.mem_toList_iff_getElem?_eq_some.mpr hcontent)

/-- The store constructed over some files, listed in name order. -/
def overFiles (files : Std.TreeMap Bytes Bytes) : Store :=
  ⟨⟨files, []⟩, .new [100] false files.keys⟩

/-- The record of the file `z` is found before that of the table. -/
theorem not_harmless_decoded :
    (∀ name ∈ oneRecord (sstableName 0) [7], IsSSTable name) ∧
      (∀ name ∈ oneRecord [122] [9], ¬ IsSSTable name) ∧
      ¬ Harmless [100] (oneRecord (sstableName 0) [7]) (oneRecord [122] [9]) := by
  refine ⟨isSSTable_first, not_isSSTable_foreign, fun hharmless ↦ ?_⟩
  have hanswer : ∀ byte, Store.scanTable [1] (readEntries
      ⟨encodeTable ((∅ : Std.TreeMap Bytes Bytes).insert [1] [byte]), false⟩) =
        some (some [byte]) := by
    intro byte
    have hfits : TableFits ((∅ : Std.TreeMap Bytes Bytes).insert [1] [byte]) :=
      tableFits_empty.insert (show 1 < 2 ^ 32 by decide) (show 1 < 2 ^ 32 by decide)
    rw [scanTable_readEntries_encodeTable hfits, Std.TreeMap.getElem?_insert_self]
    rfl
  have hpaths :
      (overFiles (oneRecord (sstableName 0) [7] ∪ oneRecord [122] [9])).tree.sstablePaths =
        [pathOf [100] [122], pathOf [100] (sstableName 0)] := by decide
  have hopen : (oneRecord (sstableName 0) [7] ∪ oneRecord [122] [9])[([122] : Bytes)]? =
      some (encodeTable ((∅ : Std.TreeMap Bytes Bytes).insert [1] [9])) := by decide
  have hbeside : (overFiles (oneRecord (sstableName 0) [7] ∪ oneRecord [122] [9])).get [1] =
      some [9] :=
    get_of_first rfl hpaths ((DataDirectory.open?_pathOf ..).trans hopen) (hanswer 9)
  have halone : (overFiles (oneRecord (sstableName 0) [7])).get [1] = some [7] :=
    get_of_first rfl (show _ = pathOf [100] (sstableName 0) :: [] from rfl)
      ((DataDirectory.open?_pathOf ..).trans Std.TreeMap.getElem?_insert_self) (hanswer 7)
  have hsame := hharmless _ _ (.existing _ (List.Perm.refl _)) (.existing _ (List.Perm.refl _)) []
    (fun event hevent ↦ absurd hevent List.not_mem_nil) [1]
  rw [overFiles] at hbeside halone
  rw [Store.applyAll, Store.applyAll, List.foldl_nil, List.foldl_nil, hbeside, halone] at hsame
  exact absurd hsame (by decide)

end DailyChallenge.Lsm
