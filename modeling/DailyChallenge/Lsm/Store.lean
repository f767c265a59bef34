import Mathlib
import DailyChallenge.Library.ByteCodec
import DailyChallenge.Library.PaddedNumeral
import DailyChallenge.Library.Runs

/-!
# The LSM store

`08-LSM_tree/main.cpp` as state passing over a directory of files. A `std::string` is a list of
bytes, compared byte by byte as unsigned values, and a `std::map` is an ordered tree over that
comparison. An `std::ifstream` is the unread part of a file with the stream's fail flag
(`InputStream`), so that the reader's tests of the stream come where the source has them.

The directory keeps beside its files the list of paths that were opened for writing. The program
never reads that list: it is the record of the order in which tables were flushed.

Two outcomes of the environment are arguments: whether the output file of a flush could be opened,
and the order in which `directory_iterator` lists the directory.
-/

set_option autoImplicit false
set_option relaxedAutoImplicit false

namespace DailyChallenge.Lsm

open Library

/-! ### Strings and constants -/

/-- The `std::string` built from a `const char *`: the bytes before the first NUL. -/
def stringOfLiteral (literal : Bytes) : Bytes := literal.takeWhile (· ≠ 0)

/-- The bytes of the literal `"\x00TOMBSTONE\x00"`. -/
def tombstoneLiteral : Bytes := [0, 84, 79, 77, 66, 83, 84, 79, 78, 69, 0]

/-- `TOMBSTONE`, a `std::string` initialised from the literal. -/
def tombstone : Bytes := stringOfLiteral tombstoneLiteral

/-- The literal starts with a NUL, so the sentinel is the empty string. -/
theorem tombstone_eq_nil : tombstone = [] := rfl

/-- `MEMTABLE_FLUSH_THRESHOLD`. -/
def memtableFlushThreshold : ℕ := 4

/-! ### File names -/

/-- `dataDir_ + "/" + name`. -/
def pathOf (dataDir name : Bytes) : Bytes := dataDir ++ 47 :: name

/-- An `int` streamed through `std::setw(4) << std::setfill('0')`. -/
def paddedCount (count : ℕ) : Bytes := (padded 10 4 count).map fun digit ↦ UInt8.ofNat (48 + digit)

/-- The file name of flush number `count`, `"sstable_" + padded count + ".sst"`. -/
def sstableName (count : ℕ) : Bytes :=
  [115, 115, 116, 97, 98, 108, 101, 95] ++ paddedCount count ++ [46, 115, 115, 116]

/-! ### Files -/

/-- A record of an SSTable. -/
structure SSTableEntry where
  key : Bytes
  value : Bytes
deriving DecidableEq, Repr

/-- The data directory: its files by name, and the paths opened for writing, latest first. -/
structure DataDirectory where
  files : Std.TreeMap Bytes Bytes
  written : List Bytes

/-- An existing directory with no file in it. -/
def DataDirectory.empty : DataDirectory := ⟨∅, []⟩

/-- The content of the file at a path, if there is such a file in the directory. -/
def DataDirectory.open? (directory : DataDirectory) (dataDir path : Bytes) : Option Bytes :=
  match path.dropPrefix? (pathOf dataDir []) with
  | some name => directory.files[name]?
  | none => none

/-- Opening a path for output truncates the file; the bytes are what is then written to it. -/
def DataDirectory.write (directory : DataDirectory) (dataDir path content : Bytes) :
    DataDirectory :=
  match path.dropPrefix? (pathOf dataDir []) with
  | some name => ⟨directory.files.insert name content, path :: directory.written⟩
  | none => directory

/-- An input stream: the bytes not yet read, and the fail flag that `operator bool` tests. -/
structure InputStream where
  unread : Bytes
  fail : Bool

/-- `file.read(target, target.size())`: on a failed stream nothing happens, and a short read
fills the front of the target, leaves the rest of it, and fails. -/
def InputStream.read (stream : InputStream) (target : Bytes) : Bytes × InputStream :=
  if stream.fail then (target, stream)
  else if target.length ≤ stream.unread.length then
    (stream.unread.take target.length, ⟨stream.unread.drop target.length, false⟩)
  else (stream.unread ++ target.drop stream.unread.length, ⟨[], true⟩)

theorem InputStream.length_read_le (stream : InputStream) (target : Bytes) :
    (stream.read target).2.unread.length ≤ stream.unread.length := by
  unfold read
  split_ifs <;> simp

theorem InputStream.length_read_of_ok {stream : InputStream} {target : Bytes}
    (h : (stream.read target).2.fail = false) :
    (stream.read target).2.unread.length + target.length ≤ stream.unread.length := by
  unfold read at h ⊢
  split_ifs at h ⊢ with hfail hlong
  · simp [hfail] at h
  · simp only [List.length_drop]
    omega

/-- One pass through the body of the `while` loop of `readSSTable`, or `none` where it breaks. -/
def readRecord (file : InputStream) : Option (SSTableEntry × InputStream) :=
  let (keyLen, file) := file.read (List.replicate 4 0)
  if file.fail then none
  else
    let (key, file) := file.read (List.replicate (ofLittleEndian keyLen) 0)
    let (valLen, file) := file.read (List.replicate 4 0)
    if file.fail then none
    else
      let (val, file) := file.read (List.replicate (ofLittleEndian valLen) 0)
      some (⟨key, val⟩, file)

/-- A pass that does not break has read the four bytes of the key length. -/
theorem length_readRecord_lt {file next : InputStream} {entry : SSTableEntry}
    (h : readRecord file = some (entry, next)) : next.unread.length < file.unread.length := by
  unfold readRecord at h
  dsimp only at h
  split_ifs at h with hkey hval
  have hlen := InputStream.length_read_of_ok (Bool.eq_false_iff.mpr hkey)
  obtain ⟨-, rfl⟩ := Prod.mk.inj (Option.some.inj h)
  refine lt_of_le_of_lt (InputStream.length_read_le _ _) ?_
  refine lt_of_le_of_lt (InputStream.length_read_le _ _) ?_
  refine lt_of_le_of_lt (InputStream.length_read_le _ _) ?_
  rw [List.length_replicate] at hlen
  omega

/-- The `while (file)` loop of `readSSTable`. -/
def readEntries (file : InputStream) : List SSTableEntry :=
  if file.fail then []
  else
    match _h : readRecord file with
    | none => []
    | some (entry, next) => entry :: readEntries next
termination_by file.unread.length
decreasing_by exact length_readRecord_lt _h

/-- `readSSTable`: a path that cannot be opened has no entries. -/
def readSSTable (directory : DataDirectory) (dataDir path : Bytes) : List SSTableEntry :=
  match directory.open? dataDir path with
  | none => []
  | some content => readEntries ⟨content, false⟩

/-! ### The tree -/

/-- `LSMTree` and its four members. -/
structure LSMTree where
  memtable : Std.TreeMap Bytes Bytes
  dataDir : Bytes
  sstableCount : ℕ
  sstablePaths : List Bytes

/-- `std::sort` with `std::greater<>` on paths. -/
def sortNewestFirst (paths : List Bytes) : List Bytes :=
  paths.insertionSort fun first second ↦ (compare first second).isGE

/-- The constructor. The listing is what `directory_iterator` yields, in its own order; it is not
asked for when `create_directories` reports that it made the directory. -/
def LSMTree.new (dataDir : Bytes) (created : Bool) (listing : List Bytes) : LSMTree :=
  if created then ⟨∅, dataDir, 0, []⟩
  else ⟨∅, dataDir, listing.length, sortNewestFirst (listing.map (pathOf dataDir))⟩

/-- A process with its tree and the directory it works on. -/
structure Store where
  directory : DataDirectory
  tree : LSMTree

/-- The records `writeSSTable` streams out, `[key_len][key bytes][val_len][val bytes]` with both
lengths cast to `uint32_t`. -/
def encodeEntry (entry : Bytes × Bytes) : Bytes :=
  littleEndian 4 (entry.1.length % 2 ^ 32) ++ entry.1 ++
    littleEndian 4 (entry.2.length % 2 ^ 32) ++ entry.2

/-- The content of the file written for a map, in key order. -/
def encodeTable (data : Std.TreeMap Bytes Bytes) : Bytes := data.toList.flatMap encodeEntry

namespace Store

/-- `writeSSTable`. The argument `opened` is `file.is_open()`. -/
def writeSSTable (store : Store) (data : Std.TreeMap Bytes Bytes) (path : Bytes) (opened : Bool) :
    Store :=
  if opened then
    { directory := store.directory.write store.tree.dataDir path (encodeTable data)
      tree := { store.tree with
        sstablePaths := sortNewestFirst (store.tree.sstablePaths ++ [path])
        sstableCount := store.tree.sstableCount + 1 } }
  else store

/-- `flush`: the memtable is cleared whatever `writeSSTable` did. -/
def flush (store : Store) (opened : Bool) : Store :=
  let path := pathOf store.tree.dataDir (sstableName store.tree.sstableCount)
  let written := store.writeSSTable store.tree.memtable path opened
  { written with tree := { written.tree with memtable := ∅ } }

/-- `maybeFlush`. -/
def maybeFlush (store : Store) (opened : Bool) : Store :=
  if memtableFlushThreshold ≤ store.tree.memtable.size then store.flush opened else store

/-- `put`. -/
def put (store : Store) (key value : Bytes) (opened : Bool) : Store :=
  maybeFlush
    { store with tree := { store.tree with memtable := store.tree.memtable.insert key value } }
    opened

/-- A put that leaves room only writes to the memtable. -/
theorem put_of_lt {store : Store} {key value : Bytes} {opened : Bool}
    (h : (store.tree.memtable.insert key value).size < memtableFlushThreshold) :
    store.put key value opened =
      { store with tree := { store.tree with memtable := store.tree.memtable.insert key value } } :=
  if_neg (not_le.mpr h)

/-- A put that fills the memtable flushes it. -/
theorem put_of_le {store : Store} {key value : Bytes} {opened : Bool}
    (h : memtableFlushThreshold ≤ (store.tree.memtable.insert key value).size) :
    store.put key value opened = flush
      { store with tree := { store.tree with memtable := store.tree.memtable.insert key value } }
      opened :=
  if_pos h

/-- `del`. -/
def del (store : Store) (key : Bytes) (opened : Bool) : Store := store.put key tombstone opened

/-- The value of a record as `get` returns it: the sentinel reads as deleted. -/
def answer (value : Bytes) : Option Bytes := if value = tombstone then none else some value

/-- The inner loop of `get` over the entries of one table. -/
def scanTable (key : Bytes) : List SSTableEntry → Option (Option Bytes)
  | [] => none
  | entry :: rest => if key = entry.key then some (answer entry.value) else scanTable key rest

/-- The outer loop of `get` over the tables. -/
def scanTables (store : Store) (key : Bytes) : List Bytes → Option Bytes
  | [] => none
  | path :: rest =>
    match scanTable key (readSSTable store.directory store.tree.dataDir path) with
    | some found => found
    | none => scanTables store key rest

/-- `get`. -/
def get (store : Store) (key : Bytes) : Option Bytes :=
  match store.tree.memtable[key]? with
  | some value => answer value
  | none => store.scanTables key store.tree.sstablePaths

/-- The tree is destroyed and a new one constructed over the same, now existing, directory. -/
def restart (store : Store) (listing : List Bytes) : Store :=
  { store with tree := .new store.tree.dataDir false listing }

end Store

/-! ### Histories -/

/-- An operation of a history. -/
inductive Op
  | put (key value : Bytes)
  | del (key : Bytes)
  | restart
deriving DecidableEq, Repr

/-- One operation with every file operation succeeding; a restart lists the names of the files in
any order. -/
inductive Step : Store → Op → Store → Prop
  | put (store : Store) (key value : Bytes) : Step store (.put key value) (store.put key value true)
  | del (store : Store) (key : Bytes) : Step store (.del key) (store.del key true)
  | restart (store : Store) (listing : List Bytes) (h : listing.Perm store.directory.files.keys) :
    Step store .restart (store.restart listing)

/-- The first tree on a data directory that does not exist yet or is empty. -/
inductive Fresh (dataDir : Bytes) : Store → Prop
  | created : Fresh dataDir ⟨.empty, .new dataDir true []⟩
  | existing : Fresh dataDir ⟨.empty, .new dataDir false []⟩

/-- Histories over a directory that starts empty and that nobody else touches. -/
def histories (dataDir : Bytes) : TransitionSystem Store Op where
  Start := Fresh dataDir
  Step := Step

/-- One operation, with the directory listed in name order at a restart. -/
def Store.applyListed (store : Store) : Op → Store
  | .put key value => store.put key value true
  | .del key => store.del key true
  | .restart => store.restart store.directory.files.keys

/-- A whole history on a new directory, with the directory listed in name order at restarts. -/
def runListed (dataDir : Bytes) (history : List Op) : Store :=
  history.foldl Store.applyListed ⟨.empty, .new dataDir true []⟩

/-- Every history has a run: the one that lists the directory in name order. -/
theorem run_runListed (dataDir : Bytes) (history : List Op) :
    (histories dataDir).Run history (runListed dataDir history) := by
  induction history using List.reverseRecOn with
  | nil => exact .start .created
  | append_singleton history op ih =>
    rw [runListed, List.foldl_append]
    refine ih.step ?_
    cases op with
    | put key value => exact .put _ key value
    | del key => exact .del _ key
    | restart => exact .restart _ _ (List.Perm.refl _)

end DailyChallenge.Lsm
