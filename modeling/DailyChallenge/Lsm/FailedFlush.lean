import Mathlib
import DailyChallenge.Lsm.Codec

/-!
# Flushes whose file cannot be opened

`writeSSTable` returns without a word when its file cannot be opened, and `flush` then clears the
memtable. What the memtable held is answered from the older tables after that, so nothing is lost
exactly when these already say the same (`lossless_iff_repeats`). `lossless_run_iff` says it of
every failed flush of a run, from any store and with any outcomes of the flushes before it.
-/

set_option autoImplicit false
set_option relaxedAutoImplicit false

namespace DailyChallenge.Lsm

open Library

/-! ### Runs with flushes that may fail -/

/-- An operation with what the environment answers: whether a flush could open its file, and how the
directory is listed. -/
inductive Event
  | put (key value : Bytes) (opened : Bool)
  | del (key : Bytes) (opened : Bool)
  | restart (listing : List Bytes)

namespace Store

/-- The store after an operation. -/
def apply (store : Store) : Event → Store
  | .put key value opened => store.put key value opened
  | .del key opened => store.del key opened
  | .restart listing => store.restart listing

/-- The store after a run of operations. -/
def applyAll (store : Store) (events : List Event) : Store := events.foldl apply store

/-- A write to the memtable and nothing else. -/
def setMemtable (store : Store) (key value : Bytes) : Store :=
  { store with tree := { store.tree with memtable := store.tree.memtable.insert key value } }

/-- The store with the write of an operation in its memtable, which is kept. -/
def kept (store : Store) : Event → Store
  | .put key value _ => store.setMemtable key value
  | .del key _ => store.setMemtable key tombstone
  | .restart listing => store.restart listing

/-- The operation triggers a flush whose file cannot be opened. -/
def FlushFails (store : Store) : Event → Prop
  | .put key value opened =>
    opened = false ∧ memtableFlushThreshold ≤ (store.setMemtable key value).tree.memtable.size
  | .del key opened =>
    opened = false ∧ memtableFlushThreshold ≤ (store.setMemtable key tombstone).tree.memtable.size
  | .restart _ => False

/-- After the operation every key reads as it would with the memtable kept. -/
def Lossless (store : Store) (event : Event) : Prop :=
  ∀ key, (store.apply event).get key = (store.kept event).get key

/-- The records of all tables, in the order of the path vector. -/
def records (store : Store) : List SSTableEntry :=
  store.tree.sstablePaths.flatMap fun path ↦ readSSTable store.directory store.tree.dataDir path

/-- The value of the first record of a key, or the sentinel where no table has the key. -/
def recorded (store : Store) (key : Bytes) : Bytes :=
  ((store.records.find? fun entry ↦ key = entry.key).map SSTableEntry.value).getD tombstone

/-- Every entry of the memtable, with the write in it, repeats what the tables record. -/
def Repeats (store : Store) (event : Event) : Prop :=
  ∀ key value, (store.kept event).tree.memtable[key]? = some value → store.recorded key = value

end Store

/-! ### What is lost -/

section

variable {store : Store}

/-- The scan of all tables answers with the first record of the key. -/
theorem scanTables_eq_answer (key : Bytes) :
    store.scanTables key store.tree.sstablePaths = Store.answer (store.recorded key) := by
  unfold Store.recorded Store.records
  induction store.tree.sstablePaths with
  | nil => rfl
  | cons path rest ih =>
    rw [Store.scanTables, scanTable_eq_find?, List.flatMap_cons, List.find?_append]
    cases hfind : (readSSTable store.directory store.tree.dataDir path).find?
        fun entry ↦ key = entry.key with
    | none => simpa using ih
    | some entry => rfl

theorem answer_injective : Function.Injective Store.answer := by
  intro first second h
  unfold Store.answer at h
  split_ifs at h with hfirst hsecond
  · rw [hfirst, hsecond]
  · exact Option.some.inj h

/-- The scan does not look at the memtable. -/
theorem scanTables_memtable (memtable : Std.TreeMap Bytes Bytes) (key : Bytes)
    (paths : List Bytes) :
    Store.scanTables { store with tree := { store.tree with memtable := memtable } } key paths =
      store.scanTables key paths := by
  induction paths with
  | nil => rfl
  | cons path rest ih => rw [Store.scanTables, Store.scanTables, ih]

/-- A failed flush empties the memtable and does nothing else. -/
theorem apply_of_flushFails {event : Event} (h : store.FlushFails event) :
    store.apply event = { store with tree := { store.tree with memtable := ∅ } } := by
  have hput : ∀ key value,
      memtableFlushThreshold ≤ (store.setMemtable key value).tree.memtable.size →
      store.put key value false = { store with tree := { store.tree with memtable := ∅ } } := by
    intro key value hfull
    rw [Store.put_of_le hfull]
    rfl
  cases event with
  | put key value opened =>
    obtain ⟨rfl, hfull⟩ := h
    exact hput key value hfull
  | del key opened =>
    obtain ⟨rfl, hfull⟩ := h
    exact hput key tombstone hfull
  | restart listing => exact h.elim

/-- A failed flush leaves the tables to answer alone. -/
theorem get_apply_of_flushFails {event : Event} (h : store.FlushFails event) (key : Bytes) :
    (store.apply event).get key = Store.answer (store.recorded key) := by
  rw [apply_of_flushFails h, Store.get, Std.TreeMap.getElem?_emptyc, ← scanTables_eq_answer]
  exact scanTables_memtable ∅ key _

/-- With the memtable kept its entries answer first. -/
theorem get_kept_of_flushFails {event : Event} (h : store.FlushFails event) (key : Bytes) :
    (store.kept event).get key =
      Store.answer ((store.kept event).tree.memtable[key]?.getD (store.recorded key)) := by
  have hset : ∀ written value, (store.setMemtable written value).get key =
      Store.answer ((store.setMemtable written value).tree.memtable[key]?.getD
        (store.recorded key)) := by
    intro written value
    rw [Store.get]
    cases (store.setMemtable written value).tree.memtable[key]? with
    | some value => rfl
    | none => exact (scanTables_memtable _ key _).trans (scanTables_eq_answer key)
  cases event with
  | put written value opened => exact hset written value
  | del written opened => exact hset written tombstone
  | restart listing => exact h.elim

/-- A failed flush loses nothing exactly when the tables repeat the memtable. -/
theorem lossless_iff_repeats {event : Event} (h : store.FlushFails event) :
    store.Lossless event ↔ store.Repeats event := by
  have hkey : ∀ key, (store.apply event).get key = (store.kept event).get key ↔
      ∀ value, (store.kept event).tree.memtable[key]? = some value →
        store.recorded key = value := by
    intro key
    rw [get_apply_of_flushFails h, get_kept_of_flushFails h, answer_injective.eq_iff]
    cases (store.kept event).tree.memtable[key]? with
    | none => simp
    | some value => simp
  exact forall_congr' hkey

/-- In every run, from any store and whatever the flushes before did: all failed flushes of the run
lose nothing exactly when at each of them the tables repeat the memtable. -/
theorem lossless_run_iff (start : Store) (events : List Event) :
    (∀ before event after, events = before ++ event :: after →
        (start.applyAll before).FlushFails event → (start.applyAll before).Lossless event) ↔
      ∀ before event after, events = before ++ event :: after →
        (start.applyAll before).FlushFails event → (start.applyAll before).Repeats event := by
  constructor
  · intro hlossless before event after hevents hfails
    exact (lossless_iff_repeats hfails).mp (hlossless before event after hevents hfails)
  · intro hrepeats before event after hevents hfails
    exact (lossless_iff_repeats hfails).mpr (hrepeats before event after hevents hfails)

end

/-- A new store after three puts. -/
def threePuts : Store :=
  Store.applyAll ⟨.empty, .new [100] true []⟩
    [.put [1] [7] true, .put [2] [8] true, .put [3] [9] true]

/-- The put of a fourth key whose flush fails loses the first three, and itself. -/
theorem not_lossless_fourthPut :
    threePuts.FlushFails (.put [4] [10] false) ∧ ¬ threePuts.Lossless (.put [4] [10] false) := by
  have hfails : threePuts.FlushFails (.put [4] [10] false) := ⟨rfl, by decide⟩
  refine ⟨hfails, ?_⟩
  rw [lossless_iff_repeats hfails]
  intro hrepeats
  exact absurd (hrepeats [1] [7] rfl) (by decide)

end DailyChallenge.Lsm
