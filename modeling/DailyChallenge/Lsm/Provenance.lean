import Mathlib
import DailyChallenge.Lsm.Crash

/-!
# Where the answers come from

Whatever crashes there were in the flushes of a history, `get` returns no value that was not put
under its key, except for one that a crash has cut and the reader has filled up with zeros
(`written_of_get`). `Explained` is the invariant, over memory and the entries of every file.
-/

set_option autoImplicit false
set_option relaxedAutoImplicit false

namespace DailyChallenge.Lsm

open Library

/-! ### What a history explains -/

/-- The operation puts the value under the key. -/
def CrashOp.Writes (key value : Bytes) : CrashOp → Prop
  | .call (.put other written) | .crash other written _ => other = key ∧ written = value
  | .call (.del _) | .call .restart => False

/-- The operation ends in a crash. -/
def CrashOp.IsCrash : CrashOp → Prop
  | .crash _ _ _ => True
  | .call _ => False

/-- A value in memory is a deletion or was put under its key. -/
def Wrote (history : List CrashOp) (key value : Bytes) : Prop :=
  value = tombstone ∨ ∃ op ∈ history, op.Writes key value

/-- A value on disk is one that was in memory, or a crash has filled such a value up with zeros. -/
def Explains (history : List CrashOp) (key value : Bytes) : Prop :=
  ∃ written, Wrote history key written ∧
    (value = written ∨
      (∃ op ∈ history, op.IsCrash) ∧ ∃ count, value = tornValue written count)

/-- The history explains all that a store holds. -/
structure Explained (history : List CrashOp) (store : Store) : Prop where
  memory : ∀ key value, (key, value) ∈ store.tree.memtable.toList → Wrote history key value
  disk : ∀ name content : Bytes, store.directory.files[name]? = some content →
    ∀ entry ∈ readEntries ⟨content, false⟩, Explains history entry.key entry.value
  fits : TableFits store.tree.memtable

variable {dataDir : Bytes} {store next : Store}

theorem Wrote.append {history : List CrashOp} {key value : Bytes} (h : Wrote history key value)
    (op : CrashOp) : Wrote (history ++ [op]) key value := by
  rcases h with rfl | ⟨other, hmem, hwrites⟩
  · exact Or.inl rfl
  · exact Or.inr ⟨other, List.mem_append_left _ hmem, hwrites⟩

theorem Explains.append {history : List CrashOp} {key value : Bytes}
    (h : Explains history key value) (op : CrashOp) : Explains (history ++ [op]) key value := by
  obtain ⟨written, hwrote, hvalue⟩ := h
  refine ⟨written, hwrote.append op, hvalue.imp_right ?_⟩
  rintro ⟨⟨other, hmem, hcrash⟩, htorn⟩
  exact ⟨⟨other, List.mem_append_left _ hmem, hcrash⟩, htorn⟩

theorem Explained.append {history : List CrashOp} (h : Explained history store) (op : CrashOp) :
    Explained (history ++ [op]) store :=
  ⟨fun key value hmem ↦ (h.memory key value hmem).append op,
    fun name content hfile entry hentry ↦ (h.disk name content hfile entry hentry).append op,
    h.fits⟩

theorem Explained.setMemtable {history : List CrashOp} (h : Explained history store)
    {key value : Bytes} (hkey : Fits key) (hvalue : Fits value) (hwrote : Wrote history key value) :
    Explained history (store.setMemtable key value) where
  memory other written hmem := by
    rw [Std.TreeMap.mem_toList_iff_getElem?_eq_some] at hmem
    have hinsert : (store.tree.memtable.insert key value)[other]? = some written := hmem
    rw [Std.TreeMap.getElem?_insert] at hinsert
    split_ifs at hinsert with hsame
    · rw [← Std.LawfulEqOrd.eq_of_compare hsame, ← Option.some.inj hinsert]
      exact hwrote
    · exact h.memory other written (Std.TreeMap.mem_toList_iff_getElem?_eq_some.mpr hinsert)
  disk := h.disk
  fits := h.fits.insert hkey hvalue

/-- A new file whose entries are explained. -/
theorem Explained.write {history : List CrashOp} (h : Explained history store) {content : Bytes}
    (hcontent : ∀ entry ∈ readEntries ⟨content, false⟩, Explains history entry.key entry.value)
    (name : Bytes) (written : List Bytes) (tree : LSMTree) (htree : tree.memtable = ∅) :
    Explained history ⟨⟨store.directory.files.insert name content, written⟩, tree⟩ where
  memory key value hmem := by
    rw [htree, Std.TreeMap.mem_toList_iff_getElem?_eq_some, Std.TreeMap.getElem?_emptyc] at hmem
    cases hmem
  disk other bytes hfile entry hentry := by
    rw [Std.TreeMap.getElem?_insert] at hfile
    split_ifs at hfile
    · rw [← Option.some.inj hfile] at hentry
      exact hcontent entry hentry
    · exact h.disk other bytes hfile entry hentry
  fits := by
    show TableFits tree.memtable
    rw [htree]
    exact tableFits_empty

theorem Explained.flush {history : List CrashOp} (h : Explained history store) :
    Explained history (store.flush true) := by
  rw [Store.flush_opened]
  refine h.write ?_ _ _ _ rfl
  rw [encodeTable, readEntries_flatMap_encodeEntry _ h.fits]
  intro entry hentry
  obtain ⟨record, hmem, rfl⟩ := List.mem_map.mp hentry
  exact ⟨record.2, h.memory _ _ hmem, Or.inl rfl⟩

theorem Explained.put {history : List CrashOp} (h : Explained history store) {key value : Bytes}
    (hkey : Fits key) (hvalue : Fits value) (hwrote : Wrote history key value) :
    Explained history (store.put key value true) := by
  have hset := h.setMemtable hkey hvalue hwrote
  rcases Nat.lt_or_ge (store.tree.memtable.insert key value).size memtableFlushThreshold with
    hroom | hfull
  · rw [Store.put_of_lt hroom]
    exact hset
  · rw [Store.put_of_le hfull]
    exact hset.flush

theorem Explained.crash {history : List CrashOp} (h : Explained history store)
    (hcrash : ∃ op ∈ history, op.IsCrash) (cut : ℕ) (listing : List Bytes) :
    Explained history (store.crash cut listing) := by
  rw [Store.crash, Store.tornDirectory, DataDirectory.write_pathOf]
  refine h.write ?_ _ _ _ rfl
  rw [encodeTable, readEntries_take h.fits]
  intro entry hentry
  obtain ⟨record, hmem, rfl⟩ := List.mem_map.mp hentry
  obtain ⟨written, count, hwritten, htorn⟩ := exists_of_mem_surviving hmem
  exact ⟨written, h.memory _ _ hwritten, Or.inr ⟨hcrash, count, htorn⟩⟩

theorem Explained.step {history : List CrashOp} (h : Explained history store) {op : CrashOp}
    (hfits : op.Fits) (hstep : CrashStep store op next) : Explained (history ++ [op]) next := by
  have hlast : op ∈ history ++ [op] := List.mem_append_right _ (List.mem_singleton_self op)
  have happend := h.append op
  cases hstep with
  | call op _ hcall =>
    cases hcall with
    | put key value => exact happend.put hfits.1 hfits.2 (Or.inr ⟨_, hlast, rfl, rfl⟩)
    | del key => exact happend.put hfits fits_tombstone (Or.inl rfl)
    | restart listing hlisting =>
      refine ⟨fun key value hmem ↦ ?_, happend.disk, tableFits_empty⟩
      rw [Std.TreeMap.mem_toList_iff_getElem?_eq_some] at hmem
      have hempty : (∅ : Table)[key]? = some value := hmem
      rw [Std.TreeMap.getElem?_emptyc] at hempty
      cases hempty
  | crash key value cut listing hfull hlisting =>
    have hset := happend.setMemtable hfits.1 hfits.2 (Or.inr ⟨_, hlast, rfl, rfl⟩)
    exact hset.crash ⟨_, hlast, trivial⟩ cut listing

theorem explained_run {history : List CrashOp} (hrun : (crashHistories dataDir).Run history store)
    (hfits : ∀ op ∈ history, op.Fits) : Explained history store := by
  induction hrun with
  | start hfresh =>
    have hempty : ∀ key value : Bytes, (key, value) ∉ (∅ : Table).toList := by
      intro key value hmem
      rw [Std.TreeMap.mem_toList_iff_getElem?_eq_some, Std.TreeMap.getElem?_emptyc] at hmem
      cases hmem
    have hfiles : ∀ name content : Bytes, (∅ : Table)[name]? ≠ some content := by
      intro name content hfile
      rw [Std.TreeMap.getElem?_emptyc] at hfile
      cases hfile
    cases hfresh <;>
      exact ⟨fun key value hmem ↦ absurd hmem (hempty key value),
        fun name content hfile ↦ absurd hfile (hfiles name content), tableFits_empty⟩
  | @step history store next op _ hstep ih =>
    have h := ih fun other hother ↦ hfits other (List.mem_append_left _ hother)
    exact h.step (hfits op (List.mem_append_right _ (List.mem_singleton_self op))) hstep

theorem ne_tombstone_of_answer {stored value : Bytes} (h : Store.answer stored = some value) :
    stored = value ∧ value ≠ tombstone := by
  unfold Store.answer at h
  split_ifs at h with hstored
  obtain rfl := Option.some.inj h
  exact ⟨rfl, hstored⟩

/-- An answer is the value of an entry of the memtable or of a file. -/
theorem exists_of_get {key value : Bytes} (h : store.get key = some value) :
    value ≠ tombstone ∧ ((key, value) ∈ store.tree.memtable.toList ∨
      ∃ name content : Bytes, store.directory.files[name]? = some content ∧
        ⟨key, value⟩ ∈ readEntries ⟨content, false⟩) := by
  rw [Store.get] at h
  cases hlookup : store.tree.memtable[key]? with
  | some stored =>
    rw [hlookup] at h
    obtain ⟨rfl, hvalue⟩ := ne_tombstone_of_answer h
    exact ⟨hvalue, Or.inl (Std.TreeMap.mem_toList_iff_getElem?_eq_some.mpr hlookup)⟩
  | none =>
    rw [hlookup] at h
    dsimp only at h
    rw [scanTables_eq_answer, Store.recorded] at h
    cases hfind : store.records.find? fun entry ↦ key = entry.key with
    | none =>
      rw [hfind] at h
      cases h
    | some entry =>
      rw [hfind] at h
      obtain ⟨rfl, hvalue⟩ : entry.value = value ∧ _ := ne_tombstone_of_answer h
      obtain rfl : key = entry.key := by simpa using List.find?_some hfind
      obtain ⟨path, -, hentry⟩ := List.mem_flatMap.mp (List.mem_of_find?_eq_some hfind)
      unfold readSSTable DataDirectory.open? at hentry
      split at hentry
      · cases hentry
      · rename_i content hopen
        split at hopen
        · exact ⟨hvalue, Or.inr ⟨_, content, hopen, hentry⟩⟩
        · cases hopen

/-- Whatever crashes there were, and for any number of flushes: a value that `get` returns was put
under its key, or a crash has kept the first bytes of such a value and filled up the rest with
zeros. -/
theorem written_of_get {history : List CrashOp}
    (hrun : (crashHistories dataDir).Run history store) (hfits : ∀ op ∈ history, op.Fits)
    {key value : Bytes} (hget : store.get key = some value) :
    ∃ written, (∃ op ∈ history, op.Writes key written) ∧
      (value = written ∨
        (∃ op ∈ history, op.IsCrash) ∧ ∃ count, value = tornValue written count) := by
  have hexplained := explained_run hrun hfits
  have hwrote : ∀ written, written ≠ tombstone → Wrote history key written →
      ∃ op ∈ history, op.Writes key written := fun written hne h ↦ h.resolve_left hne
  obtain ⟨hvalue, hmemory | ⟨name, content, hfile, hentry⟩⟩ := exists_of_get hget
  · exact ⟨value, hwrote value hvalue (hexplained.memory key value hmemory), Or.inl rfl⟩
  · obtain ⟨written, hwritten, htorn⟩ := hexplained.disk name content hfile _ hentry
    refine ⟨written, hwrote written ?_ hwritten, htorn⟩
    rintro rfl
    refine hvalue ?_
    rcases htorn with rfl | ⟨-, count, rfl⟩
    · rfl
    · simp [tornValue, tombstone_eq_nil]

/-- The answer for a value that was cut. -/
theorem written_of_get_cutThirdValue :
    ∃ written, (∃ op ∈ cutThirdValue, op.Writes [3] written) ∧
      ([9, 0] = written ∨
        (∃ op ∈ cutThirdValue, op.IsCrash) ∧ ∃ count, [9, 0] = tornValue written count) := by
  have hget : cutThirdValueStore.get [3] = some [9, 0] := by
    obtain ⟨tables, ideal, h⟩ := layered_run run_cutThirdValue (by decide)
    exact (h.get_eq (by decide) [3]).trans (by decide)
  exact written_of_get run_cutThirdValue (by decide) hget

end DailyChallenge.Lsm
