import Mathlib
import DailyChallenge.Lsm.Store

/-!
# The SSTable format is read back as it was written

`readEntries_flatMap_encodeEntry` is the round trip of the record format for lengths below `2 ^ 32`:
the reader stays in step with the writer through every record and stops at the end of the file.
`scanTable_readEntries_encodeTable` is what `get` needs of it: the scan of a table answers for
exactly the keys of the map the table was written from.
-/

set_option autoImplicit false
set_option relaxedAutoImplicit false

namespace DailyChallenge.Lsm

open Library

/-- A string whose length is not changed by the cast to `uint32_t`. -/
def Fits (string : Bytes) : Prop := string.length < 2 ^ 32

/-- Every key and every value of a map fits its length field. -/
def TableFits (data : Std.TreeMap Bytes Bytes) : Prop :=
  ∀ entry ∈ data.toList, Fits entry.1 ∧ Fits entry.2

/-- The record of a map entry. -/
def toEntry (entry : Bytes × Bytes) : SSTableEntry := ⟨entry.1, entry.2⟩

/-- A read whose target is as long as the next bytes takes exactly those. -/
theorem InputStream.read_append (front rest target : Bytes) (h : target.length = front.length) :
    InputStream.read ⟨front ++ rest, false⟩ target = (front, ⟨rest, false⟩) := by
  have hlong : target.length ≤ (front ++ rest).length := by
    rw [List.length_append]
    omega
  simp only [InputStream.read, Bool.false_eq_true, if_false, if_pos hlong]
  rw [h, List.take_left, List.drop_left]

/-- A length field is read back as the length. -/
theorem ofLittleEndian_length {string : Bytes} (h : Fits string) :
    ofLittleEndian (littleEndian 4 (string.length % 2 ^ 32)) = string.length := by
  have hsmall : string.length < 256 ^ 4 := by simpa [Fits] using h
  rw [Nat.mod_eq_of_lt h, ofLittleEndian_littleEndian_of_lt hsmall]

/-- One pass of the reader over a written record returns the record and leaves the rest. -/
theorem readRecord_encodeEntry {entry : Bytes × Bytes} (hkey : Fits entry.1) (hval : Fits entry.2)
    (rest : Bytes) :
    readRecord ⟨encodeEntry entry ++ rest, false⟩ = some (toEntry entry, ⟨rest, false⟩) := by
  have hfront : encodeEntry entry ++ rest =
      littleEndian 4 (entry.1.length % 2 ^ 32) ++ (entry.1 ++
        (littleEndian 4 (entry.2.length % 2 ^ 32) ++ (entry.2 ++ rest))) := by
    simp only [encodeEntry, List.append_assoc]
  unfold readRecord
  rw [hfront, InputStream.read_append _ _ _ (by simp)]
  dsimp only
  rw [if_neg Bool.false_ne_true, ofLittleEndian_length hkey,
    InputStream.read_append _ _ _ (by simp)]
  dsimp only
  rw [InputStream.read_append _ _ _ (by simp)]
  dsimp only
  rw [if_neg Bool.false_ne_true, ofLittleEndian_length hval,
    InputStream.read_append _ _ _ (by simp)]
  rfl

/-- The reader returns the records the writer wrote, in order, and nothing else. -/
theorem readEntries_flatMap_encodeEntry (entries : List (Bytes × Bytes))
    (h : ∀ entry ∈ entries, Fits entry.1 ∧ Fits entry.2) :
    readEntries ⟨entries.flatMap encodeEntry, false⟩ = entries.map toEntry := by
  induction entries with
  | nil =>
    rw [readEntries]
    rfl
  | cons entry rest ih =>
    obtain ⟨hkey, hval⟩ := h entry List.mem_cons_self
    have hrest := ih fun other hother ↦ h other (List.mem_cons_of_mem _ hother)
    rw [readEntries, List.flatMap_cons, if_neg Bool.false_ne_true]
    rw [readRecord_encodeEntry hkey hval]
    dsimp only
    rw [hrest, List.map_cons]

/-- The scan of one table finds the first record of the key. -/
theorem scanTable_eq_find? (key : Bytes) (entries : List SSTableEntry) :
    Store.scanTable key entries =
      (entries.find? fun entry ↦ key = entry.key).map fun entry ↦ Store.answer entry.value := by
  induction entries with
  | nil => rfl
  | cons entry rest ih =>
    rw [Store.scanTable, List.find?_cons]
    by_cases hkey : key = entry.key
    · simp [hkey]
    · simp [hkey, ih]

/-- Scanning the records of a list of entries finds the first entry with the key. -/
theorem scanTable_map_toEntry (key : Bytes) (entries : List (Bytes × Bytes)) :
    Store.scanTable key (entries.map toEntry) =
      (entries.find? fun entry ↦ entry.1 = key).map fun entry ↦ Store.answer entry.2 := by
  have htest : (fun entry : Bytes × Bytes ↦ decide (key = (toEntry entry).key)) =
      fun entry ↦ decide (entry.1 = key) := by
    funext entry
    exact decide_eq_decide.mpr eq_comm
  rw [scanTable_eq_find?, List.find?_map, Option.map_map]
  show (entries.find? fun entry ↦ decide (key = (toEntry entry).key)).map _ = _
  rw [htest]
  rfl

/-- The first entry of a map with a key is the entry of the map at that key. -/
theorem find?_toList (data : Std.TreeMap Bytes Bytes) (key : Bytes) :
    (data.toList.find? fun entry ↦ entry.1 = key).map (·.2) = data[key]? := by
  cases hfind : data.toList.find? fun entry ↦ entry.1 = key with
  | none =>
    cases hlookup : data[key]? with
    | none => rfl
    | some value =>
      have hmem : (key, value) ∈ data.toList :=
        Std.TreeMap.mem_toList_iff_getElem?_eq_some.mpr hlookup
      simpa using List.find?_eq_none.mp hfind _ hmem
  | some entry =>
    have hkey : entry.1 = key := by simpa using List.find?_some hfind
    have hmem : (entry.1, entry.2) ∈ data.toList := List.mem_of_find?_eq_some hfind
    rw [← hkey, Std.TreeMap.mem_toList_iff_getElem?_eq_some.mp hmem]
    rfl

/-- The scan of a table answers as the map the table was written from. -/
theorem scanTable_readEntries_encodeTable {data : Std.TreeMap Bytes Bytes} (h : TableFits data)
    (key : Bytes) :
    Store.scanTable key (readEntries ⟨encodeTable data, false⟩) = data[key]?.map Store.answer := by
  rw [encodeTable, readEntries_flatMap_encodeEntry _ h, scanTable_map_toEntry, ← find?_toList,
    Option.map_map]
  rfl

end DailyChallenge.Lsm
