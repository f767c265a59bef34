import Mathlib
import DailyChallenge.Lsm.Records

/-!
# What a flush leaves that was cut short

The file of a flush that stopped after any number of bytes. The reader finds in it the records
that are complete, and where the bytes end inside a value that value filled up with zeros
(`readEntries_take`). Nothing marks the end of a table, so the reader cannot tell such a file from
a whole one.
-/

set_option autoImplicit false
set_option relaxedAutoImplicit false

namespace DailyChallenge.Lsm

open Library

/-- The first bytes of a value, filled up with zeros to its length. -/
def tornValue (value : Bytes) (count : ℕ) : Bytes :=
  value.take count ++ List.replicate (value.length - count) 0

theorem length_tornValue (value : Bytes) (count : ℕ) :
    (tornValue value count).length = value.length := by
  simp only [tornValue, List.length_append, List.length_take, List.length_replicate]
  omega

theorem tornValue_of_le {value : Bytes} {count : ℕ} (h : value.length ≤ count) :
    tornValue value count = value := by
  rw [tornValue, List.take_of_length_le h, Nat.sub_eq_zero_of_le h]
  simp

/-- The records that can be read from the first `cut` bytes of some records. -/
def surviving : List (Bytes × Bytes) → ℕ → List (Bytes × Bytes)
  | [], _ => []
  | (key, value) :: rest, cut =>
    if 8 + key.length + value.length ≤ cut then
      (key, value) :: surviving rest (cut - (8 + key.length + value.length))
    else if 8 + key.length ≤ cut then [(key, tornValue value (cut - (8 + key.length)))]
    else []

theorem length_encodeEntry (entry : Bytes × Bytes) :
    (encodeEntry entry).length = 8 + entry.1.length + entry.2.length := by
  simp only [encodeEntry, List.length_append, length_littleEndian]
  omega

/-- What the reader takes has a key of the length that it starts with, and a value length. -/
theorem exists_key_of_readRecord {bytes : Bytes} {taken : SSTableEntry × InputStream}
    (h : readRecord ⟨bytes, false⟩ = some taken) :
    ∃ key more : Bytes, Fits key ∧ 4 ≤ more.length ∧
      bytes = littleEndian 4 (key.length % 2 ^ 32) ++ (key ++ more) := by
  rcases readRecord_cases h with ⟨record, rest, hkey, -, rfl⟩ | ⟨torn, rfl⟩
  · refine ⟨record.1, littleEndian 4 (record.2.length % 2 ^ 32) ++ (record.2 ++ rest), hkey, ?_, ?_⟩
    · simp
    · simp only [encodeEntry, List.append_assoc]
  · refine ⟨torn.key, littleEndian 4 (torn.valueLength % 2 ^ 32) ++ torn.part, torn.fits, ?_, ?_⟩
    · simp
    · simp only [TornRecord.bytes, List.append_assoc]

/-- Bytes that end before the value length of their first record does hold no entry. -/
theorem readEntries_eq_nil {bytes key rest : Bytes} (hkey : Fits key)
    (hstart : bytes <+: littleEndian 4 (key.length % 2 ^ 32) ++ rest)
    (hshort : bytes.length < 8 + key.length) : readEntries ⟨bytes, false⟩ = [] := by
  cases hread : readRecord ⟨bytes, false⟩ with
  | none =>
    rw [readEntries, if_neg Bool.false_ne_true]
    rw [hread]
  | some taken =>
    exfalso
    obtain ⟨other, more, hother, hmore, rfl⟩ := exists_key_of_readRecord hread
    obtain ⟨after, hafter⟩ := hstart
    rw [List.append_assoc] at hafter
    have hfield := (List.append_inj hafter (by simp)).1
    have hlength : other.length = key.length := by
      rw [← ofLittleEndian_length hother, ← ofLittleEndian_length hkey, hfield]
    simp only [List.length_append, length_littleEndian] at hshort
    omega

/-- The bytes before a cut inside the value of a record are a torn record. -/
def cutRecord (key value : Bytes) (count : ℕ) (hkey : Fits key) (hvalue : Fits value)
    (hcount : count < value.length) : TornRecord :=
  ⟨key, value.length, value.take count, hkey, hvalue, by
    rw [List.length_take]
    omega⟩

theorem bytes_cutRecord {key value : Bytes} {count : ℕ} (hkey : Fits key) (hvalue : Fits value)
    (hcount : count < value.length) :
    (cutRecord key value count hkey hvalue hcount).bytes =
      (encodeEntry (key, value)).take (8 + key.length + count) := by
  have hfront : (littleEndian 4 (key.length % 2 ^ 32) ++ key ++
      littleEndian 4 (value.length % 2 ^ 32)).length = 8 + key.length := by
    simp only [List.length_append, length_littleEndian]
    omega
  rw [encodeEntry, ← hfront, List.take_length_add_append]
  rfl

theorem padded_cutRecord {key value : Bytes} {count : ℕ} (hkey : Fits key) (hvalue : Fits value)
    (hcount : count < value.length) :
    (cutRecord key value count hkey hvalue hcount).padded = ⟨key, tornValue value count⟩ := by
  rw [TornRecord.padded, tornValue]
  simp [cutRecord, Nat.min_eq_left hcount.le]

/-- The reader finds in the first bytes of a table the records that survive there. -/
theorem readEntries_take {records : List (Bytes × Bytes)}
    (hfits : ∀ record ∈ records, Fits record.1 ∧ Fits record.2) (cut : ℕ) :
    readEntries ⟨(records.flatMap encodeEntry).take cut, false⟩ =
      (surviving records cut).map toEntry := by
  induction records generalizing cut with
  | nil =>
    rw [List.flatMap_nil, List.take_nil]
    rw [readEntries]
    rfl
  | cons record rest ih =>
    obtain ⟨key, value⟩ := record
    obtain ⟨⟨hkey, hvalue⟩, hrest⟩ := List.forall_mem_cons.mp hfits
    have hlength := length_encodeEntry (key, value)
    dsimp only at hlength
    rw [List.flatMap_cons, surviving]
    split_ifs with hwhole hinside
    · rw [List.take_append, List.take_of_length_le (by omega), readEntries_encodeEntry hkey hvalue,
        hlength, ih hrest]
      rfl
    · rw [List.take_append_of_le_length (by omega)]
      have hcount : cut - (8 + key.length) < value.length := by omega
      have hbytes := bytes_cutRecord hkey hvalue hcount
      rw [show 8 + key.length + (cut - (8 + key.length)) = cut by omega] at hbytes
      rw [← hbytes, readEntries_torn, padded_cutRecord]
      rfl
    · have hstart : (encodeEntry (key, value) ++ rest.flatMap encodeEntry).take cut <+:
          littleEndian 4 (key.length % 2 ^ 32) ++ (key ++ (littleEndian 4 (value.length % 2 ^ 32) ++
            (value ++ rest.flatMap encodeEntry))) := by
        have hprefix := List.take_prefix cut (encodeEntry (key, value) ++ rest.flatMap encodeEntry)
        simpa only [encodeEntry, List.append_assoc] using hprefix
      have hshort : ((encodeEntry (key, value) ++ rest.flatMap encodeEntry).take cut).length <
          8 + key.length := by
        rw [List.length_take]
        omega
      exact readEntries_eq_nil hkey hstart hshort

/-! ### What survives -/

/-- Every surviving record is one of the records, whole or torn. -/
theorem exists_of_mem_surviving {records : List (Bytes × Bytes)} {cut : ℕ} {key value : Bytes}
    (h : (key, value) ∈ surviving records cut) :
    ∃ written count, (key, written) ∈ records ∧ value = tornValue written count := by
  induction records generalizing cut with
  | nil => cases h
  | cons record rest ih =>
    obtain ⟨first, whole⟩ := record
    rw [surviving] at h
    split_ifs at h
    · rcases List.mem_cons.mp h with hfirst | hlater
      · obtain ⟨rfl, rfl⟩ := Prod.mk.inj hfirst
        exact ⟨_, value.length, List.mem_cons_self, (tornValue_of_le le_rfl).symm⟩
      · obtain ⟨written, count, hmem, hvalue⟩ := ih hlater
        exact ⟨written, count, List.mem_cons_of_mem _ hmem, hvalue⟩
    · obtain ⟨rfl, rfl⟩ := Prod.mk.inj (List.mem_singleton.mp h)
      exact ⟨whole, _, List.mem_cons_self, rfl⟩
    · cases h

/-- The keys of the surviving records are the first keys of the records. -/
theorem map_fst_surviving (records : List (Bytes × Bytes)) (cut : ℕ) :
    (surviving records cut).map Prod.fst <+: records.map Prod.fst := by
  induction records generalizing cut with
  | nil => exact List.prefix_rfl
  | cons record rest ih =>
    obtain ⟨key, value⟩ := record
    rw [surviving]
    split_ifs
    · exact (List.prefix_cons_inj key).mpr (ih _)
    · exact ⟨rest.map Prod.fst, rfl⟩
    · exact List.nil_prefix

end DailyChallenge.Lsm
