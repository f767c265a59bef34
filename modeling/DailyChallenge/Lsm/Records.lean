import Mathlib
import DailyChallenge.Lsm.Codec
import DailyChallenge.Lsm.FileNames

/-!
# What the reader makes of any file

`readRecord_cases` says what one pass of the reader does with any bytes: it takes a complete record,
it breaks, or it takes a record whose value ends early and fills it with zeros, since the source
does not test the stream after reading the value. So the reader returns the longest run of complete
records exactly when the bytes do not end inside the value of a record (`longestRun_iff`). What the
writer wrote never does (`readSSTable_writeSSTable`).
-/

set_option autoImplicit false
set_option relaxedAutoImplicit false

namespace DailyChallenge.Lsm

open Library

/-! ### One pass -/

/-- A read takes as many bytes as are asked for, or all that there are and fails. -/
theorem InputStream.read_cases (unread target : Bytes) :
    (∃ front rest, unread = front ++ rest ∧ front.length = target.length ∧
      InputStream.read ⟨unread, false⟩ target = (front, ⟨rest, false⟩)) ∨
    (unread.length < target.length ∧
      InputStream.read ⟨unread, false⟩ target =
        (unread ++ target.drop unread.length, ⟨[], true⟩)) := by
  unfold InputStream.read
  by_cases hlong : target.length ≤ unread.length
  · left
    refine ⟨unread.take target.length, unread.drop target.length, ?_, ?_, ?_⟩
    · exact (List.take_append_drop _ _).symm
    · exact List.length_take_of_le hlong
    · rw [if_neg Bool.false_ne_true, if_pos hlong]
  · right
    refine ⟨not_le.mp hlong, ?_⟩
    rw [if_neg Bool.false_ne_true, if_neg hlong]

/-- Four bytes are the length field of some length. -/
theorem eq_littleEndian_length {field : Bytes} (h : field.length = 4) :
    ofLittleEndian field < 2 ^ 32 ∧ field = littleEndian 4 (ofLittleEndian field % 2 ^ 32) := by
  have hlt := ofLittleEndian_lt field
  rw [h] at hlt
  have hlt' : ofLittleEndian field < 2 ^ 32 := hlt
  refine ⟨hlt', ?_⟩
  rw [Nat.mod_eq_of_lt hlt', ← h, littleEndian_ofLittleEndian]

/-- A record whose value has fewer bytes than its length field says. -/
structure TornRecord where
  key : Bytes
  valueLength : ℕ
  part : Bytes
  fits : Fits key
  valueLength_lt : valueLength < 2 ^ 32
  short : part.length < valueLength

def TornRecord.bytes (torn : TornRecord) : Bytes :=
  littleEndian 4 (torn.key.length % 2 ^ 32) ++ torn.key ++
    littleEndian 4 (torn.valueLength % 2 ^ 32) ++ torn.part

/-- The entry that the reader makes of a torn record. -/
def TornRecord.padded (torn : TornRecord) : SSTableEntry :=
  ⟨torn.key, torn.part ++ List.replicate (torn.valueLength - torn.part.length) 0⟩

/-- One pass over a torn record at the end of the file returns the padded entry. -/
theorem readRecord_torn (torn : TornRecord) :
    readRecord ⟨torn.bytes, false⟩ = some (torn.padded, ⟨[], true⟩) := by
  have hfront : torn.bytes = littleEndian 4 (torn.key.length % 2 ^ 32) ++ (torn.key ++
      (littleEndian 4 (torn.valueLength % 2 ^ 32) ++ torn.part)) := by
    simp only [TornRecord.bytes, List.append_assoc]
  have hvalue : ofLittleEndian (littleEndian 4 (torn.valueLength % 2 ^ 32)) =
      torn.valueLength := by
    rw [Nat.mod_eq_of_lt torn.valueLength_lt]
    exact ofLittleEndian_littleEndian_of_lt torn.valueLength_lt
  unfold readRecord
  rw [hfront, InputStream.read_append _ _ _ (by simp)]
  dsimp only
  rw [if_neg Bool.false_ne_true, ofLittleEndian_length torn.fits,
    InputStream.read_append _ _ _ (by simp)]
  dsimp only
  rw [InputStream.read_append _ _ _ (by simp)]
  dsimp only
  rw [if_neg Bool.false_ne_true, hvalue]
  have hshort : ¬ (List.replicate torn.valueLength (0 : UInt8)).length ≤ torn.part.length := by
    rw [List.length_replicate]
    exact not_le.mpr torn.short
  simp only [InputStream.read, if_neg hshort, Bool.false_eq_true, if_false, List.drop_replicate]
  rfl

/-- What one pass takes is a complete record, or a torn one that ends the file. -/
theorem readRecord_cases {bytes : Bytes} {entry : SSTableEntry} {next : InputStream}
    (h : readRecord ⟨bytes, false⟩ = some (entry, next)) :
    (∃ record rest, Fits record.1 ∧ Fits record.2 ∧ bytes = encodeEntry record ++ rest) ∨
      ∃ torn : TornRecord, bytes = torn.bytes := by
  unfold readRecord at h
  rcases InputStream.read_cases bytes (List.replicate 4 0) with
    ⟨keyField, rest, rfl, hkeyField, hread⟩ | ⟨-, hread⟩
  · rw [hread] at h
    dsimp only at h
    rw [if_neg Bool.false_ne_true] at h
    rcases InputStream.read_cases rest (List.replicate (ofLittleEndian keyField) 0) with
      ⟨key, rest, rfl, hkey, hread⟩ | ⟨-, hread⟩
    · rw [hread] at h
      dsimp only at h
      rcases InputStream.read_cases rest (List.replicate 4 0) with
        ⟨valueField, rest, rfl, hvalueField, -⟩ | ⟨-, hread⟩
      · rw [List.length_replicate] at hkeyField hkey hvalueField
        obtain ⟨hkeyFits, hkeyEq⟩ := eq_littleEndian_length hkeyField
        obtain ⟨hvalueFits, hvalueEq⟩ := eq_littleEndian_length hvalueField
        rw [← hkey] at hkeyFits hkeyEq
        by_cases hlong : ofLittleEndian valueField ≤ rest.length
        · left
          have htake : (rest.take (ofLittleEndian valueField)).length = ofLittleEndian valueField :=
            List.length_take_of_le hlong
          refine ⟨(key, rest.take (ofLittleEndian valueField)),
            rest.drop (ofLittleEndian valueField), hkeyFits, ?_, ?_⟩
          · show _ < _
            rwa [htake]
          · rw [encodeEntry, htake, ← hkeyEq, ← hvalueEq]
            simp only [List.append_assoc, List.take_append_drop]
        · right
          refine ⟨⟨key, ofLittleEndian valueField, rest, hkeyFits, hvalueFits, not_le.mp hlong⟩, ?_⟩
          rw [TornRecord.bytes, ← hkeyEq, ← hvalueEq]
          simp only [List.append_assoc]
      · rw [hread] at h
        cases h
    · rw [hread] at h
      cases h
  · rw [hread] at h
    cases h

/-! ### A whole file -/

/-- The records that start some bytes are complete, and what is left has no complete record at its
start. -/
def LongestRun (bytes : Bytes) (entries : List SSTableEntry) : Prop :=
  ∃ records : List (Bytes × Bytes), ∃ rest : Bytes,
    entries = records.map toEntry ∧ (∀ record ∈ records, Fits record.1 ∧ Fits record.2) ∧
    bytes = records.flatMap encodeEntry ++ rest ∧
    ∀ record more, Fits record.1 → Fits record.2 → rest ≠ encodeEntry record ++ more

/-- The bytes end inside the value of a record, with complete records before it. -/
def EndsInValue (bytes : Bytes) : Prop :=
  ∃ records : List (Bytes × Bytes), ∃ torn : TornRecord,
    (∀ record ∈ records, Fits record.1 ∧ Fits record.2) ∧
    bytes = records.flatMap encodeEntry ++ torn.bytes

/-- A record that starts some bytes is determined by them. -/
theorem encodeEntry_append_inj {record other : Bytes × Bytes} {rest more : Bytes}
    (hkey : Fits record.1) (hvalue : Fits record.2) (hkey' : Fits other.1) (hvalue' : Fits other.2)
    (h : encodeEntry record ++ rest = encodeEntry other ++ more) :
    record = other ∧ rest = more := by
  have hread := readRecord_encodeEntry hkey hvalue rest
  rw [h, readRecord_encodeEntry hkey' hvalue' more] at hread
  injection hread with hpair
  injection hpair with hentry hstream
  injection hentry with hfirst hsecond
  injection hstream with hrest
  exact ⟨Prod.ext hfirst.symm hsecond.symm, hrest.symm⟩

/-- No torn record starts with a complete one. -/
theorem TornRecord.bytes_ne (torn : TornRecord) {record : Bytes × Bytes} (hkey : Fits record.1)
    (hvalue : Fits record.2) (rest : Bytes) : torn.bytes ≠ encodeEntry record ++ rest := by
  intro h
  have hread := readRecord_torn torn
  rw [h, readRecord_encodeEntry hkey hvalue rest] at hread
  injection hread with hpair
  injection hpair with _ hstream
  injection hstream with _ hfail
  exact Bool.false_ne_true hfail

/-- The reader after a complete record. -/
theorem readEntries_encodeEntry {record : Bytes × Bytes} (hkey : Fits record.1)
    (hvalue : Fits record.2) (rest : Bytes) :
    readEntries ⟨encodeEntry record ++ rest, false⟩ =
      toEntry record :: readEntries ⟨rest, false⟩ := by
  rw [readEntries, if_neg Bool.false_ne_true]
  rw [readRecord_encodeEntry hkey hvalue]

/-- The reader at a torn record. -/
theorem readEntries_torn (torn : TornRecord) :
    readEntries ⟨torn.bytes, false⟩ = [torn.padded] := by
  rw [readEntries, if_neg Bool.false_ne_true]
  rw [readRecord_torn]
  dsimp only
  rw [readEntries, if_pos rfl]

/-- A complete record before some bytes belongs to their longest run. -/
theorem longestRun_cons {record : Bytes × Bytes} (hkey : Fits record.1) (hvalue : Fits record.2)
    (rest : Bytes) (entries : List SSTableEntry) :
    LongestRun (encodeEntry record ++ rest) (toEntry record :: entries) ↔
      LongestRun rest entries := by
  constructor
  · rintro ⟨records, last, hentries, hfits, hbytes, hlast⟩
    cases records with
    | nil => cases hentries
    | cons first more =>
      rw [List.forall_mem_cons] at hfits
      rw [List.flatMap_cons, List.append_assoc] at hbytes
      obtain ⟨rfl, hrest⟩ := encodeEntry_append_inj hkey hvalue hfits.1.1 hfits.1.2 hbytes
      exact ⟨more, last, (List.cons.inj hentries).2, hfits.2, hrest, hlast⟩
  · rintro ⟨records, last, hentries, hfits, hbytes, hlast⟩
    refine ⟨record :: records, last, ?_, ?_, ?_, hlast⟩
    · rw [hentries, List.map_cons]
    · exact List.forall_mem_cons.mpr ⟨⟨hkey, hvalue⟩, hfits⟩
    · rw [List.flatMap_cons, List.append_assoc, hbytes]

theorem endsInValue_cons {record : Bytes × Bytes} (hkey : Fits record.1) (hvalue : Fits record.2)
    (rest : Bytes) : EndsInValue (encodeEntry record ++ rest) ↔ EndsInValue rest := by
  constructor
  · rintro ⟨records, torn, hfits, hbytes⟩
    cases records with
    | nil => exact absurd hbytes.symm (torn.bytes_ne hkey hvalue rest)
    | cons first more =>
      rw [List.forall_mem_cons] at hfits
      rw [List.flatMap_cons, List.append_assoc] at hbytes
      obtain ⟨rfl, hrest⟩ := encodeEntry_append_inj hkey hvalue hfits.1.1 hfits.1.2 hbytes
      exact ⟨more, torn, hfits.2, hrest⟩
  · rintro ⟨records, torn, hfits, hbytes⟩
    refine ⟨record :: records, torn, List.forall_mem_cons.mpr ⟨⟨hkey, hvalue⟩, hfits⟩, ?_⟩
    rw [List.flatMap_cons, List.append_assoc, hbytes]

/-- The encoding of a padded entry is longer than the torn record. -/
theorem not_longestRun_torn (torn : TornRecord) : ¬ LongestRun torn.bytes [torn.padded] := by
  rintro ⟨records, rest, hentries, hfits, hbytes, -⟩
  cases records with
  | nil => cases hentries
  | cons first more =>
    rw [List.forall_mem_cons] at hfits
    rw [List.flatMap_cons, List.append_assoc] at hbytes
    exact torn.bytes_ne hfits.1.1 hfits.1.2 _ hbytes

/-- The reader returns the longest run of complete records exactly where the bytes do not end inside
a value. -/
theorem longestRun_readEntries (bytes : Bytes) :
    LongestRun bytes (readEntries ⟨bytes, false⟩) ↔ ¬ EndsInValue bytes := by
  induction hlength : bytes.length using Nat.strong_induction_on generalizing bytes with
  | _ length ih =>
    subst hlength
    cases hread : readRecord ⟨bytes, false⟩ with
    | some taken =>
      rcases readRecord_cases hread with ⟨record, rest, hkey, hvalue, rfl⟩ | ⟨torn, rfl⟩
      · rw [readEntries_encodeEntry hkey hvalue, longestRun_cons hkey hvalue,
          endsInValue_cons hkey hvalue]
        refine ih rest.length ?_ rest rfl
        simp [encodeEntry]
        omega
      · rw [readEntries_torn]
        exact iff_of_false (not_longestRun_torn torn) (not_not.mpr ⟨[], torn, by simp, by simp⟩)
    | none =>
      have hrecord : ∀ record more, Fits record.1 → Fits record.2 →
          bytes ≠ encodeEntry record ++ more := by
        rintro record more hkey hvalue rfl
        rw [readRecord_encodeEntry hkey hvalue] at hread
        cases hread
      have hnone : readEntries ⟨bytes, false⟩ = [] := by
        rw [readEntries, if_neg Bool.false_ne_true]
        rw [hread]
      rw [hnone]
      refine iff_of_true ⟨[], bytes, rfl, by simp, rfl, hrecord⟩ ?_
      rintro ⟨records, torn, hfits, hbytes⟩
      cases records with
      | nil =>
        rw [List.flatMap_nil, List.nil_append] at hbytes
        rw [hbytes, readRecord_torn] at hread
        cases hread
      | cons first more =>
        rw [List.forall_mem_cons] at hfits
        rw [List.flatMap_cons, List.append_assoc] at hbytes
        exact hrecord first _ hfits.1.1 hfits.1.2 hbytes

/-- `readSSTable` returns the longest run of complete records at the start of a file, and no byte
that is not in it, exactly when the file does not end inside the value of a record. -/
theorem longestRun_readSSTable_iff {directory : DataDirectory} {dataDir path content : Bytes}
    (hopen : directory.open? dataDir path = some content) :
    LongestRun content (readSSTable directory dataDir path) ↔ ¬ EndsInValue content := by
  unfold readSSTable
  rw [hopen]
  exact longestRun_readEntries content

/-- A directory with one file of a given content, under the path `d/t`. -/
def directoryWith (content : Bytes) : DataDirectory :=
  ⟨(∅ : Std.TreeMap Bytes Bytes).insert [116] content, []⟩

/-- A file that ends inside a length field. -/
theorem longestRun_readSSTable_iff_cutLength :
    LongestRun [1, 0, 0, 0, 7, 2, 0]
        (readSSTable (directoryWith [1, 0, 0, 0, 7, 2, 0]) [100] [100, 47, 116]) ↔
      ¬ EndsInValue [1, 0, 0, 0, 7, 2, 0] :=
  longestRun_readSSTable_iff (by decide)

/-- A record with one of its two value bytes. -/
def cutValue : TornRecord := ⟨[7], 2, [9], by unfold Fits; decide, by decide, by decide⟩

/-- A file that ends after the first of two value bytes yields an entry with both. -/
theorem not_longestRun_cutValue :
    readSSTable (directoryWith [1, 0, 0, 0, 7, 2, 0, 0, 0, 9]) [100] [100, 47, 116] =
        [⟨[7], [9, 0]⟩] ∧
      ¬ LongestRun [1, 0, 0, 0, 7, 2, 0, 0, 0, 9]
        (readSSTable (directoryWith [1, 0, 0, 0, 7, 2, 0, 0, 0, 9]) [100] [100, 47, 116]) := by
  have hopen : (directoryWith [1, 0, 0, 0, 7, 2, 0, 0, 0, 9]).open? [100] [100, 47, 116] =
      some cutValue.bytes := by decide
  have hread : readSSTable (directoryWith [1, 0, 0, 0, 7, 2, 0, 0, 0, 9]) [100] [100, 47, 116] =
      [cutValue.padded] := by
    unfold readSSTable
    rw [hopen]
    exact readEntries_torn cutValue
  have hbytes : [1, 0, 0, 0, 7, 2, 0, 0, 0, 9] = cutValue.bytes := by decide
  refine ⟨hread, ?_⟩
  rw [hread, hbytes]
  exact not_longestRun_torn cutValue

/-! ### A file that was written -/

/-- The keys of a table are written in increasing order. -/
theorem pairwise_keys_toList (data : Std.TreeMap Bytes Bytes) :
    ((data.toList.map toEntry).map SSTableEntry.key).Pairwise fun first second ↦
      compare first second = .lt := by
  have hordered := data.ordered_keys_toList
  rw [List.map_map, List.pairwise_map]
  exact hordered

/-- `readSSTable` returns the entries of the map that `writeSSTable` wrote, in increasing order of
the keys and nothing else. So maps with the same bytes have the same entries. -/
theorem readSSTable_writeSSTable (store : Store) (name : Bytes) {data : Std.TreeMap Bytes Bytes}
    (hfits : TableFits data) :
    readSSTable (store.writeSSTable data (pathOf store.tree.dataDir name) true).directory
        store.tree.dataDir (pathOf store.tree.dataDir name) = data.toList.map toEntry ∧
      (((data.toList.map toEntry).map SSTableEntry.key).Pairwise fun first second ↦
        compare first second = .lt) ∧
      ∀ other, TableFits other → encodeTable other = encodeTable data →
        ∀ key : Bytes, other[key]? = data[key]? := by
  refine ⟨?_, pairwise_keys_toList data, ?_⟩
  · have hopen : (store.writeSSTable data (pathOf store.tree.dataDir name) true).directory.open?
        store.tree.dataDir (pathOf store.tree.dataDir name) = some (encodeTable data) := by
      simp [Store.writeSSTable]
    unfold readSSTable
    rw [hopen]
    exact readEntries_flatMap_encodeEntry _ hfits
  · intro other hother hbytes key
    have hread := readEntries_flatMap_encodeEntry _ hother
    unfold encodeTable at hbytes
    rw [hbytes, readEntries_flatMap_encodeEntry _ hfits] at hread
    have hinjective : Function.Injective toEntry := fun first second h ↦
      Prod.ext (SSTableEntry.mk.inj h).1 (SSTableEntry.mk.inj h).2
    have hentries := List.map_injective_iff.mpr hinjective hread
    rw [← find?_toList, ← find?_toList, hentries]

/-- A table with an empty key and a value that looks like a length field. -/
theorem readSSTable_writeSSTable_imitation :
    let store : Store := ⟨.empty, .new [100] true []⟩
    let data : Std.TreeMap Bytes Bytes :=
      ((∅ : Std.TreeMap Bytes Bytes).insert [] [1, 0, 0, 0]).insert [0] []
    readSSTable (store.writeSSTable data (pathOf [100] [116]) true).directory [100]
        (pathOf [100] [116]) = data.toList.map toEntry ∧
      (((data.toList.map toEntry).map SSTableEntry.key).Pairwise fun first second ↦
        compare first second = .lt) ∧
      ∀ other, TableFits other → encodeTable other = encodeTable data →
        ∀ key : Bytes, other[key]? = data[key]? :=
  readSSTable_writeSSTable ⟨.empty, .new [100] true []⟩ [116] (by unfold TableFits Fits; decide)

end DailyChallenge.Lsm
