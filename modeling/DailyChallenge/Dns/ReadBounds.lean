import Mathlib
import DailyChallenge.Dns.Response

/-!
# Which responses are read within their length

`NameEnd` and `RecordStart` say, from the received bytes alone, where names end and where the answer
records start. `skipName_eq_some_iff` shows that `skip_name` finds exactly the ends of names, and
that it reads no byte past the length. The parser does when a record is cut off: `reads_lt_iff` says
that it stays within the length exactly when every announced record that can be reached has its ten
fixed bytes, and the four address bytes it prints.
-/

set_option autoImplicit false
set_option relaxedAutoImplicit false

namespace DailyChallenge.Dns

open Library

variable {buf : ℕ → UInt8} {len : ℕ}

/-- A name that starts at a position ends before another one: labels up to a zero byte or the first
byte of a pointer, all of them received. -/
inductive NameEnd (buf : ℕ → UInt8) (len : ℕ) : ℕ → ℕ → Prop
  | root {pos : ℕ} : pos < len → buf pos = 0 → NameEnd buf len pos (pos + 1)
  | pointer {pos : ℕ} : pos < len → buf pos ≠ 0 → buf pos &&& 0xC0 = 0xC0 →
    NameEnd buf len pos (pos + 2)
  | label {pos last : ℕ} : pos < len → buf pos ≠ 0 → buf pos &&& 0xC0 ≠ 0xC0 →
    NameEnd buf len (pos + (1 + (buf pos).toNat)) last → NameEnd buf len pos last

/-- `skip_name` finds the end of a name, where there is one. -/
theorem skipName_eq_some_iff {pos last : ℕ} :
    (skipName buf len pos).2 = some last ↔ NameEnd buf len pos last := by
  constructor
  · intro h
    fun_induction skipName buf len pos with
    | case1 pos hpos _ hzero =>
      cases h
      exact .root hpos hzero
    | case2 pos hpos _ hzero hpointer =>
      cases h
      exact .pointer hpos hzero hpointer
    | case3 pos hpos _ hzero hpointer rest ih => exact .label hpos hzero hpointer (ih h)
    | case4 => cases h
  · intro h
    induction h with
    | root hpos hzero => rw [skipName, if_pos hpos, if_pos hzero]
    | pointer hpos hzero hpointer => rw [skipName, if_pos hpos, if_neg hzero, if_pos hpointer]
    | label hpos hzero hpointer _ ih => rwa [skipName, if_pos hpos, if_neg hzero, if_neg hpointer]

/-- `skip_name` reads no byte past the length. -/
theorem lt_of_mem_skipName {pos i : ℕ} (h : i ∈ (skipName buf len pos).1) : i < len := by
  fun_induction skipName buf len pos with
  | case1 pos hpos => rwa [List.mem_singleton.mp h]
  | case2 pos hpos => rwa [List.mem_singleton.mp h]
  | case3 pos hpos _ _ _ rest ih =>
    rcases List.mem_cons.mp h with rfl | hrest
    · exact hpos
    · exact ih hrest
  | case4 => exact absurd h List.not_mem_nil

/-! ### Records -/

/-- A record starts at a position after a number of complete records from another. -/
inductive RecordStart (buf : ℕ → UInt8) (len : ℕ) : ℕ → ℕ → ℕ → Prop
  | here {pos : ℕ} : RecordStart buf len pos 0 pos
  | next {pos fixed count start : ℕ} : NameEnd buf len pos fixed → fixed + 10 ≤ len →
    RecordStart buf len (fixed + 10 + (uint16At buf (fixed + 8)).toNat) count start →
      RecordStart buf len pos (count + 1) start

/-- The fixed fields of a record, and the address where it has one, are received. -/
def FieldsFit (buf : ℕ → UInt8) (len fixed : ℕ) : Prop :=
  fixed + 10 ≤ len ∧
    (uint16At buf fixed = dnsTypeA ∧ uint16At buf (fixed + 8) = 4 → fixed + 14 ≤ len)

/-- No record is cut off after its name: the fields of the first `count` records from a position
fit, as far as the records before them are complete. -/
def Uncut (buf : ℕ → UInt8) (len pos count : ℕ) : Prop :=
  ∀ index < count, ∀ start fixed, RecordStart buf len pos index start →
    NameEnd buf len start fixed → FieldsFit buf len fixed

/-- The first record of an uncut sequence and the rest. -/
theorem uncut_succ_iff {pos fixed count : ℕ} (hname : NameEnd buf len pos fixed) :
    Uncut buf len pos (count + 1) ↔ FieldsFit buf len fixed ∧
      Uncut buf len (fixed + 10 + (uint16At buf (fixed + 8)).toNat) count := by
  have hsame : ∀ other, NameEnd buf len pos other → other = fixed := fun other hother ↦
    Option.some.inj ((skipName_eq_some_iff.mpr hother).symm.trans (skipName_eq_some_iff.mpr hname))
  constructor
  · intro h
    have hfirst := h 0 (Nat.succ_pos count) pos fixed .here hname
    refine ⟨hfirst, fun index hindex start last hstart hlast ↦ ?_⟩
    exact h (index + 1) (Nat.succ_lt_succ hindex) start last (.next hname hfirst.1 hstart) hlast
  · rintro ⟨hfirst, hrest⟩ index hindex start last hstart hlast
    cases hstart with
    | here => exact hsame last hlast ▸ hfirst
    | next hname' hfits hnext =>
      obtain rfl := hsame _ hname'
      exact hrest _ (Nat.lt_of_succ_lt_succ hindex) start last hnext hlast

/-- A sequence whose first name does not end is uncut. -/
theorem uncut_of_no_name {pos count : ℕ} (h : ∀ fixed, ¬ NameEnd buf len pos fixed) :
    Uncut buf len pos count := by
  intro index _ start fixed hstart hname
  cases hstart with
  | here => exact absurd hname (h fixed)
  | next hname' => exact absurd hname' (h _)

/-- Reads that are all within the length, piece by piece. -/
theorem forall_range'_lt {start count : ℕ} (hcount : 0 < count) :
    (∀ i ∈ List.range' start count, i < len) ↔ start + count ≤ len := by
  constructor
  · intro h
    have hlast := h (start + (count - 1)) (by rw [List.mem_range'_1]; omega)
    omega
  · intro h i hi
    rw [List.mem_range'_1] at hi
    omega

/-- One pass of the loop over the answers reads within the length exactly when the fields of the
record fit and the rest of the loop does. -/
theorem parseAnswers_succ_reads_lt_iff {remaining an pos fixed : ℕ}
    (hskip : (skipName buf len pos).2 = some fixed) :
    (∀ i ∈ (parseAnswers buf len (remaining + 1) an pos).reads, i < len) ↔
      FieldsFit buf len fixed ∧ ∀ i ∈ (parseAnswers buf len remaining (an + 1)
        (fixed + 10 + (uint16At buf (fixed + 8)).toNat)).reads, i < len := by
  have hreads : ∀ i ∈ (skipName buf len pos).1, i < len := fun i hi ↦ lt_of_mem_skipName hi
  rw [parseAnswers]
  generalize skipName buf len pos = skipped at hreads hskip
  obtain ⟨reads, result⟩ := skipped
  obtain rfl : result = some fixed := hskip
  have hfields := @forall_range'_lt len fixed 10 (by decide)
  have haddress := @forall_range'_lt len (fixed + 10) 4 (by decide)
  rw [FieldsFit]
  by_cases hshown : uint16At buf fixed = dnsTypeA ∧ uint16At buf (fixed + 8) = 4
  · simp only [hshown, and_self, if_true, List.forall_mem_append, hfields, haddress,
      true_imp_iff, and_assoc]
    exact and_iff_right hreads
  · simp only [hshown, if_false, List.append_nil, List.forall_mem_append, hfields,
      false_imp_iff, and_true, and_assoc]
    exact and_iff_right hreads

/-- The loop over the answers reads within the length exactly when no record is cut off. -/
theorem parseAnswers_reads_lt_iff (remaining an pos : ℕ) :
    (∀ i ∈ (parseAnswers buf len remaining an pos).reads, i < len) ↔
      Uncut buf len pos remaining := by
  induction remaining generalizing an pos with
  | zero =>
    refine iff_of_true (fun i hi ↦ absurd hi List.not_mem_nil) ?_
    exact fun index hindex ↦ absurd hindex (Nat.not_lt_zero index)
  | succ remaining ih =>
    cases hskip : (skipName buf len pos).2 with
    | none =>
      have hreads : ∀ i ∈ (skipName buf len pos).1, i < len := fun i hi ↦ lt_of_mem_skipName hi
      have huncut : Uncut buf len pos (remaining + 1) := by
        refine uncut_of_no_name fun fixed hfixed ↦ ?_
        cases hskip.symm.trans (skipName_eq_some_iff.mpr hfixed)
      rw [parseAnswers]
      generalize skipName buf len pos = skipped at hreads hskip
      obtain ⟨reads, result⟩ := skipped
      obtain rfl : result = none := hskip
      exact iff_of_true hreads huncut
    | some fixed =>
      rw [parseAnswers_succ_reads_lt_iff hskip, uncut_succ_iff (skipName_eq_some_iff.mp hskip), ih]

/-- No announced record is cut off: where the header is received and has the expected ID, and the
question name ends, the fields of every announced record that can be reached fit. -/
def ResponseUncut (buf : ℕ → UInt8) (len : ℕ) (expectedId : UInt16) : Prop :=
  12 ≤ len → uint16At buf 0 = expectedId → ∀ last, NameEnd buf len 12 last →
    Uncut buf len (last + 4) (uint16At buf 6).toNat

/-- Every byte the parser reads has an index below the length exactly when no record is cut off. -/
theorem reads_lt_iff (buf : ℕ → UInt8) (len : ℕ) (expectedId : UInt16) :
    (∀ i ∈ (parseResponse buf len expectedId).reads, i < len) ↔
      ResponseUncut buf len expectedId := by
  rw [parseResponse]
  by_cases hheader : len < 12
  · rw [if_pos hheader]
    exact iff_of_true (fun i hi ↦ absurd hi List.not_mem_nil)
      (fun hlen ↦ absurd hlen (not_le.mpr hheader))
  rw [if_neg hheader]
  have htwelve : ∀ i ∈ List.range' 0 12, i < len := (forall_range'_lt (by decide)).mpr (by omega)
  by_cases hid : expectedId = (readHeader buf).id
  · rw [if_neg (not_not.mpr hid)]
    have hreads : ∀ i ∈ (skipName buf len 12).1, i < len := fun i hi ↦ lt_of_mem_skipName hi
    have hname := @skipName_eq_some_iff buf len 12
    generalize skipName buf len 12 = skipped at hreads hname
    obtain ⟨reads, result⟩ := skipped
    have hopening : ∀ i ∈ List.range' 0 12 ++ reads, i < len :=
      List.forall_mem_append.mpr ⟨htwelve, hreads⟩
    cases result with
    | none =>
      refine iff_of_true hopening fun _ _ last hlast ↦ ?_
      cases hname.mpr hlast
    | some pos =>
      rw [List.forall_mem_append, and_iff_right hopening, parseAnswers_reads_lt_iff]
      constructor
      · intro h _ _ last hlast
        obtain rfl := Option.some.inj (hname.mpr hlast)
        exact h
      · intro h
        exact h (not_lt.mp hheader) hid.symm pos (hname.mp rfl)
  · rw [if_pos hid]
    exact iff_of_true htwelve (fun _ hsame ↦ absurd hsame.symm hid)

/-- A header that announces one answer, a question and the owner name of the answer. -/
def cutOffResponse : Bytes := [0, 0, 0, 0, 0, 1, 0, 1, 0, 0, 0, 0, 0, 0, 1, 0, 1, 0]

/-- After the owner name at its end the parser reads on beyond the eighteen bytes received. -/
theorem not_reads_lt_cutOffResponse :
    ¬ ∀ i ∈ (parseResponse (overlay cutOffResponse fun _ ↦ 0) 18 0).reads, i < 18 := by
  decide +kernel

end DailyChallenge.Dns
