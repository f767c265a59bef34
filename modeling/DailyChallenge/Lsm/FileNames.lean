import Mathlib
import DailyChallenge.Lsm.Store

/-!
# File names and their order

Path strings are injective in the file number at every number (`pathOf_sstableName_injective`).
Their lexicographic order is the order of the numbers as long as these have at most four digits
(`compare_sstablePath`), and file 10000 sorts below file 9999 (`compare_sstablePath_overflow`). File
`10 ^ 9` sorts below the file before it (`compare_sstablePath_nineDigits`), and from there on the
order is that of the numbers again (`compare_sstablePath_tenDigits`). `sortNewestFirst_eq`
identifies a sorted path vector from any list of the same paths in descending order, whatever the
order they came in.
-/

set_option autoImplicit false
set_option relaxedAutoImplicit false

namespace DailyChallenge.Lsm

open Library

/-- The path of the table of flush number `count`. -/
def sstablePath (dataDir : Bytes) (count : ℕ) : Bytes := pathOf dataDir (sstableName count)

/-- The number of files that four digits can number. -/
def fourDigitFiles : ℕ := 10000

/-! ### Opening what a path names -/

theorem pathOf_eq_append (dataDir name : Bytes) :
    pathOf dataDir name = pathOf dataDir [] ++ name := by
  simp [pathOf]

theorem pathOf_injective (dataDir : Bytes) : Function.Injective (pathOf dataDir) := by
  intro first second h
  simpa [pathOf] using h

@[simp] theorem dropPrefix?_pathOf (dataDir name : Bytes) :
    (pathOf dataDir name).dropPrefix? (pathOf dataDir []) = some name := by
  rw [pathOf_eq_append]
  exact List.dropPrefix?_append_of_beq name (beq_self_eq_true _)

@[simp] theorem DataDirectory.open?_pathOf (directory : DataDirectory) (dataDir name : Bytes) :
    directory.open? dataDir (pathOf dataDir name) = directory.files[name]? := by
  simp [DataDirectory.open?]

@[simp] theorem DataDirectory.write_pathOf (directory : DataDirectory)
    (dataDir name content : Bytes) :
    directory.write dataDir (pathOf dataDir name) content =
      ⟨directory.files.insert name content, pathOf dataDir name :: directory.written⟩ := by
  simp [DataDirectory.write]

/-- A flush that opens its file writes the next table, lists its path and empties the memtable. -/
theorem Store.flush_opened (store : Store) :
    store.flush true =
      { directory :=
          ⟨store.directory.files.insert (sstableName store.tree.sstableCount)
            (encodeTable store.tree.memtable),
            sstablePath store.tree.dataDir store.tree.sstableCount :: store.directory.written⟩
        tree :=
          { memtable := ∅
            dataDir := store.tree.dataDir
            sstableCount := store.tree.sstableCount + 1
            sstablePaths := sortNewestFirst (store.tree.sstablePaths ++
              [sstablePath store.tree.dataDir store.tree.sstableCount]) } } := by
  simp only [Store.flush, Store.writeSSTable, if_true, DataDirectory.write_pathOf, sstablePath]

/-! ### Names and numbers -/

/-- The characters of the digits are in the order of the digits. -/
theorem compare_digit : ∀ d < 10, ∀ e < 10,
    compare (UInt8.ofNat (48 + d)) (UInt8.ofNat (48 + e)) = compare d e := by
  decide

/-- Different numbers give different names, also past four digits. -/
theorem sstableName_injective : Function.Injective sstableName := by
  intro first second h
  simp only [sstableName, List.append_cancel_right_eq, List.append_cancel_left_eq] at h
  exact rendered_injective (by decide) _ compare_digit 4 h

theorem sstablePath_injective (dataDir : Bytes) : Function.Injective (sstablePath dataDir) :=
  (pathOf_injective dataDir).comp sstableName_injective

/-- Up to four digits, paths compare as the file numbers. -/
theorem compare_sstablePath (dataDir : Bytes) {first second : ℕ} (hfirst : first < fourDigitFiles)
    (hsecond : second < fourDigitFiles) :
    compare (sstablePath dataDir first) (sstablePath dataDir second) = compare first second := by
  rw [sstablePath, sstablePath, pathOf_eq_append, pathOf_eq_append dataDir (sstableName second),
    compare_append_left]
  exact compare_rendered (by decide) _ compare_digit _ _ (by decide) hfirst hsecond

/-- The first five-digit path sorts below the last four-digit one. -/
theorem compare_sstablePath_overflow (dataDir : Bytes) :
    compare (sstablePath dataDir fourDigitFiles) (sstablePath dataDir (fourDigitFiles - 1)) =
      .lt := by
  rw [sstablePath, sstablePath, pathOf_eq_append, pathOf_eq_append dataDir (sstableName (_ - 1)),
    compare_append_left]
  decide

/-- The number of files that nine digits can number. An `int` counts to no larger power of ten. -/
def nineDigitFiles : ℕ := 10 ^ 9

/-- Paths of numbers with ten digits compare as the file numbers again. -/
theorem compare_sstablePath_tenDigits (dataDir : Bytes) {first second : ℕ}
    (hfirst : nineDigitFiles ≤ first) (hfirst' : first < 10 * nineDigitFiles)
    (hsecond : nineDigitFiles ≤ second) (hsecond' : second < 10 * nineDigitFiles) :
    compare (sstablePath dataDir first) (sstablePath dataDir second) = compare first second := by
  have hlength : ∀ number, nineDigitFiles ≤ number → number < 10 * nineDigitFiles →
      (padded 10 4 number).length = 10 := fun number hlow hhigh ↦
    length_padded_of_le (by decide) (by decide) hlow hhigh
  rw [sstablePath, sstablePath, pathOf_eq_append, pathOf_eq_append dataDir (sstableName second),
    compare_append_left]
  apply compare_rendered_of_length (by decide) _ compare_digit
  rw [hlength first hfirst hfirst', hlength second hsecond hsecond']

/-- The first ten-digit path sorts below the last nine-digit one. -/
theorem compare_sstablePath_nineDigits (dataDir : Bytes) :
    compare (sstablePath dataDir (nineDigitFiles - 1)) (sstablePath dataDir nineDigitFiles) =
      .gt := by
  rw [sstablePath, sstablePath, pathOf_eq_append,
    pathOf_eq_append dataDir (sstableName nineDigitFiles), compare_append_left]
  decide

/-! ### The sorted path vector -/

/-- The relation `std::greater<>` sorts by: the first path is not below the second. -/
def NotBelow (first second : Bytes) : Prop := (compare first second).isGE = true

instance : DecidableRel NotBelow := fun first second ↦
  inferInstanceAs (Decidable ((compare first second).isGE = true))

instance : Std.Total NotBelow where
  total first second := by
    unfold NotBelow
    rw [Std.OrientedCmp.isGE_iff_isLE]
    cases h : compare second first <;> simp_all [Std.OrientedCmp.gt_iff_lt]

instance : IsTrans Bytes NotBelow where
  trans _ _ _ := Std.TransCmp.isGE_trans

instance : Std.Antisymm NotBelow where
  antisymm _ _ hfirst hsecond :=
    Std.LawfulEqOrd.eq_of_compare
      (Ordering.eq_eq_of_isLE_of_isGE (Std.OrientedCmp.isGE_iff_isLE.mp hsecond) hfirst)

theorem sortNewestFirst_perm (paths : List Bytes) : (sortNewestFirst paths).Perm paths :=
  List.perm_insertionSort NotBelow paths

theorem sortNewestFirst_pairwise (paths : List Bytes) :
    (sortNewestFirst paths).Pairwise NotBelow :=
  List.pairwise_insertionSort NotBelow paths

/-- Sorting gives the one descending arrangement of its input. -/
theorem sortNewestFirst_eq {paths sorted : List Bytes} (hperm : sorted.Perm paths)
    (hsorted : sorted.Pairwise NotBelow) : sortNewestFirst paths = sorted :=
  List.Perm.eq_of_pairwise' (sortNewestFirst_pairwise paths) hsorted
    ((sortNewestFirst_perm paths).trans hperm.symm)

/-- Inputs that are permutations of each other are sorted alike. -/
theorem sortNewestFirst_congr {first second : List Bytes} (h : first.Perm second) :
    sortNewestFirst first = sortNewestFirst second :=
  sortNewestFirst_eq ((sortNewestFirst_perm second).trans h.symm) (sortNewestFirst_pairwise second)

/-- The paths of the first `count` flushes, latest first. -/
def flushedPaths (dataDir : Bytes) (count : ℕ) : List Bytes :=
  (List.range count).reverse.map (sstablePath dataDir)

theorem flushedPaths_succ (dataDir : Bytes) (count : ℕ) :
    flushedPaths dataDir (count + 1) = sstablePath dataDir count :: flushedPaths dataDir count := by
  simp [flushedPaths, List.range_succ]

theorem mem_flushedPaths {dataDir path : Bytes} {count : ℕ} :
    path ∈ flushedPaths dataDir count ↔ ∃ number < count, sstablePath dataDir number = path := by
  simp [flushedPaths]

theorem nodup_flushedPaths (dataDir : Bytes) (count : ℕ) : (flushedPaths dataDir count).Nodup :=
  (List.nodup_reverse.mpr List.nodup_range).map (sstablePath_injective dataDir)

/-- As long as four digits number the files, flush order is descending order. -/
theorem flushedPaths_pairwise {dataDir : Bytes} {count : ℕ} (h : count ≤ fourDigitFiles) :
    (flushedPaths dataDir count).Pairwise NotBelow := by
  induction count with
  | zero => exact List.Pairwise.nil
  | succ count ih =>
    rw [flushedPaths_succ]
    refine List.pairwise_cons.mpr ⟨fun path hpath ↦ ?_, ih (by omega)⟩
    obtain ⟨number, hnumber, rfl⟩ := mem_flushedPaths.mp hpath
    rw [NotBelow, compare_sstablePath dataDir (by omega) (by omega), Nat.compare_eq_gt.mpr hnumber]
    rfl

/-- Past four digits flush order is not descending order: file 10000 comes before file 9999. -/
theorem flushedPaths_not_pairwise {dataDir : Bytes} {count : ℕ} (h : fourDigitFiles < count) :
    ¬ (flushedPaths dataDir count).Pairwise NotBelow := by
  induction count with
  | zero => omega
  | succ count ih =>
    rw [flushedPaths_succ, List.pairwise_cons]
    rintro ⟨hhead, htail⟩
    rcases Nat.lt_or_ge fourDigitFiles count with hlater | hfirst
    · exact ih hlater htail
    · obtain rfl : count = fourDigitFiles := by omega
      have hover := hhead _ (mem_flushedPaths.mpr ⟨fourDigitFiles - 1, by decide, rfl⟩)
      rw [NotBelow, compare_sstablePath_overflow] at hover
      exact Bool.false_ne_true hover

end DailyChallenge.Lsm
