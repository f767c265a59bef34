import Mathlib
import DailyChallenge.ElfInspector.Image

/-!
# Which files are inspected within their size

The inspector trusts every offset, count and index it finds. `Enclosed` says of a file that the
parts which its own headers point at lie inside it: the file header, the part of each header entry
that is used, the names up to their terminators, and the symbols. `isSome_inspect_iff_enclosed`
shows that the inspector stays below `st_size` on exactly these files. Nothing in the source
compares an offset with `st_size`, so every other file takes it out of the mapping.
-/

set_option autoImplicit false
set_option relaxedAutoImplicit false

namespace DailyChallenge.ElfInspector

open Library

/-- The content of a mapped file. `st_size` is a signed 64-bit number. -/
structure MappedFile where
  content : Bytes
  size_lt : content.length < 2 ^ 63

section

variable (file : Bytes)

/-- What the bytes of a member hold, as far as they exist. -/
def value (pointer : ℕ) (member : Member) : ℕ :=
  wordAt file member.width (advance pointer member.offset)

/-- The header of section `i`. -/
def sectionHeader (i : ℕ) : ℕ := entry (value file 0 eShoff) sizeofShdr i

/-- The header of segment `i`. -/
def programHeader (i : ℕ) : ℕ := entry (value file 0 ePhoff) sizeofPhdr i

/-- The start of section `i` in the file. -/
def sectionData (i : ℕ) : ℕ := value file (sectionHeader file i) shOffset

/-- A string in a string table has its terminator inside the file. -/
def Terminated (strtab name : ℕ) : Prop := 0 ∈ file.drop (advance strtab name)

/-- A symbol inside the file: its `st_info`, and when it is global all of it and its name. -/
def SymbolEnclosed (strtab sym : ℕ) : Prop :=
  advance sym 4 < file.length ∧
    (stBind (value file sym stInfo) = stbGlobal →
      sym + 24 ≤ file.length ∧ Terminated file strtab (value file sym stName))

/-- A symbol table inside the file: its header, and when its entries have a size also the field of
its string table's header that is used, and its symbols. -/
def SymtabEnclosed (sh : ℕ) : Prop :=
  sh + 64 ≤ file.length ∧
    (value file sh shEntsize ≠ 0 →
      advance (sectionHeader file (value file sh shLink)) 24 + 8 ≤ file.length ∧
      ∀ j < value file sh shSize / value file sh shEntsize,
        SymbolEnclosed file (sectionData file (value file sh shLink))
          (entry (value file sh shOffset) sizeofSym j))

/-- Whatever the headers of a file point at lies inside the file. -/
structure Enclosed : Prop where
  fileHeader : 64 ≤ file.length
  nameTable : advance (sectionHeader file (value file 0 eShstrndx)) 24 + 8 ≤ file.length
  sections : ∀ i < value file 0 eShnum, sectionHeader file i + 40 ≤ file.length ∧
    Terminated file (sectionData file (value file 0 eShstrndx))
      (value file (sectionHeader file i) shName)
  segments : ∀ i < value file 0 ePhnum, programHeader file i + 48 ≤ file.length
  symtabs : ∀ i < value file 0 eShnum, value file (sectionHeader file i) shType = shtSymtab →
    SymtabEnclosed file (sectionHeader file i)

end

variable {file : Bytes}

/-! ### Accesses -/

/-- A member inside the file. -/
def Holds (file : Bytes) (pointer : ℕ) (member : Member) : Prop :=
  advance pointer member.offset + member.width ≤ file.length

/-- A member has a value when it is inside the file. -/
theorem load_eq_some_iff {pointer : ℕ} {member : Member} {n : ℕ} :
    load file pointer member = some n ↔
      Holds file pointer member ∧ value file pointer member = n := readWord_eq_some_iff

/-- A string can be read when its terminator is inside the file. -/
theorem exists_loadString_iff (strtab name : ℕ) :
    (∃ string, loadString file (advance strtab name) = some string) ↔
      Terminated file strtab name := by
  rw [← Option.isSome_iff_exists]
  exact isSome_cString_iff _

/-- A computation in two parts has a result when the parts have. -/
theorem isSome_bind_iff {α β : Type} (computation : Option α) (next : α → Option β) :
    (computation >>= next).isSome ↔ ∃ a, computation = some a ∧ (next a).isSome := by
  cases computation with
  | none => simp
  | some a => simp

/-- Rows followed by more rows. -/
theorem isSome_append (first rest : Option (List Line)) :
    (first >>= fun rows ↦ rest >>= fun more ↦ some (rows ++ more)).isSome ↔
      first.isSome ∧ rest.isSome := by
  simp only [isSome_bind_iff, Option.isSome_some, and_true, exists_and_right,
    ← Option.isSome_iff_exists]

/-- The first of some rounds from `i` on, and the others. -/
theorem forall_rounds_succ {remaining i : ℕ} {property : ℕ → Prop} :
    (∀ j < remaining + 1, property (i + j)) ↔
      property i ∧ ∀ j < remaining, property (i + 1 + j) := by
  rw [Nat.forall_lt_succ_left, add_zero]
  refine and_congr_right fun _ ↦ forall₂_congr fun j _ ↦ ?_
  rw [← add_assoc, add_right_comm]

/-- A loop has rows when each of its rounds has. -/
theorem isSome_rowsFrom (row : ℕ → Option (List Line)) (remaining i : ℕ) :
    (rowsFrom row remaining i).isSome ↔ ∀ j < remaining, (row (i + j)).isSome := by
  induction remaining generalizing i with
  | zero => simp [rowsFrom]
  | succ remaining ih =>
    rw [@forall_rounds_succ remaining i fun i ↦ (row i).isSome, ← ih (i + 1)]
    exact isSome_append _ _

theorem entry_lt (table size i : ℕ) : entry table size i < 2 ^ 64 := Nat.mod_lt _ (by norm_num)

/-! ### The loops -/

section

variable (hsize : file.length < 2 ^ 63)
include hsize

/-- The section loop gets past a header whose first 40 bytes are in the file, and its name. -/
theorem isSome_sectionRow (shdrs shstrtabData i : ℕ) :
    (sectionRow file shdrs shstrtabData i).isSome ↔
      entry shdrs sizeofShdr i + 40 ≤ file.length ∧
        Terminated file shstrtabData (value file (entry shdrs sizeofShdr i) shName) := by
  have hentry := entry_lt shdrs sizeofShdr i
  simp only [sectionRow, isSome_bind_iff, load_eq_some_iff, and_assoc, exists_and_left,
    exists_eq_left', exists_and_right, exists_eq', exists_loadString_iff, Option.isSome_some,
    and_true]
  rw [and_left_comm, and_comm]
  refine and_congr_left fun _ ↦ ?_
  simp only [Holds, advance, shName, shType, shFlags, shOffset, shSize]
  omega

/-- The program header loop gets past a header whose first 48 bytes are in the file. -/
theorem isSome_segmentRow (phdrs i : ℕ) :
    (segmentRow file phdrs i).isSome ↔ entry phdrs sizeofPhdr i + 48 ≤ file.length := by
  have hentry := entry_lt phdrs sizeofPhdr i
  simp only [segmentRow, isSome_bind_iff, load_eq_some_iff, and_assoc, exists_and_left,
    exists_eq_left', exists_eq', Option.isSome_some, and_true]
  simp only [Holds, advance, pType, pFlags, pOffset, pVaddr, pFilesz, pMemsz]
  omega

/-- The symbol loop gets past a symbol that is enclosed. -/
theorem isSome_symbolRow (syms strtab j : ℕ) :
    (symbolRow file syms strtab j).isSome ↔
      SymbolEnclosed file strtab (entry syms sizeofSym j) := by
  have hentry := entry_lt syms sizeofSym j
  simp only [symbolRow, SymbolEnclosed, isSome_bind_iff, load_eq_some_iff, and_assoc,
    exists_and_left, exists_eq_left']
  refine and_congr ?_ ?_
  · exact Iff.rfl
  · by_cases hglobal : stBind (value file (entry syms sizeofSym j) stInfo) = stbGlobal
    · rw [if_neg (not_not.mpr hglobal)]
      simp only [isSome_bind_iff, load_eq_some_iff, and_assoc, exists_and_left, exists_eq_left',
        exists_and_right, exists_eq', exists_loadString_iff, Option.isSome_some, and_true, hglobal,
        true_imp_iff]
      rw [and_left_comm, and_comm]
      refine and_congr_left fun _ ↦ ?_
      simp only [Holds, advance, stName, stValue, stSize]
      omega
    · rw [if_pos hglobal]
      exact iff_of_true rfl fun h ↦ absurd h hglobal

/-- The loop for symbol tables gets past one that is enclosed. -/
theorem isSome_symtabRows {sh : ℕ} (hsh : sh + 8 ≤ file.length) :
    (symtabRows file (value file 0 eShoff) sh).isSome ↔ SymtabEnclosed file sh := by
  have hheader : Holds file sh shEntsize ↔ sh + 64 ≤ file.length := by
    simp only [Holds, advance, shEntsize]
    omega
  simp only [symtabRows, SymtabEnclosed, isSome_bind_iff, load_eq_some_iff, and_assoc,
    exists_and_left, exists_eq_left', hheader]
  refine and_congr_right fun hfull ↦ ?_
  by_cases hentsize : value file sh shEntsize = 0
  · rw [if_pos hentsize]
    exact iff_of_true rfl fun h ↦ absurd hentsize h
  · have hlink : Holds file sh shLink := by
      simp only [Holds, advance, shLink]
      omega
    have hfields : Holds file sh shSize ∧ Holds file sh shOffset := by
      simp only [Holds, advance, shSize, shOffset]
      omega
    rw [if_neg hentsize]
    simp only [isSome_bind_iff, load_eq_some_iff, and_assoc, exists_and_left, exists_eq_left',
      hlink, hfields.1, hfields.2, true_and, Option.isSome_some, and_true,
      ← Option.isSome_iff_exists, isSome_rowsFrom, isSome_symbolRow hsize, zero_add]
    refine Iff.trans ?_ (imp_iff_right hentsize).symm
    exact Iff.rfl

/-- The loop for symbol tables gets past section headers with a type when the symbol tables among
them are enclosed. -/
theorem isSome_symtabLoop (remaining i : ℕ) (foundSymtab : Bool)
    (hheaders : ∀ j < remaining, sectionHeader file (i + j) + 8 ≤ file.length) :
    (symtabLoop file (value file 0 eShoff) remaining i foundSymtab).isSome ↔
      ∀ j < remaining, value file (sectionHeader file (i + j)) shType = shtSymtab →
        SymtabEnclosed file (sectionHeader file (i + j)) := by
  induction remaining generalizing i foundSymtab with
  | zero => simp [symtabLoop]
  | succ remaining ih =>
    obtain ⟨hheader, hheaders⟩ :=
      (@forall_rounds_succ _ _ fun i ↦ sectionHeader file i + 8 ≤ file.length).mp hheaders
    rw [@forall_rounds_succ remaining i fun i ↦
      value file (sectionHeader file i) shType = shtSymtab →
        SymtabEnclosed file (sectionHeader file i)]
    have htype : Holds file (sectionHeader file i) shType := by
      have hlt : sectionHeader file i < 2 ^ 64 := entry_lt _ _ _
      simp only [Holds, advance, shType]
      omega
    have hfold : entry (value file 0 eShoff) sizeofShdr i = sectionHeader file i := rfl
    simp only [symtabLoop, hfold, isSome_bind_iff, load_eq_some_iff, exists_eq_left', htype,
      true_and]
    by_cases hsymtab : value file (sectionHeader file i) shType = shtSymtab
    · rw [if_neg (not_not.mpr hsymtab), imp_iff_right hsymtab, ← isSome_symtabRows hsize hheader,
        ← ih (i + 1) true hheaders]
      exact isSome_append _ _
    · rw [if_pos hsymtab, ih (i + 1) foundSymtab hheaders]
      exact (and_iff_right fun h ↦ absurd h hsymtab).symm

/-- The inspector lists a file when whatever its headers point at lies inside it. -/
theorem isSome_listing : (listing file).isSome ↔ Enclosed file := by
  have hheader : (Holds file 0 eShoff ∧ Holds file 0 ePhoff ∧ Holds file 0 eShstrndx ∧
      Holds file 0 eShnum ∧ Holds file 0 ePhnum) ↔ 64 ≤ file.length := by
    simp only [Holds, advance, eShoff, ePhoff, eShstrndx, eShnum, ePhnum]
    omega
  simp only [listing, isSome_bind_iff, load_eq_some_iff, and_assoc, exists_and_left,
    exists_eq_left', exists_and_right, Option.isSome_some, and_true, ← Option.isSome_iff_exists,
    isSome_rowsFrom, isSome_sectionRow hsize, isSome_segmentRow hsize, zero_add]
  constructor
  · rintro ⟨hshoff, hphoff, hshstrndx, hnameTable, hshnum, hsections, hphnum, hsegments, hsymtabs⟩
    have htypes : ∀ j < value file 0 eShnum, sectionHeader file (0 + j) + 8 ≤ file.length := by
      intro j hj
      have hextent := (hsections j hj).1
      rw [zero_add, sectionHeader]
      omega
    rw [isSome_symtabLoop hsize _ _ _ htypes] at hsymtabs
    simp only [zero_add] at hsymtabs
    exact ⟨hheader.mp ⟨hshoff, hphoff, hshstrndx, hshnum, hphnum⟩, hnameTable, hsections,
      hsegments, hsymtabs⟩
  · intro h
    have htypes : ∀ j < value file 0 eShnum, sectionHeader file (0 + j) + 8 ≤ file.length := by
      intro j hj
      have hextent := (h.sections j hj).1
      rw [zero_add]
      omega
    obtain ⟨hshoff, hphoff, hshstrndx, hshnum, hphnum⟩ := hheader.mpr h.fileHeader
    refine ⟨hshoff, hphoff, hshstrndx, h.nameTable, hshnum, h.sections, hphnum, h.segments, ?_⟩
    rw [isSome_symtabLoop hsize _ _ _ htypes]
    simp only [zero_add]
    exact h.symtabs

end

/-- On a file that passes the checks, the inspector stays below `st_size` exactly when whatever the
headers of the file point at lies inside it. -/
theorem isSome_inspect_iff_enclosed (file : MappedFile)
    (haccepted : checkIdent file.content = some none) :
    (inspect file.content).isSome ↔ Enclosed file.content := by
  rw [← isSome_listing file.size_lt]
  unfold inspect
  rw [haccepted]
  exact Bool.eq_iff_iff.mp (by cases listing file.content <;> rfl)

theorem isSome_inspect_iff_enclosed_sampleFile :
    (inspect sampleFile).isSome ↔ Enclosed sampleFile :=
  isSome_inspect_iff_enclosed ⟨sampleFile, by decide +kernel⟩ (by decide +kernel)

/-- The small image cut off after its file header passes the checks and takes the inspector past
the end. -/
theorem inspect_leaves_truncated_file :
    ¬ ∀ file : MappedFile, checkIdent file.content = some none → (inspect file.content).isSome := by
  intro h
  have hsome := h ⟨sampleFile.take 64, by decide +kernel⟩ (by decide +kernel)
  have hnone : inspect (sampleFile.take 64) = none := by decide +kernel
  rw [hnone] at hsome
  exact Bool.false_ne_true hsome

end DailyChallenge.ElfInspector
