import Mathlib
import DailyChallenge.ElfInspector.Bounds

/-!
# Which entries of a symbol table are examined

The symbol loop takes the number of entries from `sh_entsize` and their distance from
`sizeof(Elf64_Sym)`. `symbolEntries` lists the entries it goes through (`symtabRows_eq_mapM`), and
`symbolsInSection_iff` says for which headers they are the entries of the section.
-/

set_option autoImplicit false
set_option relaxedAutoImplicit false

namespace DailyChallenge.ElfInspector

open Library

section

variable (file : Bytes)

/-- The entries `&syms[j]` of the symbol loop, one after the other, for the table of a header. -/
def symbolEntries (sh : ℕ) : List ℕ :=
  (List.range (value file sh shSize / value file sh shEntsize)).map
    (entry (value file sh shOffset) sizeofSym)

/-- The entries that the loop examines lie inside the section, and each starts `sh_entsize` bytes
after the one before. -/
structure SymbolsInSection (sh : ℕ) : Prop where
  inside : ∀ sym ∈ symbolEntries file sh, value file sh shOffset ≤ sym ∧
    sym + sizeofSym ≤ value file sh shOffset + value file sh shSize
  apart : (symbolEntries file sh).IsChain fun sym next ↦ next = sym + value file sh shEntsize

/-- The body of the symbol loop for the entry at a pointer. -/
def symbolAt (strtab sym : ℕ) : Option (List Line) := do
  let info ← load file sym stInfo
  if stBind info ≠ stbGlobal then some []
  else
    let name ← loadString file (advance strtab (← load file sym stName))
    let value ← load file sym stValue
    let size ← load file sym stSize
    some [.symbol name (sttTypeStr (stType info)) value size]

end

variable {file : Bytes}

/-! ### The loop goes through these entries -/

/-- The rows of a loop, index by index. -/
theorem rowsFrom_eq_mapM (row : ℕ → Option (List Line)) (remaining i : ℕ) :
    rowsFrom row remaining i = ((List.range' i remaining).mapM row).map List.flatten := by
  induction remaining generalizing i with
  | zero => rfl
  | succ remaining ih =>
    rw [rowsFrom, List.range'_succ, List.mapM_cons, ih]
    cases row i with
    | none => rfl
    | some first => cases (List.range' (i + 1) remaining).mapM row <;> rfl

/-- What the inspector does with a symbol table, entry by entry. -/
theorem symtabRows_eq_mapM {shdrs sh strtab : ℕ} (hsize : file.length < 2 ^ 63)
    (hheader : sh + 64 ≤ file.length) (hentsize : value file sh shEntsize ≠ 0)
    (hstrtab : load file (entry shdrs sizeofShdr (value file sh shLink)) shOffset = some strtab) :
    symtabRows file shdrs sh = ((symbolEntries file sh).mapM (symbolAt file strtab)).map
      fun rows ↦ .symbolHeadings :: rows.flatten := by
  have hload : ∀ member : Member, member.offset + member.width ≤ 64 →
      load file sh member = some (value file sh member) := by
    intro member hmember
    refine load_eq_some_iff.mpr ⟨?_, rfl⟩
    rw [Holds, advance]
    omega
  have hentries : (symbolEntries file sh).mapM (symbolAt file strtab) =
      (List.range' 0 (value file sh shSize / value file sh shEntsize)).mapM
        (symbolRow file (value file sh shOffset) strtab) := by
    rw [symbolEntries, List.range_eq_range', List.mapM_map]
    rfl
  rw [symtabRows, hload shEntsize (by decide), Option.bind_eq_bind, Option.bind_some,
    if_neg hentsize, hload shLink (by decide), Option.bind_eq_bind, Option.bind_some, hstrtab,
    Option.bind_some, hload shSize (by decide), Option.bind_some, hload shOffset (by decide),
    Option.bind_some, rowsFrom_eq_mapM, hentries]
  cases (List.range' 0 (value file sh shSize / value file sh shEntsize)).mapM
    (symbolRow file (value file sh shOffset) strtab) <;> rfl

/-! ### Which headers they fit -/

/-- The entries by their index. -/
theorem forall_mem_symbolEntries {sh : ℕ} {property : ℕ → Prop} :
    (∀ sym ∈ symbolEntries file sh, property sym) ↔
      ∀ j < value file sh shSize / value file sh shEntsize,
        property (entry (value file sh shOffset) sizeofSym j) := by
  simp [symbolEntries]

/-- Their distances by their index. -/
theorem isChain_symbolEntries {sh : ℕ} {related : ℕ → ℕ → Prop} :
    (symbolEntries file sh).IsChain related ↔
      ∀ j < value file sh shSize / value file sh shEntsize - 1,
        related (entry (value file sh shOffset) sizeofSym j)
          (entry (value file sh shOffset) sizeofSym (j + 1)) := by
  rw [symbolEntries, List.isChain_map, List.isChain_range]

/-- The first two entries show the distance. -/
theorem entsize_eq_of_apart {offset entsize : ℕ} (hoffset : offset < 2 ^ 63)
    (h : entry offset sizeofSym 1 = entry offset sizeofSym 0 + entsize) : entsize = sizeofSym := by
  simp only [entry, advance, sizeofSym] at h ⊢
  omega

/-- Entries that start below `2 ^ 64`. -/
theorem entry_eq_add {offset j : ℕ} (h : offset + sizeofSym * j < 2 ^ 64) :
    entry offset sizeofSym j = offset + sizeofSym * j := by
  rw [entry, advance, Nat.mod_eq_of_lt h]

/-- What the entries of a section fit in. -/
theorem end_le_of_fits {size entsize j : ℕ} (hentsize : entsize ≠ 0)
    (hfits : size < entsize ∨ entsize = sizeofSym ∨ (size / entsize = 1 ∧ sizeofSym ≤ size))
    (hj : j < size / entsize) : sizeofSym * j + sizeofSym ≤ size := by
  rcases hfits with hshort | rfl | ⟨hone, hlong⟩
  · rw [Nat.div_eq_of_lt hshort] at hj
    exact absurd hj (Nat.not_lt_zero j)
  · have hmul := (Nat.le_div_iff_mul_le (Nat.pos_of_ne_zero hentsize)).mp hj
    rwa [Nat.succ_mul, mul_comm] at hmul
  · obtain rfl : j = 0 := by omega
    rwa [mul_zero, zero_add]

/-- Entries that lie in their section, each `sh_entsize` bytes after the one before, fit. -/
theorem fits_of_entries {offset size entsize : ℕ} (hentsize : entsize ≠ 0)
    (hsize : offset + size < 2 ^ 63)
    (hinside : ∀ j < size / entsize, offset ≤ entry offset sizeofSym j ∧
      entry offset sizeofSym j + sizeofSym ≤ offset + size)
    (hapart : ∀ j < size / entsize - 1,
      entry offset sizeofSym (j + 1) = entry offset sizeofSym j + entsize) :
    size < entsize ∨ entsize = sizeofSym ∨ (size / entsize = 1 ∧ sizeofSym ≤ size) := by
  rcases Nat.lt_trichotomy (size / entsize) 1 with hnone | hone | hmore
  · exact Or.inl (Nat.lt_of_div_eq_zero (Nat.pos_of_ne_zero hentsize) (Nat.lt_one_iff.mp hnone))
  · have hfirst := hinside 0 (by omega)
    rw [entry_eq_add (by omega)] at hfirst
    exact Or.inr (Or.inr ⟨hone, by omega⟩)
  · exact Or.inr (Or.inl (entsize_eq_of_apart (by omega) (hapart 0 (by omega))))

/-- The entries examined are the entries of the section exactly when `sh_entsize` is the size of an
`Elf64_Sym`, or the section is shorter than `sh_entsize`, or it holds one entry of that size and is
long enough for an `Elf64_Sym`. -/
theorem symbolsInSection_iff (file : MappedFile) (sh : ℕ)
    (hentsize : value file.content sh shEntsize ≠ 0)
    (hinside : value file.content sh shOffset + value file.content sh shSize ≤
      file.content.length) :
    SymbolsInSection file.content sh ↔
      value file.content sh shSize < value file.content sh shEntsize ∨
      value file.content sh shEntsize = sizeofSym ∨
      (value file.content sh shSize / value file.content sh shEntsize = 1 ∧
        sizeofSym ≤ value file.content sh shSize) := by
  have hlength := file.size_lt
  constructor
  · rintro ⟨hentries, hapart⟩
    rw [forall_mem_symbolEntries] at hentries
    rw [isChain_symbolEntries] at hapart
    exact fits_of_entries hentsize (by omega) hentries hapart
  · intro hfits
    have hend := fun j ↦ @end_le_of_fits _ _ j hentsize hfits
    constructor
    case inside =>
      rw [forall_mem_symbolEntries]
      intro j hj
      have hlast := hend j hj
      rw [entry_eq_add (by omega)]
      omega
    case apart =>
      rw [isChain_symbolEntries]
      intro j hj
      have hlast := hend (j + 1) (by omega)
      rw [entry_eq_add (by omega), entry_eq_add (by rw [mul_add] at hlast; omega), mul_add, mul_one,
        ← add_assoc]
      -- there are two entries, so the section has the size of its entries from `sh_entsize`
      rcases hfits with hshort | hequal | ⟨hone, -⟩
      · rw [Nat.div_eq_of_lt hshort] at hj
        omega
      · rw [hequal]
      · omega

/-- The symbol table of the small image. -/
theorem symbolsInSection_sampleFile :
    SymbolsInSection sampleFile 248 ↔
      value sampleFile 248 shSize < value sampleFile 248 shEntsize ∨
      value sampleFile 248 shEntsize = sizeofSym ∨
      (value sampleFile 248 shSize / value sampleFile 248 shEntsize = 1 ∧
        sizeofSym ≤ value sampleFile 248 shSize) :=
  symbolsInSection_iff ⟨sampleFile, by decide +kernel⟩ 248 (by decide +kernel) (by decide +kernel)

/-- The small image with an `sh_entsize` of 12 for its symbol table. -/
def halvedFile : MappedFile :=
  ⟨sampleFile.take 304 ++ littleEndian 8 12 ++ sampleFile.drop 312, by decide +kernel⟩

/-- The inspector lists it, and examines a second symbol that is behind the table. -/
theorem not_symbolsInSection_halvedFile : ¬ ∀ (file : MappedFile) (sh : ℕ),
    (inspect file.content).isSome → value file.content sh shType = shtSymtab →
      value file.content sh shEntsize ≠ 0 →
      value file.content sh shOffset + value file.content sh shSize ≤ file.content.length →
      SymbolsInSection file.content sh := by
  intro h
  have hsymbols := h halvedFile 248 (by decide +kernel) (by decide +kernel) (by decide +kernel)
    (by decide +kernel)
  have hsecond : 336 ∈ symbolEntries halvedFile.content 248 := by decide +kernel
  have hend :
      value halvedFile.content 248 shOffset + value halvedFile.content 248 shSize = 336 := by
    decide +kernel
  have hlast := (hsymbols.inside 336 hsecond).2
  rw [hend] at hlast
  exact absurd hlast (by decide)

end DailyChallenge.ElfInspector
