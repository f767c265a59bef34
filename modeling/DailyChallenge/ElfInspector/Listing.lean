import Mathlib
import DailyChallenge.ElfInspector.Image

/-!
# The inspector lists the image that a file holds

The members that the inspector loads are the fields that the encodings write (`FileHeader.loads` and
its likes). So each round of a loop prints the row of its entry, and a run prints the lines of the
image.
-/

set_option autoImplicit false
set_option relaxedAutoImplicit false

namespace DailyChallenge.ElfInspector

open Library

variable {file : Bytes}

/-! ### Loading encoded fields -/

section

variable (hsize : file.length < 2 ^ 63)
include hsize

/-- A number that is encoded at a member is loaded from it. -/
theorem load_of_standsAt {pointer : ℕ} {member : Member} {n : ℕ}
    (h : StandsAt file (pointer + member.offset) (littleEndian member.width n))
    (hwidth : 0 < member.width) (hn : n < 256 ^ member.width) :
    load file pointer member = some n := by
  have hload := h.readWord hwidth hn
  have hend := (readWord_eq_some_iff.mp hload).1
  unfold load advance
  rwa [Nat.mod_eq_of_lt (by omega)]

/-- A name in a string table is the string at its index. -/
theorem NameAt.load {strings : SectionHeader} {index : UInt32} {name : Bytes}
    (h : NameAt file strings index name) :
    loadString file (advance strings.offset.toNat index.toNat) = some name := by
  have htable := h.inFile
  have hindex := h.inTable
  unfold loadString advance
  rw [Nat.mod_eq_of_lt (by omega)]
  exact h.standsAt.cString h.noTerminator

theorem load_uint16 {pointer offset : ℕ} {n : UInt16}
    (h : StandsAt file (pointer + offset) (littleEndian 2 n.toNat)) :
    load file pointer ⟨offset, 2⟩ = some n.toNat :=
  load_of_standsAt hsize h (Nat.succ_pos _) n.toNat_lt

theorem load_uint32 {pointer offset : ℕ} {n : UInt32}
    (h : StandsAt file (pointer + offset) (littleEndian 4 n.toNat)) :
    load file pointer ⟨offset, 4⟩ = some n.toNat :=
  load_of_standsAt hsize h (Nat.succ_pos _) n.toNat_lt

theorem load_uint64 {pointer offset : ℕ} {n : UInt64}
    (h : StandsAt file (pointer + offset) (littleEndian 8 n.toNat)) :
    load file pointer ⟨offset, 8⟩ = some n.toNat :=
  load_of_standsAt hsize h (Nat.succ_pos _) n.toNat_lt

theorem FileHeader.loads {header : FileHeader} (h : StandsAt file 0 header.encode) :
    load file 0 ePhoff = some header.phoff.toNat ∧ load file 0 eShoff = some header.shoff.toNat ∧
      load file 0 ePhnum = some header.phnum.toNat ∧ load file 0 eShnum = some header.shnum.toNat ∧
      load file 0 eShstrndx = some header.shstrndx.toNat := by
  simp only [FileHeader.encode, standsAt_append, List.length_append, List.length_cons,
    List.length_nil, length_littleEndian, Vector.length_toList, Nat.reduceAdd, and_assoc] at h
  obtain ⟨-, -, -, -, -, -, hphoff, hshoff, -, -, -, hphnum, -, hshnum, hshstrndx⟩ := h
  exact ⟨load_uint64 hsize hphoff, load_uint64 hsize hshoff, load_uint16 hsize hphnum,
    load_uint16 hsize hshnum, load_uint16 hsize hshstrndx⟩

theorem SectionHeader.loads {pointer : ℕ} {header : SectionHeader}
    (h : StandsAt file pointer header.encode) :
    load file pointer shName = some header.name.toNat ∧
      load file pointer shType = some header.type.toNat ∧
      load file pointer shFlags = some header.flags.toNat ∧
      load file pointer shOffset = some header.offset.toNat ∧
      load file pointer shSize = some header.size.toNat ∧
      load file pointer shLink = some header.link.toNat ∧
      load file pointer shEntsize = some header.entsize.toNat := by
  simp only [SectionHeader.encode, standsAt_append, List.length_append, length_littleEndian,
    Nat.reduceAdd, and_assoc] at h
  obtain ⟨hname, htype, hflags, -, hoffset, hentries, hlink, -, -, hentsize⟩ := h
  exact ⟨load_uint32 hsize hname, load_uint32 hsize htype, load_uint64 hsize hflags,
    load_uint64 hsize hoffset, load_uint64 hsize hentries, load_uint32 hsize hlink,
    load_uint64 hsize hentsize⟩

theorem ProgramHeader.loads {pointer : ℕ} {header : ProgramHeader}
    (h : StandsAt file pointer header.encode) :
    load file pointer pType = some header.type.toNat ∧
      load file pointer pFlags = some header.flags.toNat ∧
      load file pointer pOffset = some header.offset.toNat ∧
      load file pointer pVaddr = some header.vaddr.toNat ∧
      load file pointer pFilesz = some header.filesz.toNat ∧
      load file pointer pMemsz = some header.memsz.toNat := by
  simp only [ProgramHeader.encode, standsAt_append, List.length_append, length_littleEndian,
    Nat.reduceAdd, and_assoc] at h
  obtain ⟨htype, hflags, hoffset, hvaddr, -, hfilesz, hmemsz, -⟩ := h
  exact ⟨load_uint32 hsize htype, load_uint32 hsize hflags, load_uint64 hsize hoffset,
    load_uint64 hsize hvaddr, load_uint64 hsize hfilesz, load_uint64 hsize hmemsz⟩

theorem Symbol.loads {pointer : ℕ} {symbol : Symbol} (h : StandsAt file pointer symbol.encode) :
    load file pointer stName = some symbol.name.toNat ∧
      load file pointer stInfo = some (16 * symbol.binding + symbol.type : ℕ) ∧
      load file pointer stValue = some symbol.value.toNat ∧
      load file pointer stSize = some symbol.size.toNat := by
  simp only [Symbol.encode, standsAt_append, List.length_append, length_littleEndian,
    Nat.reduceAdd, and_assoc] at h
  obtain ⟨hname, hinfo, -, -, hvalue, hentries⟩ := h
  have hbyte : (16 * symbol.binding + symbol.type : ℕ) < 256 ^ 1 := by omega
  exact ⟨load_uint32 hsize hname, load_of_standsAt hsize hinfo (by decide) hbyte,
    load_uint64 hsize hvalue, load_uint64 hsize hentries⟩

end

/-! ### Rounds -/

/-- The entry of a table in the file is where the loops look for it. -/
theorem entry_eq_of_standsAt (hsize : file.length < 2 ^ 63) {table size i : ℕ} {part : Bytes}
    (h : StandsAt file (table + size * i) part) (hpart : part ≠ []) :
    entry table size i = table + size * i := by
  have hend := h.le_length hpart
  exact Nat.mod_eq_of_lt (by omega)

theorem permissions_eq (flags : ℕ) :
    permissions flags = (if flags.testBit 2 then "r" else "-") ++
      (if flags.testBit 1 then "w" else "-") ++ (if flags.testBit 0 then "x" else "-") := by
  have hbit : ∀ i, flags &&& 2 ^ i ≠ 0 ↔ flags.testBit i := by
    intro i
    rw [Nat.and_two_pow]
    cases flags.testBit i <;> simp
  unfold permissions
  simp only [← hbit]
  rfl

/-- The binding and the type class of a symbol are the two halves of its `st_info`. -/
theorem Symbol.stBind_info (symbol : Symbol) :
    stBind (16 * symbol.binding + symbol.type) = symbol.binding := by
  rw [stBind, Nat.shiftRight_eq_div_pow]
  omega

theorem Symbol.sttTypeStr_info (symbol : Symbol) :
    sttTypeStr (stType (16 * symbol.binding + symbol.type)) = symbol.typeClass := by
  have htype : stType (16 * symbol.binding + symbol.type) = symbol.type := by
    rw [stType, Nat.and_two_pow_sub_one_eq_mod _ 4]
    omega
  rw [htype, Symbol.typeClass]
  generalize symbol.type = type
  revert type
  decide

/-- A loop over the entries of a table prints their rows. -/
theorem rowsFrom_of_entries {Entry : Type} {row : ℕ → Option (List Line)}
    {rows : Entry → ℕ → List Line} {entries : List Entry} {i : ℕ}
    (h : ∀ j entry, entries[j]? = some entry → row (i + j) = some (rows entry (i + j))) :
    rowsFrom row entries.length i =
      some ((entries.zipIdx i).flatMap fun numbered ↦ rows numbered.1 numbered.2) := by
  induction entries generalizing i with
  | nil => rfl
  | cons first rest ih =>
    have hrest := @ih (i + 1) fun j entry hentry ↦ by
      rw [add_right_comm, add_assoc]
      exact h (j + 1) entry hentry
    have hfirst : row i = some (rows first i) := h 0 first rfl
    rw [List.length_cons, rowsFrom, hrest, hfirst]
    rfl

/-- A loop over the entries of a table that prints one row for each. -/
theorem rowsFrom_mapIdx {Entry : Type} {row : ℕ → Option (List Line)} {line : ℕ → Entry → Line}
    {entries : List Entry}
    (h : ∀ j entry, entries[j]? = some entry → row j = some [line j entry]) :
    rowsFrom row entries.length 0 = some (entries.mapIdx line) := by
  have hrows := @rowsFrom_of_entries Entry row (fun entry j ↦ [line j entry]) entries 0
    fun j entry hentry ↦ by
      rw [zero_add]
      exact h j entry hentry
  rw [hrows, List.mapIdx_eq_zipIdx_map, List.map_eq_flatMap]

variable {image : Image}

section

variable (hsize : file.length < 2 ^ 63) (himage : image.LaidOut file)
include hsize himage

/-- The header of a section stands where the loops look for it. -/
theorem sectionHeader_standsAt {i : ℕ} {section_ : Section}
    (h : image.sections[i]? = some section_) :
    StandsAt file (entry image.header.shoff.toNat sizeofShdr i) section_.header.encode := by
  have hstands := standsAt_flatMap (fun section_ : Section ↦ section_.header.length_encode)
    himage.sectionTable i section_ h
  have hne : section_.header.encode ≠ [] := List.ne_nil_of_length_pos (by simp)
  rwa [sizeofShdr, entry_eq_of_standsAt hsize hstands hne]

/-- The header of a segment stands where the loop looks for it. -/
theorem programHeader_standsAt {i : ℕ} {segment : ProgramHeader}
    (h : image.segments[i]? = some segment) :
    StandsAt file (entry image.header.phoff.toNat sizeofPhdr i) segment.encode := by
  have hstands := standsAt_flatMap ProgramHeader.length_encode himage.programTable i segment h
  have hne : segment.encode ≠ [] := List.ne_nil_of_length_pos (by simp)
  rwa [sizeofPhdr, entry_eq_of_standsAt hsize hstands hne]

/-- The section loop prints the row of a section. -/
theorem sectionRow_eq {strings : Section}
    (hnames : ∀ section_ ∈ image.sections,
      NameAt file strings.header section_.header.name section_.sectionName)
    {i : ℕ} {section_ : Section} (h : image.sections[i]? = some section_) :
    sectionRow file image.header.shoff.toNat strings.header.offset.toNat i =
      some [section_.row i] := by
  obtain ⟨hname, htype, hflags, hoffset, hentries, -, -⟩ :=
    SectionHeader.loads hsize (sectionHeader_standsAt hsize himage h)
  have hstring := (hnames section_ (List.mem_of_getElem? h)).load hsize
  simp only [sectionRow, hname, htype, hflags, hoffset, hentries, hstring, Option.bind_eq_bind,
    Option.bind_some, Section.row]

/-- The program header loop prints the row of a segment. -/
theorem segmentRow_eq {i : ℕ} {segment : ProgramHeader} (h : image.segments[i]? = some segment) :
    segmentRow file image.header.phoff.toNat i = some [segment.row] := by
  obtain ⟨htype, hflags, hoffset, hvaddr, hfilesz, hmemsz⟩ :=
    ProgramHeader.loads hsize (programHeader_standsAt hsize himage h)
  simp only [segmentRow, htype, hflags, hoffset, hvaddr, hfilesz, hmemsz, Option.bind_eq_bind,
    Option.bind_some, ProgramHeader.row, permissions_eq]

end

/-- The symbol loop prints the row of a global symbol, and nothing for another one. -/
theorem symbolRow_eq (hsize : file.length < 2 ^ 63) {table strings : SectionHeader}
    {symbols : List Symbol}
    (hentries : StandsAt file table.offset.toNat (symbols.flatMap Symbol.encode))
    (hnames : ∀ symbol ∈ symbols, NameAt file strings symbol.name symbol.symbolName)
    {j : ℕ} {symbol : Symbol} (h : symbols[j]? = some symbol) :
    symbolRow file table.offset.toNat strings.offset.toNat j =
      some (if symbol.binding = 1 then [symbol.row] else []) := by
  have hstands := standsAt_flatMap Symbol.length_encode hentries j symbol h
  have hne : symbol.encode ≠ [] := List.ne_nil_of_length_pos (by simp)
  have hentry := entry_eq_of_standsAt hsize hstands hne
  obtain ⟨hname, hinfo, hvalue, hamount⟩ := Symbol.loads hsize hstands
  have hstring := (hnames symbol (List.mem_of_getElem? h)).load hsize
  simp only [symbolRow, sizeofSym, hentry, hname, hinfo, hvalue, hamount, hstring,
    Option.bind_eq_bind, Option.bind_some, symbol.stBind_info, symbol.sttTypeStr_info, stbGlobal]
  by_cases hglobal : symbol.binding = 1
  · rw [if_neg (by simp [hglobal]), if_pos hglobal]
    rfl
  · have hlocal : (symbol.binding : ℕ) ≠ 1 := fun hone ↦ hglobal (Fin.ext hone)
    rw [if_pos hlocal, if_neg hglobal]

/-! ### Loops -/

/-- The rows of the symbol loop are the global symbols. -/
theorem symbolRows_eq (hsize : file.length < 2 ^ 63) {table strings : SectionHeader}
    {symbols : List Symbol}
    (hentries : StandsAt file table.offset.toNat (symbols.flatMap Symbol.encode))
    (hnames : ∀ symbol ∈ symbols, NameAt file strings symbol.name symbol.symbolName) :
    rowsFrom (symbolRow file table.offset.toNat strings.offset.toNat) symbols.length 0 =
      some ((symbols.filter fun symbol ↦ symbol.binding = 1).map Symbol.row) := by
  have hglobals : ∀ symbols : List Symbol,
      (symbols.flatMap fun symbol ↦ if symbol.binding = 1 then [symbol.row] else []) =
        (symbols.filter fun symbol ↦ symbol.binding = 1).map Symbol.row := by
    intro symbols
    induction symbols with
    | nil => rfl
    | cons first rest ih =>
      rw [List.flatMap_cons, ih]
      by_cases hfirst : first.binding = 1
      · simp [hfirst]
      · simp [hfirst]
  have hrows := @rowsFrom_of_entries Symbol (symbolRow file table.offset.toNat strings.offset.toNat)
    (fun symbol _ ↦ if symbol.binding = 1 then [symbol.row] else []) symbols 0 fun j symbol h ↦ by
      rw [zero_add]
      exact symbolRow_eq hsize hentries hnames h
  rw [hrows, ← hglobals]
  conv_rhs => rw [← List.zipIdx_map_fst 0 symbols, List.flatMap_map]

section

variable (hsize : file.length < 2 ^ 63) (himage : image.LaidOut file)
include hsize himage

/-- The loop for symbol tables prints the lines of one. -/
theorem symtabRows_eq {i : ℕ} {table : Section} (h : image.sections[i]? = some table)
    (htype : table.header.type = 2) :
    symtabRows file image.header.shoff.toNat (entry image.header.shoff.toNat sizeofShdr i) =
      some table.symbolLines := by
  have hlaidOut := himage.symtabs table (List.mem_of_getElem? h) htype
  obtain ⟨strings, hstrings, hnames⟩ := hlaidOut.names
  obtain ⟨-, -, -, hoffset, hamount, hlink, hentsize⟩ :=
    SectionHeader.loads hsize (sectionHeader_standsAt hsize himage h)
  obtain ⟨-, -, -, hstrtab, -, -, -⟩ :=
    SectionHeader.loads hsize (sectionHeader_standsAt hsize himage hstrings)
  have hcount : table.header.size.toNat / 24 = table.symbols.length := by
    rw [hlaidOut.size]
    omega
  have hstride : table.header.entsize.toNat = 24 := by
    rw [hlaidOut.entsize]
    rfl
  simp only [symtabRows, hoffset, hamount, hlink, hentsize, hstrtab, hstride, hcount,
    symbolRows_eq hsize hlaidOut.entries hnames, Option.bind_eq_bind, Option.bind_some]
  rfl

/-- The loop for symbol tables prints the lines of those among the remaining sections, and the
notice when there is none among them and none before. -/
theorem symtabLoop_eq (remaining i : ℕ) (hend : i + remaining = image.sections.length)
    (foundSymtab : Bool) :
    symtabLoop file image.header.shoff.toNat remaining i foundSymtab =
      some (((image.sections.drop i).filter fun section_ ↦ section_.header.type = 2).flatMap
          Section.symbolLines ++
        if foundSymtab = true ∨
            ((image.sections.drop i).filter fun section_ ↦ section_.header.type = 2) ≠ []
          then [] else [Line.noSymtab]) := by
  induction remaining generalizing i foundSymtab with
  | zero =>
    rw [List.drop_of_length_le (by omega), symtabLoop]
    cases foundSymtab <;> rfl
  | succ remaining ih =>
    have hi : i < image.sections.length := by omega
    have hsection : image.sections[i]? = some image.sections[i] := List.getElem?_eq_getElem hi
    obtain ⟨-, htype, -⟩ := SectionHeader.loads hsize (sectionHeader_standsAt hsize himage hsection)
    rw [List.drop_eq_getElem_cons hi, symtabLoop]
    simp only [htype, Option.bind_eq_bind, Option.bind_some]
    by_cases hsymtab : image.sections[i].header.type = 2
    · have htypeNat : image.sections[i].header.type.toNat = shtSymtab := by
        rw [hsymtab]
        rfl
      rw [if_neg (not_not.mpr htypeNat), symtabRows_eq hsize himage hsection hsymtab,
        ih (i + 1) (by omega) true, List.filter_cons_of_pos (by simpa using hsymtab)]
      simp
    · have htypeNat : image.sections[i].header.type.toNat ≠ shtSymtab := fun h ↦
        hsymtab (UInt32.toNat_inj.mp h)
      rw [if_pos htypeNat, ih (i + 1) (by omega) foundSymtab,
        List.filter_cons_of_neg (by simpa using hsymtab)]

/-- A run on a file that holds an image prints the lines of the image. -/
theorem listing_eq : listing file = some image.lines := by
  obtain ⟨strings, hstrings, hnames⟩ := himage.names
  obtain ⟨hphoff, hshoff, hphnum, hshnum, hshstrndx⟩ := FileHeader.loads hsize himage.header
  obtain ⟨-, -, -, hshstrtab, -, -, -⟩ :=
    SectionHeader.loads hsize (sectionHeader_standsAt hsize himage hstrings)
  have hsections := rowsFrom_mapIdx fun j section_ h ↦
    (sectionRow_eq hsize himage hnames h : _ = some [Section.row j section_])
  have hsegments := rowsFrom_mapIdx fun j segment h ↦
    (segmentRow_eq hsize himage h : _ = some [(fun _ ↦ ProgramHeader.row) j segment])
  have hsymbols := symtabLoop_eq hsize himage image.sections.length 0 (zero_add _) false
  have hmap : image.segments.mapIdx (fun _ ↦ ProgramHeader.row) =
      image.segments.map ProgramHeader.row := by
    apply List.ext_getElem <;> simp
  simp only [listing, hphoff, hshoff, hphnum, hshnum, hshstrndx, hshstrtab, himage.shnum,
    himage.phnum, hsections, hsegments, hsymbols, hmap, Option.bind_eq_bind, Option.bind_some,
    List.drop_zero, Bool.false_eq_true, false_or, ite_not]
  rw [← List.append_assoc]
  rfl

end

/-- The checks of the file header accept an image. -/
theorem checkIdent_eq (himage : image.LaidOut file) : checkIdent file = some none := by
  have hident : StandsAt file 0 ([0x7f, 0x45, 0x4c, 0x46] ++ ([2] ++ [1])) := by
    refine List.IsPrefix.trans ?_ himage.header
    unfold FileHeader.encode
    simp only [List.append_assoc]
    exact List.prefix_append _ _
  rw [standsAt_append, standsAt_append] at hident
  obtain ⟨hmagic, hclass, hdata⟩ := hident
  have hmagicRead : readWord file 4 0 = some (ofLittleEndian [0x7f, 0x45, 0x4c, 0x46]) :=
    StandsAt.readWord hmagic (by decide) (by decide)
  have hclassRead : readWord file 1 4 = some 2 := StandsAt.readWord hclass (by decide) (by decide)
  have hdataRead : readWord file 1 5 = some 1 := StandsAt.readWord hdata (by decide) (by decide)
  simp [checkIdent, hmagicRead, hclassRead, hdataRead]

/-- The notice stands among the lines of an image when it has no symbol table. -/
theorem noSymtab_mem_lines : .noSymtab ∈ image.lines ↔
    ∀ section_ ∈ image.sections, section_.header.type ≠ 2 := by
  have hrows : .noSymtab ∉ image.symtabs.flatMap Section.symbolLines := by
    simp [Section.symbolLines, Symbol.row]
  have hsymtabs : image.symtabs = [] ↔ ∀ section_ ∈ image.sections, section_.header.type ≠ 2 := by
    simp [Image.symtabs, List.filter_eq_nil_iff]
  rw [← hsymtabs, Image.lines]
  by_cases hnone : image.symtabs = []
  · simp [hnone]
  · simp [hnone, hrows, Section.row, ProgramHeader.row]

/-- On every file that holds an image the inspector prints the lines of the image: a row for each
section, for each segment and for each global symbol of each symbol table, in their order. It prints
the notice exactly when no section is a symbol table. -/
theorem inspect_eq_lines (image : Image) (file : Bytes) (hsize : file.length < 2 ^ 63)
    (himage : image.LaidOut file) :
    inspect file = some (.inr image.lines) ∧
      (.noSymtab ∈ image.lines ↔ ∀ section_ ∈ image.sections, section_.header.type ≠ 2) := by
  refine ⟨?_, noSymtab_mem_lines⟩
  unfold inspect
  rw [checkIdent_eq himage, listing_eq hsize himage]
  rfl

theorem inspect_eq_lines_sampleImage :
    inspect sampleFile = some (.inr sampleImage.lines) ∧
      (.noSymtab ∈ sampleImage.lines ↔
        ∀ section_ ∈ sampleImage.sections, section_.header.type ≠ 2) :=
  inspect_eq_lines sampleImage sampleFile (by decide +kernel) sampleImage_laidOut

end DailyChallenge.ElfInspector
