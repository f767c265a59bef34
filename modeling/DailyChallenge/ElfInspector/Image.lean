import Mathlib
import DailyChallenge.ElfInspector.Inspect

/-!
# ELF64 images

An image has a file header, named sections and segments; a symbol table has named symbols. The
encodings write the fields of each structure one after the other, in the order and with the widths
of the ELF64 format. `Image.LaidOut` says that a file holds an image: the tables stand where the
file header says, the names in the string tables that `e_shstrndx` and `sh_link` select, the symbols
in their sections. Where in the file that is, and what else is in the file, is free.

`Image.lines` is what there is to list of an image.
-/

set_option autoImplicit false
set_option relaxedAutoImplicit false

namespace DailyChallenge.ElfInspector

open Library

/-! ### Structures and their encodings -/

/-- `Elf64_Ehdr` of a 64-bit little-endian file, with what follows the data encoding in
`e_ident`. -/
structure FileHeader where
  ident : Vector UInt8 10
  type : UInt16
  machine : UInt16
  version : UInt32
  entry : UInt64
  phoff : UInt64
  shoff : UInt64
  flags : UInt32
  ehsize : UInt16
  phentsize : UInt16
  phnum : UInt16
  shentsize : UInt16
  shnum : UInt16
  shstrndx : UInt16

def FileHeader.encode (header : FileHeader) : Bytes :=
  [0x7f, 0x45, 0x4c, 0x46, 2, 1] ++ header.ident.toList ++ littleEndian 2 header.type.toNat ++
    littleEndian 2 header.machine.toNat ++ littleEndian 4 header.version.toNat ++
    littleEndian 8 header.entry.toNat ++ littleEndian 8 header.phoff.toNat ++
    littleEndian 8 header.shoff.toNat ++ littleEndian 4 header.flags.toNat ++
    littleEndian 2 header.ehsize.toNat ++ littleEndian 2 header.phentsize.toNat ++
    littleEndian 2 header.phnum.toNat ++ littleEndian 2 header.shentsize.toNat ++
    littleEndian 2 header.shnum.toNat ++ littleEndian 2 header.shstrndx.toNat

/-- `Elf64_Shdr`. -/
structure SectionHeader where
  name : UInt32
  type : UInt32
  flags : UInt64
  addr : UInt64
  offset : UInt64
  size : UInt64
  link : UInt32
  info : UInt32
  addralign : UInt64
  entsize : UInt64

def SectionHeader.encode (header : SectionHeader) : Bytes :=
  littleEndian 4 header.name.toNat ++ littleEndian 4 header.type.toNat ++
    littleEndian 8 header.flags.toNat ++ littleEndian 8 header.addr.toNat ++
    littleEndian 8 header.offset.toNat ++ littleEndian 8 header.size.toNat ++
    littleEndian 4 header.link.toNat ++ littleEndian 4 header.info.toNat ++
    littleEndian 8 header.addralign.toNat ++ littleEndian 8 header.entsize.toNat

/-- `Elf64_Phdr`. -/
structure ProgramHeader where
  type : UInt32
  flags : UInt32
  offset : UInt64
  vaddr : UInt64
  paddr : UInt64
  filesz : UInt64
  memsz : UInt64
  align : UInt64

def ProgramHeader.encode (header : ProgramHeader) : Bytes :=
  littleEndian 4 header.type.toNat ++ littleEndian 4 header.flags.toNat ++
    littleEndian 8 header.offset.toNat ++ littleEndian 8 header.vaddr.toNat ++
    littleEndian 8 header.paddr.toNat ++ littleEndian 8 header.filesz.toNat ++
    littleEndian 8 header.memsz.toNat ++ littleEndian 8 header.align.toNat

/-- `Elf64_Sym`, with the name that `st_name` stands for. The binding is in the high four bits of
`st_info` and the type in the low four. -/
structure Symbol where
  symbolName : Bytes
  name : UInt32
  binding : Fin 16
  type : Fin 16
  other : UInt8
  shndx : UInt16
  value : UInt64
  size : UInt64

def Symbol.encode (symbol : Symbol) : Bytes :=
  littleEndian 4 symbol.name.toNat ++ littleEndian 1 (16 * symbol.binding + symbol.type) ++
    littleEndian 1 symbol.other.toNat ++ littleEndian 2 symbol.shndx.toNat ++
    littleEndian 8 symbol.value.toNat ++ littleEndian 8 symbol.size.toNat

/-- A section: its header, the name that `sh_name` stands for, and for a symbol table its
symbols. -/
structure Section where
  header : SectionHeader
  sectionName : Bytes
  symbols : List Symbol

structure Image where
  header : FileHeader
  sections : List Section
  segments : List ProgramHeader

@[simp] theorem FileHeader.length_encode (header : FileHeader) : header.encode.length = 64 := by
  simp [FileHeader.encode]

@[simp] theorem SectionHeader.length_encode (header : SectionHeader) :
    header.encode.length = 64 := by
  simp [SectionHeader.encode]

@[simp] theorem ProgramHeader.length_encode (header : ProgramHeader) :
    header.encode.length = 56 := by
  simp [ProgramHeader.encode]

@[simp] theorem Symbol.length_encode (symbol : Symbol) : symbol.encode.length = 24 := by
  simp [Symbol.encode]

/-! ### Files that hold an image -/

/-- A string table inside the file has a terminated name at an index. -/
structure NameAt (file : Bytes) (strings : SectionHeader) (index : UInt32) (name : Bytes) :
    Prop where
  inFile : strings.offset.toNat + strings.size.toNat ≤ file.length
  inTable : index.toNat + name.length < strings.size.toNat
  noTerminator : 0 ∉ name
  standsAt : StandsAt file (strings.offset.toNat + index.toNat) (name ++ [0])

instance (bytes : Bytes) (pos : ℕ) (part : Bytes) : Decidable (StandsAt bytes pos part) :=
  inferInstanceAs (Decidable (part <+: bytes.drop pos))

instance (file : Bytes) (strings : SectionHeader) (index : UInt32) (name : Bytes) :
    Decidable (NameAt file strings index name) :=
  decidable_of_iff
    (strings.offset.toNat + strings.size.toNat ≤ file.length ∧
      index.toNat + name.length < strings.size.toNat ∧ 0 ∉ name ∧
      StandsAt file (strings.offset.toNat + index.toNat) (name ++ [0]))
    ⟨fun ⟨hfile, htable, hzero, hstands⟩ ↦ ⟨hfile, htable, hzero, hstands⟩,
      fun h ↦ ⟨h.inFile, h.inTable, h.noTerminator, h.standsAt⟩⟩

/-- A symbol table inside the file, with its entries and their names. -/
structure Section.SymbolsLaidOut (table : Section) (sections : List Section) (file : Bytes) :
    Prop where
  entsize : table.header.entsize = 24
  size : table.header.size.toNat = 24 * table.symbols.length
  inFile : table.header.offset.toNat + table.header.size.toNat ≤ file.length
  entries : StandsAt file table.header.offset.toNat (table.symbols.flatMap Symbol.encode)
  names : ∃ strings, sections[table.header.link.toNat]? = some strings ∧
    ∀ symbol ∈ table.symbols, NameAt file strings.header symbol.name symbol.symbolName

/-- A file holds an image. Without segments, as in an object file, the size of a program header
entry may be anything. -/
structure Image.LaidOut (image : Image) (file : Bytes) : Prop where
  header : StandsAt file 0 image.header.encode
  shentsize : image.header.shentsize = 64
  phentsize : image.segments ≠ [] → image.header.phentsize = 56
  shnum : image.header.shnum.toNat = image.sections.length
  shnum_pos : 0 < image.header.shnum
  shnum_lt : image.header.shnum < 0xff00
  phnum : image.header.phnum.toNat = image.segments.length
  sectionTable : StandsAt file image.header.shoff.toNat
    (image.sections.flatMap fun section_ ↦ section_.header.encode)
  programTable : StandsAt file image.header.phoff.toNat
    (image.segments.flatMap ProgramHeader.encode)
  names : ∃ strings, image.sections[image.header.shstrndx.toNat]? = some strings ∧
    ∀ section_ ∈ image.sections,
      NameAt file strings.header section_.header.name section_.sectionName
  symtabs : ∀ table ∈ image.sections, table.header.type = 2 →
    table.SymbolsLaidOut image.sections file

/-! ### What there is to list -/

/-- The row of section `idx`. -/
def Section.row (idx : ℕ) (section_ : Section) : Line :=
  .section idx section_.sectionName section_.header.type.toNat section_.header.offset.toNat
    section_.header.size.toNat section_.header.flags.toNat

/-- The row of a segment. Bits 2, 1 and 0 of the flags permit to read, to write and to execute. -/
def ProgramHeader.row (segment : ProgramHeader) : Line :=
  .segment segment.type.toNat segment.vaddr.toNat segment.offset.toNat segment.filesz.toNat
    segment.memsz.toNat
    ((if segment.flags.toNat.testBit 2 then "r" else "-") ++
      (if segment.flags.toNat.testBit 1 then "w" else "-") ++
      (if segment.flags.toNat.testBit 0 then "x" else "-"))

/-- The type class of a symbol. -/
def Symbol.typeClass (symbol : Symbol) : String :=
  match symbol.type with
  | 0 => "NOTYPE"
  | 1 => "OBJECT"
  | 2 => "FUNC"
  | _ => "OTHER"

def Symbol.row (symbol : Symbol) : Line :=
  .symbol symbol.symbolName symbol.typeClass symbol.value.toNat symbol.size.toNat

/-- The symbol tables of an image, in the order of the sections. -/
def Image.symtabs (image : Image) : List Section :=
  image.sections.filter fun section_ ↦ section_.header.type = 2

/-- The heading and the global symbols of a symbol table, in the order of the table. -/
def Section.symbolLines (table : Section) : List Line :=
  .symbolHeadings :: (table.symbols.filter fun symbol ↦ symbol.binding = 1).map Symbol.row

def Image.lines (image : Image) : List Line :=
  [Line.sectionHeadings] ++ image.sections.mapIdx Section.row ++
    [Line.programHeadings] ++ image.segments.map ProgramHeader.row ++
    [Line.symbolTitle] ++ image.symtabs.flatMap Section.symbolLines ++
    (if image.symtabs = [] then [Line.noSymtab] else [])

/-! ### A small image -/

/-- A segment, a symbol table with one symbol, and a string table for all names. -/
def sampleImage : Image where
  header :=
    { ident := Vector.replicate 10 0, type := 2, machine := 62, version := 1, entry := 0
      phoff := 64, shoff := 120, flags := 0, ehsize := 64, phentsize := 56, phnum := 1
      shentsize := 64, shnum := 3, shstrndx := 1 }
  sections :=
    [{ header := ⟨0, 0, 0, 0, 0, 0, 0, 0, 0, 0⟩, sectionName := [], symbols := [] },
      { header := ⟨1, 3, 0, 0, 336, 22, 0, 0, 1, 0⟩, sectionName := utf8 ".strtab", symbols := [] },
      { header := ⟨9, 2, 0, 0, 312, 24, 1, 0, 8, 24⟩, sectionName := utf8 ".symtab"
        symbols := [⟨utf8 "main", 17, 1, 2, 0, 0, 4096, 12⟩] }]
  segments := [⟨1, 5, 0, 0, 0, 358, 358, 4096⟩]

/-- A file that holds the small image. -/
def sampleFile : Bytes :=
  sampleImage.header.encode ++ sampleImage.segments.flatMap ProgramHeader.encode ++
    (sampleImage.sections.flatMap fun section_ ↦ section_.header.encode) ++
    (sampleImage.sections.flatMap fun section_ ↦ section_.symbols.flatMap Symbol.encode) ++
    [0] ++ utf8 ".strtab" ++ [0] ++ utf8 ".symtab" ++ [0] ++ utf8 "main" ++ [0]

theorem sampleImage_laidOut : sampleImage.LaidOut sampleFile where
  header := by decide +kernel
  shentsize := rfl
  phentsize := fun _ ↦ rfl
  shnum := rfl
  shnum_pos := by decide
  shnum_lt := by decide
  phnum := rfl
  sectionTable := by decide +kernel
  programTable := by decide +kernel
  names := ⟨_, rfl, by decide +kernel⟩
  symtabs := by
    intro table htable htype
    have hlast : table = sampleImage.sections[2] := by
      simp only [sampleImage, List.mem_cons, List.not_mem_nil, or_false] at htable
      rcases htable with rfl | rfl | rfl
      · exact absurd htype (by decide)
      · exact absurd htype (by decide)
      · rfl
    rw [hlast]
    exact ⟨rfl, rfl, by decide +kernel, by decide +kernel, ⟨_, rfl, by decide +kernel⟩⟩

end DailyChallenge.ElfInspector
