import Mathlib
import DailyChallenge.Library.ByteFields

/-!
# The inspector of `12-elf-inspector/main.c`

The mapping is the content of the file, and `base` is its start: a pointer is its distance from
`base` modulo `2 ^ 64`, so pointer arithmetic wraps. Every access is to a field of a structure of
`elf.h` or to a string, and it has no result where one of its bytes lies at or beyond `st_size`; a
run has no result from its first such access on. What is printed is a list of lines with the data
each `printf` is given, and `Line.text` is the text.

Opening, `fstat` and `mmap` and their messages are left out.
-/

set_option autoImplicit false
set_option relaxedAutoImplicit false

namespace DailyChallenge.ElfInspector

open Library

/-! ### The structures of `elf.h` -/

/-- A member of a structure: where it starts and how many bytes it has. -/
structure Member where
  offset : ℕ
  width : ℕ

def ePhoff : Member := ⟨32, 8⟩
def eShoff : Member := ⟨40, 8⟩
def ePhnum : Member := ⟨56, 2⟩
def eShnum : Member := ⟨60, 2⟩
def eShstrndx : Member := ⟨62, 2⟩

def shName : Member := ⟨0, 4⟩
def shType : Member := ⟨4, 4⟩
def shFlags : Member := ⟨8, 8⟩
def shOffset : Member := ⟨24, 8⟩
def shSize : Member := ⟨32, 8⟩
def shLink : Member := ⟨40, 4⟩
def shEntsize : Member := ⟨56, 8⟩

def pType : Member := ⟨0, 4⟩
def pFlags : Member := ⟨4, 4⟩
def pOffset : Member := ⟨8, 8⟩
def pVaddr : Member := ⟨16, 8⟩
def pFilesz : Member := ⟨32, 8⟩
def pMemsz : Member := ⟨40, 8⟩

def stName : Member := ⟨0, 4⟩
def stInfo : Member := ⟨4, 1⟩
def stValue : Member := ⟨8, 8⟩
def stSize : Member := ⟨16, 8⟩

/-- `sizeof(Elf64_Shdr)`, `sizeof(Elf64_Phdr)` and `sizeof(Elf64_Sym)`. -/
def sizeofShdr : ℕ := 64
def sizeofPhdr : ℕ := 56
def sizeofSym : ℕ := 24

def shtSymtab : ℕ := 2
def stbGlobal : ℕ := 1

/-- `ELF64_ST_BIND`. -/
def stBind (info : ℕ) : ℕ := info >>> 4

/-- `ELF64_ST_TYPE`. -/
def stType (info : ℕ) : ℕ := info &&& 0xf

/-- A pointer moved by some bytes. -/
def advance (pointer bytes : ℕ) : ℕ := (pointer + bytes) % 2 ^ 64

/-- `&table[i]` for entries of a size. -/
def entry (table size i : ℕ) : ℕ := advance table (size * i)

/-- `pointer->member`. -/
def load (file : Bytes) (pointer : ℕ) (member : Member) : Option ℕ :=
  readWord file member.width (advance pointer member.offset)

/-- The string that `%s` prints for a pointer. -/
def loadString (file : Bytes) (pointer : ℕ) : Option Bytes := cString (file.drop pointer)

/-! ### Output -/

def shTypeStr : ℕ → String
  | 0 => "NULL"
  | 1 => "PROGBITS"
  | 2 => "SYMTAB"
  | 3 => "STRTAB"
  | 4 => "RELA"
  | 5 => "HASH"
  | 6 => "DYNAMIC"
  | 7 => "NOTE"
  | 8 => "NOBITS"
  | 9 => "REL"
  | 11 => "DYNSYM"
  | _ => "OTHER"

def ptTypeStr : ℕ → String
  | 0 => "NULL"
  | 1 => "LOAD"
  | 2 => "DYNAMIC"
  | 3 => "INTERP"
  | 4 => "NOTE"
  | 6 => "PHDR"
  | 7 => "TLS"
  | _ => "OTHER"

/-- `type_str` of the symbol loop. -/
def sttTypeStr (stype : ℕ) : String :=
  if stype = 2 then "FUNC"
  else if stype = 1 then "OBJECT"
  else if stype = 0 then "NOTYPE"
  else "OTHER"

/-- The `flags` array of the program header loop, `PF_R`, `PF_W` and `PF_X` in this order. -/
def permissions (pflags : ℕ) : String :=
  (if pflags &&& 4 ≠ 0 then "r" else "-") ++ (if pflags &&& 2 ≠ 0 then "w" else "-") ++
    (if pflags &&& 1 ≠ 0 then "x" else "-")

/-- What one or more `printf` calls print. -/
inductive Line
  | sectionHeadings
  | section (idx : ℕ) (name : Bytes) (type offset size flags : ℕ)
  | programHeadings
  | segment (type vaddr offset filesz memsz : ℕ) (flags : String)
  | symbolTitle
  | symbolHeadings
  | symbol (name : Bytes) (type : String) (value size : ℕ)
  | noSymtab
deriving DecidableEq

/-- Text as the bytes of its encoding. -/
def utf8 (text : String) : Bytes := text.toList.flatMap String.utf8EncodeChar

/-- `%-<width>s`. -/
def leftAligned (width : ℕ) (text : Bytes) : Bytes :=
  text ++ List.replicate (width - text.length) 32

/-- `%<width>lu`. -/
def decimal (width n : ℕ) : Bytes :=
  let digits := (Nat.toDigits 10 n).map fun c ↦ UInt8.ofNat c.toNat
  List.replicate (width - digits.length) 32 ++ digits

/-- `0x%0<width>lx`. -/
def hexadecimal (width n : ℕ) : Bytes :=
  let digits := (Nat.toDigits 16 n).map fun c ↦ UInt8.ofNat c.toNat
  utf8 "0x" ++ List.replicate (width - digits.length) 48 ++ digits

def Line.text : Line → Bytes
  | .sectionHeadings =>
    utf8 "=== Section Headers ===\n" ++ utf8 "[idx] " ++ leftAligned 20 (utf8 "Name") ++ utf8 " " ++
      leftAligned 10 (utf8 "Type") ++ utf8 " " ++ leftAligned 10 (utf8 "Offset") ++ utf8 " " ++
      leftAligned 8 (utf8 "Size") ++ utf8 " flags\n"
  | .section idx name type offset size flags =>
    utf8 "[" ++ decimal 3 idx ++ utf8 "] " ++ leftAligned 20 name ++ utf8 " " ++
      leftAligned 10 (utf8 (shTypeStr type)) ++ utf8 " " ++ hexadecimal 8 offset ++ utf8 " " ++
      decimal 8 size ++ utf8 "  " ++ hexadecimal 0 flags ++ utf8 "\n"
  | .programHeadings =>
    utf8 "\n=== Program Headers ===\n" ++ leftAligned 10 (utf8 "Type") ++ utf8 " " ++
      leftAligned 18 (utf8 "VAddr") ++ utf8 " " ++ leftAligned 10 (utf8 "Offset") ++ utf8 " " ++
      leftAligned 8 (utf8 "FileSz") ++ utf8 " " ++ leftAligned 8 (utf8 "MemSz") ++ utf8 " flags\n"
  | .segment type vaddr offset filesz memsz flags =>
    leftAligned 10 (utf8 (ptTypeStr type)) ++ utf8 " " ++ hexadecimal 16 vaddr ++ utf8 " " ++
      hexadecimal 8 offset ++ utf8 " " ++ decimal 8 filesz ++ utf8 " " ++ decimal 8 memsz ++
      utf8 "  " ++ utf8 flags ++ utf8 "\n"
  | .symbolTitle => utf8 "\n=== Symbol Table (.symtab — globals only) ===\n"
  | .symbolHeadings =>
    leftAligned 40 (utf8 "Name") ++ utf8 " " ++ leftAligned 8 (utf8 "Bind") ++ utf8 " " ++
      leftAligned 8 (utf8 "Type") ++ utf8 " " ++ leftAligned 18 (utf8 "Value") ++ utf8 " size\n"
  | .symbol name type value size =>
    leftAligned 40 name ++ utf8 " GLOBAL   " ++ leftAligned 8 (utf8 type) ++ utf8 " " ++
      hexadecimal 16 value ++ utf8 " " ++ decimal 0 size ++ utf8 "\n"
  | .noSymtab => utf8 "no .symtab found\n"

example : (Line.section 1 (utf8 ".text") 1 4096 12 6).text =
    utf8 "[  1] .text                PROGBITS   0x00001000       12  0x6\n" := by
  decide

/-! ### The three loops -/

/-- The rows of a loop from index `i` on. -/
def rowsFrom (row : ℕ → Option (List Line)) : (remaining i : ℕ) → Option (List Line)
  | 0, _ => some []
  | remaining + 1, i => do
    let first ← row i
    let rest ← rowsFrom row remaining (i + 1)
    some (first ++ rest)

/-- The body of the loop over the section headers. -/
def sectionRow (file : Bytes) (shdrs shstrtabData i : ℕ) : Option (List Line) := do
  let sh := entry shdrs sizeofShdr i
  let name ← loadString file (advance shstrtabData (← load file sh shName))
  let type ← load file sh shType
  let offset ← load file sh shOffset
  let size ← load file sh shSize
  let flags ← load file sh shFlags
  some [.section i name type offset size flags]

/-- The body of the loop over the program headers. -/
def segmentRow (file : Bytes) (phdrs i : ℕ) : Option (List Line) := do
  let ph := entry phdrs sizeofPhdr i
  let flags ← load file ph pFlags
  let type ← load file ph pType
  let vaddr ← load file ph pVaddr
  let offset ← load file ph pOffset
  let filesz ← load file ph pFilesz
  let memsz ← load file ph pMemsz
  some [.segment type vaddr offset filesz memsz (permissions flags)]

/-- The body of the loop over the symbols of a table. -/
def symbolRow (file : Bytes) (syms strtab j : ℕ) : Option (List Line) := do
  let sym := entry syms sizeofSym j
  let info ← load file sym stInfo
  if stBind info ≠ stbGlobal then some []
  else
    let name ← loadString file (advance strtab (← load file sym stName))
    let value ← load file sym stValue
    let size ← load file sym stSize
    some [.symbol name (sttTypeStr (stType info)) value size]

/-- What the loop for symbol tables does with one of them. -/
def symtabRows (file : Bytes) (shdrs sh : ℕ) : Option (List Line) := do
  let entsize ← load file sh shEntsize
  if entsize = 0 then some []
  else
    let link ← load file sh shLink
    let strtab ← load file (entry shdrs sizeofShdr link) shOffset
    let size ← load file sh shSize
    let syms ← load file sh shOffset
    let rows ← rowsFrom (symbolRow file syms strtab) (size / entsize) 0
    some (.symbolHeadings :: rows)

/-- The loop for symbol tables from section `i` on, with `found_symtab`, and the notice after it. -/
def symtabLoop (file : Bytes) (shdrs : ℕ) : (remaining i : ℕ) → (foundSymtab : Bool) →
    Option (List Line)
  | 0, _, foundSymtab => some (if foundSymtab then [] else [Line.noSymtab])
  | remaining + 1, i, foundSymtab => do
    let sh := entry shdrs sizeofShdr i
    if (← load file sh shType) ≠ shtSymtab then
      symtabLoop file shdrs remaining (i + 1) foundSymtab
    else
      let rows ← symtabRows file shdrs sh
      let rest ← symtabLoop file shdrs remaining (i + 1) true
      some (rows ++ rest)

/-! ### The inspector -/

/-- The checks of the file header that end a run. -/
inductive Refusal
  | notElf
  | not64Bit
  | notLittleEndian
deriving DecidableEq

/-- What a refusal prints to `stderr`. -/
def Refusal.message : Refusal → String
  | .notElf => "Not an ELF file\n"
  | .not64Bit => "Not a 64-bit ELF\n"
  | .notLittleEndian => "Not little-endian ELF\n"

/-- The checks of `e_ident`: nothing is refused, or the first check that fails. -/
def checkIdent (file : Bytes) : Option (Option Refusal) := do
  let magic ← readWord file 4 0
  if magic ≠ ofLittleEndian [0x7f, 0x45, 0x4c, 0x46] then some (some .notElf)
  else
    let elfClass ← readWord file 1 4
    if elfClass ≠ 2 then some (some .not64Bit)
    else
      let data ← readWord file 1 5
      if data ≠ 1 then some (some .notLittleEndian) else some none

/-- What the inspector lists after the checks. -/
def listing (file : Bytes) : Option (List Line) := do
  let shdrs ← load file 0 eShoff
  let phdrs ← load file 0 ePhoff
  let shstrndx ← load file 0 eShstrndx
  let shstrtabData ← load file (entry shdrs sizeofShdr shstrndx) shOffset
  let shnum ← load file 0 eShnum
  let sections ← rowsFrom (sectionRow file shdrs shstrtabData) shnum 0
  let phnum ← load file 0 ePhnum
  let segments ← rowsFrom (segmentRow file phdrs) phnum 0
  let symbols ← symtabLoop file shdrs shnum 0 false
  some ([Line.sectionHeadings] ++ sections ++ [Line.programHeadings] ++ segments ++
    [Line.symbolTitle] ++ symbols)

/-- `main` on a mapped file: a refusal, or the lines printed. -/
def inspect (file : Bytes) : Option (Refusal ⊕ List Line) := do
  match ← checkIdent file with
  | some refusal => some (.inl refusal)
  | none => some (.inr (← listing file))

/-- The exit status and the bytes on `stdout`. -/
def exitStatus : Refusal ⊕ List Line → ℕ
  | .inl _ => 1
  | .inr _ => 0

def stdout : Refusal ⊕ List Line → Bytes
  | .inl _ => []
  | .inr lines => lines.flatMap Line.text

end DailyChallenge.ElfInspector
