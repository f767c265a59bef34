import Mathlib
import DailyChallenge.Library.ByteCodec

/-!
# Numbers and strings inside a byte string

`readWord` reads a little-endian number from a position and has no result where one of its bytes
lies beyond the end; `wordAt` is the number in the bytes that are there. `cString` is the string up
to the first zero byte. `StandsAt bytes pos part` says that `part` stands in `bytes` from a position
on: it splits along appends, encoded numbers that stand somewhere are read back there
(`StandsAt.readWord`), and so are terminated strings (`StandsAt.cString`).
-/

set_option autoImplicit false
set_option relaxedAutoImplicit false

namespace DailyChallenge.Library

/-! ### Reading -/

/-- The number in `width` bytes from a position, as far as they exist. -/
def wordAt (bytes : Bytes) (width pos : ℕ) : ℕ := ofLittleEndian ((bytes.drop pos).take width)

/-- The number in `width` bytes from a position, where they all exist. -/
def readWord (bytes : Bytes) (width pos : ℕ) : Option ℕ :=
  if pos + width ≤ bytes.length then some (wordAt bytes width pos) else none

/-- The bytes before the first zero byte, where there is one. -/
def cString : Bytes → Option Bytes
  | [] => none
  | byte :: rest => if byte = 0 then some [] else (cString rest).map (byte :: ·)

theorem readWord_eq_some_iff {bytes : Bytes} {width pos value : ℕ} :
    readWord bytes width pos = some value ↔
      pos + width ≤ bytes.length ∧ wordAt bytes width pos = value := by
  unfold readWord
  by_cases h : pos + width ≤ bytes.length
  · rw [if_pos h, Option.some_inj, and_iff_right h]
  · rw [if_neg h]
    exact iff_of_false nofun fun hand ↦ h hand.1

/-- Reading a string succeeds where a zero byte follows. -/
theorem isSome_cString_iff (bytes : Bytes) : (cString bytes).isSome ↔ 0 ∈ bytes := by
  induction bytes with
  | nil => simp [cString]
  | cons byte rest ih =>
    rw [cString, List.mem_cons]
    by_cases hbyte : byte = 0
    · simp [hbyte]
    · rw [if_neg hbyte, Option.isSome_map, ih]
      exact (or_iff_right (Ne.symm hbyte)).symm

/-- The string before a zero byte, when it has none itself. -/
theorem cString_append_zero {name : Bytes} (hname : 0 ∉ name) (rest : Bytes) :
    cString (name ++ 0 :: rest) = some name := by
  induction name with
  | nil => rfl
  | cons byte name ih =>
    rw [List.mem_cons, not_or] at hname
    rw [List.cons_append, cString, if_neg (Ne.symm hname.1), ih hname.2]
    rfl

/-! ### Parts that stand somewhere -/

/-- A part stands in some bytes from a position on. -/
def StandsAt (bytes : Bytes) (pos : ℕ) (part : Bytes) : Prop := part <+: bytes.drop pos

section

variable {bytes : Bytes} {pos : ℕ}

/-- A part that stands somewhere, piece by piece. -/
theorem standsAt_append {first second : Bytes} :
    StandsAt bytes pos (first ++ second) ↔
      StandsAt bytes pos first ∧ StandsAt bytes (pos + first.length) second := by
  unfold StandsAt
  rw [← List.drop_drop]
  constructor
  · intro h
    obtain ⟨rest, hrest⟩ := h
    rw [List.append_assoc] at hrest
    refine ⟨⟨second ++ rest, hrest⟩, ?_⟩
    rw [← hrest, List.drop_left]
    exact List.prefix_append second rest
  · rintro ⟨⟨rest, hrest⟩, hsecond⟩
    rw [← hrest, List.drop_left] at hsecond
    rw [← hrest]
    exact (List.prefix_append_right_inj first).mpr hsecond

/-- A part that stands somewhere ends before the bytes do. -/
theorem StandsAt.le_length {part : Bytes} (h : StandsAt bytes pos part) (hpart : part ≠ []) :
    pos + part.length ≤ bytes.length := by
  have hlength := h.length_le
  have hpos := List.length_pos_of_ne_nil hpart
  rw [List.length_drop] at hlength
  omega

/-- An encoded number is read back where it stands. -/
theorem StandsAt.readWord {width value : ℕ} (h : StandsAt bytes pos (littleEndian width value))
    (hwidth : 0 < width) (hvalue : value < 256 ^ width) :
    readWord bytes width pos = some value := by
  have hend := h.le_length (List.ne_nil_of_length_pos (by rwa [length_littleEndian]))
  rw [length_littleEndian] at hend
  refine readWord_eq_some_iff.mpr ⟨hend, ?_⟩
  have htake := List.prefix_iff_eq_take.mp h
  rw [length_littleEndian] at htake
  rw [wordAt, ← htake, ofLittleEndian_littleEndian_of_lt hvalue]

/-- A terminated string is read back where it stands. -/
theorem StandsAt.cString {name : Bytes} (h : StandsAt bytes pos (name ++ [0]))
    (hname : 0 ∉ name) : cString (bytes.drop pos) = some name := by
  obtain ⟨rest, hrest⟩ := h
  rw [← hrest, List.append_assoc]
  exact cString_append_zero hname rest

/-- The entries of a table of equal entries stand one entry size apart. -/
theorem standsAt_flatMap {Entry : Type*} {encode : Entry → Bytes} {size : ℕ}
    (hsize : ∀ entry, (encode entry).length = size) {entries : List Entry} :
    StandsAt bytes pos (entries.flatMap encode) → ∀ (i : ℕ) (entry : Entry),
      entries[i]? = some entry → StandsAt bytes (pos + size * i) (encode entry) := by
  induction entries generalizing pos with
  | nil =>
    intro _ i entry hentry
    cases hentry
  | cons first rest ih =>
    intro h i entry hentry
    rw [List.flatMap_cons, standsAt_append, hsize] at h
    cases i with
    | zero =>
      cases hentry
      exact h.1
    | succ i =>
      have hrest := ih h.2 i entry hentry
      rwa [mul_add_one, add_comm (size * i), ← add_assoc]

end

end DailyChallenge.Library
