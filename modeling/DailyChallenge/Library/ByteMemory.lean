import Mathlib
import DailyChallenge.Library.ByteCodec

/-!
# Bytes in a memory

A memory gives every address a byte. `BytesAt memory pos bytes` says that the bytes stand there one
after the other from `pos`; it splits along appends. `overlay bytes memory` writes the bytes over
the start of a memory and leaves what lies beyond. `bigEndian` is the byte order of network
protocols.
-/

set_option autoImplicit false
set_option relaxedAutoImplicit false

namespace DailyChallenge.Library

/-- The `width` low bytes of a number, most significant first. -/
def bigEndian (width value : ℕ) : Bytes := (littleEndian width value).reverse

@[simp] theorem length_bigEndian (width value : ℕ) : (bigEndian width value).length = width := by
  rw [bigEndian, List.length_reverse, length_littleEndian]

/-- The bytes stand in the memory one after the other from a position. -/
def BytesAt (memory : ℕ → UInt8) : ℕ → Bytes → Prop
  | _, [] => True
  | pos, byte :: rest => memory pos = byte ∧ BytesAt memory (pos + 1) rest

section

variable {memory : ℕ → UInt8}

@[simp] theorem bytesAt_nil (pos : ℕ) : BytesAt memory pos [] := trivial

@[simp] theorem bytesAt_cons (pos : ℕ) (byte : UInt8) (rest : Bytes) :
    BytesAt memory pos (byte :: rest) ↔ memory pos = byte ∧ BytesAt memory (pos + 1) rest := Iff.rfl

/-- Bytes that stand at a position, piece by piece. -/
theorem bytesAt_append (pos : ℕ) (first second : Bytes) :
    BytesAt memory pos (first ++ second) ↔
      BytesAt memory pos first ∧ BytesAt memory (pos + first.length) second := by
  induction first generalizing pos with
  | nil => simp
  | cons byte rest ih =>
    rw [List.cons_append, bytesAt_cons, bytesAt_cons, ih, and_assoc, List.length_cons, add_assoc,
      add_comm 1]

/-- Reading the bytes that stand at a position. -/
theorem BytesAt.read {pos : ℕ} {bytes : Bytes} (h : BytesAt memory pos bytes) :
    (List.range' pos bytes.length).map memory = bytes := by
  induction bytes generalizing pos with
  | nil => rfl
  | cons byte rest ih =>
    rw [List.length_cons, List.range'_succ, List.map_cons, h.1, ih h.2]

/-- The bytes read from a position stand there. -/
theorem bytesAt_range' (memory : ℕ → UInt8) (pos count : ℕ) :
    BytesAt memory pos ((List.range' pos count).map memory) := by
  induction count generalizing pos with
  | zero => trivial
  | succ count ih =>
    rw [List.range'_succ, List.map_cons]
    exact ⟨rfl, ih (pos + 1)⟩

/-- Bytes stand in every memory that agrees with theirs where they are. -/
theorem BytesAt.congr {other : ℕ → UInt8} {pos : ℕ} {bytes : Bytes} (h : BytesAt memory pos bytes)
    (hagree : ∀ i < bytes.length, other (pos + i) = memory (pos + i)) :
    BytesAt other pos bytes := by
  induction bytes generalizing pos with
  | nil => trivial
  | cons byte rest ih =>
    refine ⟨(hagree 0 (by simp)).trans h.1, ih h.2 fun i hi ↦ ?_⟩
    rw [add_assoc, add_comm 1]
    exact hagree (i + 1) (by simpa using hi)

/-- Writing at other positions leaves bytes where they stand. -/
theorem BytesAt.update {pos : ℕ} {bytes : Bytes} (h : BytesAt memory pos bytes) {target : ℕ}
    (htarget : pos + bytes.length ≤ target) (byte : UInt8) :
    BytesAt (Function.update memory target byte) pos bytes := by
  induction bytes generalizing pos with
  | nil => trivial
  | cons first rest ih =>
    rw [List.length_cons] at htarget
    refine ⟨?_, ih h.2 (by omega)⟩
    rw [Function.update_of_ne (by omega)]
    exact h.1

/-- Writing the byte after bytes that stand at a position. -/
theorem BytesAt.append_byte {pos : ℕ} {bytes : Bytes} (h : BytesAt memory pos bytes)
    (byte : UInt8) :
    BytesAt (Function.update memory (pos + bytes.length) byte) pos (bytes ++ [byte]) := by
  rw [bytesAt_append]
  exact ⟨h.update le_rfl byte, Function.update_self _ _ _, trivial⟩

/-- `memcpy` of some bytes to a position. -/
def copyTo (memory : ℕ → UInt8) : ℕ → Bytes → ℕ → UInt8
  | _, [] => memory
  | pos, byte :: rest => copyTo (Function.update memory pos byte) (pos + 1) rest

/-- Copying the bytes after bytes that stand at a position. -/
theorem BytesAt.append_copyTo {pos : ℕ} {bytes : Bytes} (h : BytesAt memory pos bytes)
    (more : Bytes) : BytesAt (copyTo memory (pos + bytes.length) more) pos (bytes ++ more) := by
  induction more generalizing memory bytes with
  | nil =>
    rw [List.append_nil]
    exact h
  | cons byte rest ih =>
    have hnext := ih (h.append_byte byte)
    rw [List.length_append, List.length_singleton, ← add_assoc] at hnext
    rw [List.append_cons]
    exact hnext

/-- Copying leaves what lies outside as it was. -/
theorem copyTo_of_outside (bytes : Bytes) {pos address : ℕ} (memory : ℕ → UInt8)
    (h : address < pos ∨ pos + bytes.length ≤ address) :
    copyTo memory pos bytes address = memory address := by
  induction bytes generalizing pos memory with
  | nil => rfl
  | cons byte rest ih =>
    rw [List.length_cons] at h
    rw [copyTo, ih _ (by omega), Function.update_of_ne (by omega)]

/-- A memory with some bytes written over its start. -/
def overlay (bytes : Bytes) (memory : ℕ → UInt8) (address : ℕ) : UInt8 :=
  bytes[address]?.getD (memory address)

theorem overlay_eq_of_some {bytes : Bytes} {i : ℕ} {byte : UInt8} (h : bytes[i]? = some byte) :
    overlay bytes memory i = byte := by
  rw [overlay, h, Option.getD_some]

theorem overlay_eq_of_none {bytes : Bytes} {i : ℕ} (h : bytes[i]? = none) :
    overlay bytes memory i = memory i := by
  rw [overlay, h, Option.getD_none]

/-- The bytes of an overlay stand at its start. -/
theorem bytesAt_overlay (bytes : Bytes) (memory : ℕ → UInt8) :
    BytesAt (overlay bytes memory) 0 bytes := by
  have hsuffix : ∀ first second : Bytes,
      BytesAt (overlay (first ++ second) memory) first.length second := by
    intro first second
    induction second generalizing first with
    | nil => trivial
    | cons byte rest ih =>
      refine ⟨?_, ?_⟩
      · simp [overlay]
      · simpa using ih (first ++ [byte])
  exact hsuffix [] bytes

end

end DailyChallenge.Library
