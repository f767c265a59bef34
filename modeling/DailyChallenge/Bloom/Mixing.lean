import Mathlib
import DailyChallenge.Bloom.Filter
import DailyChallenge.Library.WordMixing

/-!
# The mixed hashes keep one-byte differences

Neither hash loses bits: a step of FNV-1a is an exclusive or and a multiplication by an odd word, a
step of the xor variant of djb2 a multiplication by 33 and an exclusive or, and the finalizers are
bijections of the 64-bit words (`finalize_injective`). So two keys that differ in one byte have
different mixed hashes in both components (`mixed_ne_of_ne`).
-/

set_option autoImplicit false
set_option relaxedAutoImplicit false

namespace DailyChallenge.Bloom

open Library

/-! ### Words -/

/-- The multiplication by an odd word, for the words of the source. -/
theorem uint64_mul_injective {multiplier : UInt64} (hodd : Odd multiplier.toNat) :
    Function.Injective fun word : UInt64 ↦ word * multiplier := by
  intro first second h
  apply UInt64.toBitVec_inj.mp
  apply @mul_injective_of_odd 64 multiplier.toBitVec hodd
  simpa using congrArg UInt64.toBitVec h

/-- `word ^= word >> 33`. -/
theorem uint64_xor_shiftRight_injective :
    Function.Injective fun word : UInt64 ↦ word ^^^ (word >>> 33) := by
  intro first second h
  apply UInt64.toBitVec_inj.mp
  apply @xor_ushiftRight_injective 64 33 (by decide)
  simpa using congrArg UInt64.toBitVec h

/-- An exclusive or on the left undoes itself. -/
theorem uint64_xor_injective (word : UInt64) : Function.Injective fun other ↦ word ^^^ other := by
  intro first second h
  simpa using congrArg (word ^^^ ·) h

/-- A finalizer with an odd multiplier merges no two words. -/
theorem finalize_injective {multiplier : UInt64} (hodd : Odd multiplier.toNat) :
    Function.Injective (finalize multiplier) :=
  uint64_xor_shiftRight_injective.comp
    ((uint64_mul_injective hodd).comp uint64_xor_shiftRight_injective)

/-! ### Raw hashes -/

theorem toUInt64_injective : Function.Injective UInt8.toUInt64 := by
  intro first second h
  have htoNat := congrArg UInt64.toNat h
  rw [UInt8.toNat_toUInt64, UInt8.toNat_toUInt64] at htoNat
  exact UInt8.toNat_inj.mp htoNat

/-- `(hash << 5) + hash` is a multiplication by 33. -/
theorem shiftLeft_add_self (hash : UInt64) : (hash <<< 5) + hash = hash * 33 := by
  apply UInt64.toNat_inj.mp
  rw [UInt64.toNat_add, UInt64.toNat_shiftLeft, UInt64.toNat_mul, Nat.shiftLeft_eq]
  show (hash.toNat * 2 ^ 5 % 2 ^ 64 + hash.toNat) % 2 ^ 64 = hash.toNat * 33 % 2 ^ 64
  omega

/-- FNV-1a tells keys apart that differ in one byte. -/
theorem fnv1a64_ne (u v : Bytes) {c c' : UInt8} (hne : c ≠ c') :
    fnv1a64 (u ++ c :: v) ≠ fnv1a64 (u ++ c' :: v) := by
  have hprime : Function.Injective fun word : UInt64 ↦ word * 1099511628211 :=
    uint64_mul_injective (by decide)
  apply foldl_ne_of_ne _ _ _ _ _ hne
  · intro byte
    apply hprime.comp
    intro first second h
    simpa using h
  · exact fun hash ↦ hprime.comp ((uint64_xor_injective hash).comp toUInt64_injective)

/-- So does djb2. -/
theorem djb264_ne (u v : Bytes) {c c' : UInt8} (hne : c ≠ c') :
    djb264 (u ++ c :: v) ≠ djb264 (u ++ c' :: v) := by
  have hmultiplied : Function.Injective fun hash : UInt64 ↦ (hash <<< 5) + hash := by
    simp only [shiftLeft_add_self]
    exact uint64_mul_injective (by decide)
  apply foldl_ne_of_ne _ _ _ _ _ hne
  · intro byte first second h
    apply hmultiplied
    simpa using h
  · exact fun hash ↦ (uint64_xor_injective _).comp toUInt64_injective

/-! ### Mixed hashes -/

/-- Keys that differ in one byte have mixed hashes that differ in both components, and neither
finalizer merges two words. -/
theorem mixed_ne_of_ne (u v : Bytes) {c c' : UInt8} (hne : c ≠ c') :
    mixedA (u ++ c :: v) ≠ mixedA (u ++ c' :: v) ∧ mixedB (u ++ c :: v) ≠ mixedB (u ++ c' :: v) ∧
      Function.Injective (finalize 0xff51afd7ed558ccd) ∧
      Function.Injective (finalize 0xc4ceb9fe1a85ec53) := by
  have hfirst : Function.Injective (finalize 0xff51afd7ed558ccd) := finalize_injective (by decide)
  have hsecond : Function.Injective (finalize 0xc4ceb9fe1a85ec53) := finalize_injective (by decide)
  exact ⟨hfirst.ne (fnv1a64_ne u v hne), hsecond.ne (djb264_ne u v hne), hfirst, hsecond⟩

/-- The theorem at the keys `aXb` and `aYb`. -/
theorem mixed_ne_of_ne_middle :
    mixedA [97, 88, 98] ≠ mixedA [97, 89, 98] ∧ mixedB [97, 88, 98] ≠ mixedB [97, 89, 98] ∧
      Function.Injective (finalize 0xff51afd7ed558ccd) ∧
      Function.Injective (finalize 0xc4ceb9fe1a85ec53) :=
  mixed_ne_of_ne [97] [98] (show (88 : UInt8) ≠ 89 by decide)

end DailyChallenge.Bloom
