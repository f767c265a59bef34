import Mathlib

/-!
# Rounding up to a multiple

`alignUp address align` is the multiple of `align` that is not below `address` and less than `align`
above it (`alignUp_dvd`, `le_alignUp`, `alignUp_lt`). In words of any width the expression
`(x + align - 1) & ~(align - 1)` computes it for a power of two as long as the sum does not wrap
(`toNat_maskUp`).
-/

set_option autoImplicit false
set_option relaxedAutoImplicit false

namespace DailyChallenge.Library

/-- The first multiple of `align` from `address` on. -/
def alignUp (address align : ℕ) : ℕ := (address + (align - 1)) / align * align

theorem alignUp_dvd (address align : ℕ) : align ∣ alignUp address align :=
  Nat.dvd_mul_left align _

/-- Rounding up adds less than one multiple. -/
theorem alignUp_lt {align : ℕ} (h : 0 < align) (address : ℕ) :
    alignUp address align < address + align := by
  have hle := Nat.div_mul_le_self (address + (align - 1)) align
  rw [alignUp]
  omega

theorem le_alignUp {align : ℕ} (h : 0 < align) (address : ℕ) : address ≤ alignUp address align := by
  have hdiv := Nat.div_add_mod' (address + (align - 1)) align
  have hmod := Nat.mod_lt (address + (align - 1)) h
  rw [alignUp]
  omega

section Words

variable {width k : ℕ}

/-- The largest power of two in a word is its highest bit. -/
theorem toNat_le_of_isPowerOfTwo {align : BitVec (width + 1)} (h : align.toNat.isPowerOfTwo) :
    align.toNat ≤ 2 ^ width := by
  obtain ⟨k, hk⟩ := h
  have hlt := align.isLt
  rw [hk] at hlt ⊢
  have hk_lt : k < width + 1 := (Nat.pow_lt_pow_iff_right (by decide)).mp hlt
  exact Nat.pow_le_pow_right (by decide) (Nat.le_of_lt_succ hk_lt)

/-- Clearing the low bits of a word. -/
theorem and_not_low_bits (x : BitVec width) :
    x &&& ~~~(BitVec.ofNat width (2 ^ k - 1)) = (x >>> k) <<< k := by
  ext i hi
  have hmask : (BitVec.ofNat width (2 ^ k - 1))[i] = decide (i < k) := by
    rw [← BitVec.getLsbD_eq_getElem, BitVec.getLsbD_ofNat, Nat.testBit_two_pow_sub_one]
    simp [hi]
  rw [BitVec.getElem_and, BitVec.getElem_not, hmask, BitVec.getElem_shiftLeft]
  by_cases hlow : i < k
  · simp [hlow]
  · simp [hlow, Nat.add_sub_cancel' (not_lt.mp hlow), BitVec.getLsbD_eq_getElem hi]

theorem toNat_and_not_low_bits (x : BitVec width) :
    (x &&& ~~~(BitVec.ofNat width (2 ^ k - 1))).toNat = x.toNat / 2 ^ k * 2 ^ k := by
  rw [and_not_low_bits, BitVec.toNat_shiftLeft, BitVec.toNat_ushiftRight, Nat.shiftLeft_eq,
    Nat.shiftRight_eq_div_pow]
  exact Nat.mod_eq_of_lt (Nat.lt_of_le_of_lt (Nat.div_mul_le_self _ _) x.isLt)

/-- The bit trick rounds up to a power of two where the sum does not wrap. -/
theorem toNat_maskUp {x align : BitVec width} (halign : align.toNat.isPowerOfTwo)
    (hsum : x.toNat + align.toNat < 2 ^ width) :
    ((x + align - 1) &&& ~~~(align - 1)).toNat = alignUp x.toNat align.toNat := by
  obtain ⟨k, hk⟩ := halign
  have hpos : 0 < 2 ^ k := Nat.two_pow_pos k
  have hwidth : 0 < width := by
    by_contra hzero
    obtain rfl : width = 0 := by omega
    omega
  have hone : (1 : BitVec width).toNat = 1 := by
    show 1 % 2 ^ width = 1
    exact Nat.mod_eq_of_lt (Nat.one_lt_two_pow hwidth.ne')
  have hmask : align - 1 = BitVec.ofNat width (2 ^ k - 1) := by
    apply BitVec.eq_of_toNat_eq
    rw [BitVec.toNat_sub_of_le (by rw [BitVec.le_def]; omega), hone, hk, BitVec.toNat_ofNat,
      Nat.mod_eq_of_lt (by omega)]
  have hadd : (x + align).toNat = x.toNat + align.toNat := BitVec.toNat_add_of_lt hsum
  have hsub : (x + align - 1).toNat = x.toNat + (2 ^ k - 1) := by
    rw [BitVec.toNat_sub_of_le (by rw [BitVec.le_def]; omega), hone, hadd, hk]
    omega
  rw [hmask, toNat_and_not_low_bits, hsub, hk, alignUp]

end Words

end DailyChallenge.Library
