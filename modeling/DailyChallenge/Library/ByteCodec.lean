import Mathlib

/-!
# Fixed-width integers as bytes

`littleEndian width value` is the `width` low bytes of a number, least significant first, and
`ofLittleEndian` reads bytes back. The round trip keeps the value modulo `256 ^ width`. Bytes joined
by shifts and `or` are summed (`lor_eq_add`).
-/

set_option autoImplicit false
set_option relaxedAutoImplicit false

namespace DailyChallenge.Library

/-- A string of bytes. -/
abbrev Bytes := List UInt8

/-- The `width` low bytes of a number, least significant first. -/
def littleEndian : ℕ → ℕ → Bytes
  | 0, _ => []
  | width + 1, value => UInt8.ofNat value :: littleEndian width (value / 256)

/-- The number written in bytes, least significant first. -/
def ofLittleEndian : Bytes → ℕ
  | [] => 0
  | byte :: rest => byte.toNat + 256 * ofLittleEndian rest

@[simp] theorem length_littleEndian (width value : ℕ) :
    (littleEndian width value).length = width := by
  induction width generalizing value with
  | zero => rfl
  | succ width ih => rw [littleEndian, List.length_cons, ih]

/-- The bytes of a number are its low bits after shifts by whole bytes. -/
theorem littleEndian_eq_map (width value : ℕ) :
    littleEndian width value =
      (List.range width).map fun i ↦ UInt8.ofNat (value >>> (i * 8)) := by
  induction width generalizing value with
  | zero => rfl
  | succ width ih =>
    rw [littleEndian, ih, List.range_succ_eq_map, List.map_cons, List.map_map, zero_mul,
      Nat.shiftRight_zero]
    refine congrArg _ (List.map_congr_left fun i _ ↦ ?_)
    show UInt8.ofNat ((value / 256) >>> (i * 8)) = UInt8.ofNat (value >>> ((i + 1) * 8))
    rw [add_one_mul, Nat.add_comm, Nat.shiftRight_add, Nat.shiftRight_eq_div_pow value 8]

/-- Reading the bytes back keeps the value modulo `256 ^ width`. -/
theorem ofLittleEndian_littleEndian (width value : ℕ) :
    ofLittleEndian (littleEndian width value) = value % 256 ^ width := by
  induction width generalizing value with
  | zero => rw [littleEndian, ofLittleEndian, pow_zero, Nat.mod_one]
  | succ width ih =>
    have hbyte : (UInt8.ofNat value).toNat = value % 256 := UInt8.toNat_ofNat'
    calc ofLittleEndian (littleEndian (width + 1) value)
        = value % 256 + 256 * (value / 256 % 256 ^ width) := by
          rw [littleEndian, ofLittleEndian, ih, hbyte]
      _ = value % 256 ^ (width + 1) := by rw [pow_succ', Nat.mod_mul]

/-- A value below `256 ^ width` is read back exactly. -/
theorem ofLittleEndian_littleEndian_of_lt {width value : ℕ} (h : value < 256 ^ width) :
    ofLittleEndian (littleEndian width value) = value := by
  rw [ofLittleEndian_littleEndian, Nat.mod_eq_of_lt h]

/-- The number in some bytes is below `256` to their count. -/
theorem ofLittleEndian_lt (bytes : Bytes) : ofLittleEndian bytes < 256 ^ bytes.length := by
  induction bytes with
  | nil => decide
  | cons byte rest ih =>
    have hbyte := byte.toNat_lt
    rw [ofLittleEndian, List.length_cons, pow_succ']
    omega

/-- Writing the number in some bytes gives the bytes again. -/
theorem littleEndian_ofLittleEndian (bytes : Bytes) :
    littleEndian bytes.length (ofLittleEndian bytes) = bytes := by
  induction bytes with
  | nil => rfl
  | cons byte rest ih =>
    have hbyte := byte.toNat_lt
    have hlow : UInt8.ofNat (byte.toNat + 256 * ofLittleEndian rest) = byte := by
      apply UInt8.toNat_inj.mp
      rw [UInt8.toNat_ofNat']
      omega
    have hhigh : (byte.toNat + 256 * ofLittleEndian rest) / 256 = ofLittleEndian rest := by
      omega
    rw [List.length_cons, ofLittleEndian, littleEndian, hlow, hhigh, ih]

/-- An `or` with bits that lie below is a sum. -/
theorem lor_eq_add {i high low : ℕ} (hhigh : 2 ^ i ∣ high) (hlow : low < 2 ^ i) :
    high ||| low = high + low := by
  obtain ⟨k, rfl⟩ := hhigh
  rw [mul_comm, ← Nat.shiftLeft_eq, Nat.shiftLeft_add_eq_or_of_lt hlow]

/-- Four bytes shifted and joined to a word, the first the most significant. -/
theorem toNat_or_bytes (byte3 byte2 byte1 byte0 : UInt8) :
    (byte3.toUInt32 <<< 24 ||| byte2.toUInt32 <<< 16 ||| byte1.toUInt32 <<< 8 |||
      byte0.toUInt32).toNat =
        byte3.toNat * 2 ^ 24 + byte2.toNat * 2 ^ 16 + byte1.toNat * 2 ^ 8 + byte0.toNat := by
  have h3 := UInt8.toNat_lt byte3
  have h2 := UInt8.toNat_lt byte2
  have h1 := UInt8.toNat_lt byte1
  have h0 := UInt8.toNat_lt byte0
  have hshift : ∀ (byte : UInt8) (i : UInt32), i.toNat ≤ 24 →
      (byte.toUInt32 <<< i).toNat = byte.toNat * 2 ^ i.toNat := by
    intro byte i hi
    rw [UInt32.toNat_shiftLeft, UInt8.toNat_toUInt32, Nat.shiftLeft_eq,
      Nat.mod_eq_of_lt (by omega : i.toNat < 32), Nat.mod_eq_of_lt]
    calc byte.toNat * 2 ^ i.toNat < 2 ^ 8 * 2 ^ i.toNat :=
          Nat.mul_lt_mul_of_pos_right (UInt8.toNat_lt byte) (Nat.two_pow_pos _)
      _ ≤ 2 ^ 8 * 2 ^ 24 := Nat.mul_le_mul_left _ (Nat.pow_le_pow_right (by decide) hi)
      _ = 2 ^ 32 := by norm_num
  rw [UInt32.toNat_or, UInt32.toNat_or, UInt32.toNat_or, hshift _ 24 (by decide),
    hshift _ 16 (by decide), hshift _ 8 (by decide), UInt8.toNat_toUInt32]
  show byte3.toNat * 2 ^ 24 ||| byte2.toNat * 2 ^ 16 ||| byte1.toNat * 2 ^ 8 ||| byte0.toNat = _
  rw [@lor_eq_add 24 _ (byte2.toNat * 2 ^ 16) (by omega) (by omega),
    @lor_eq_add 16 _ (byte1.toNat * 2 ^ 8) (by omega) (by omega),
    @lor_eq_add 8 _ byte0.toNat (by omega) (by omega)]

/-- The four bytes of a word are joined to the word. -/
theorem or_bytes_bigEndian (word : UInt32) :
    ((UInt8.ofNat (word.toNat >>> 24)).toUInt32 <<< 24 |||
      (UInt8.ofNat (word.toNat >>> 16)).toUInt32 <<< 16 |||
      (UInt8.ofNat (word.toNat >>> 8)).toUInt32 <<< 8 |||
      (UInt8.ofNat word.toNat).toUInt32) = word := by
  have hword := word.toNat_lt
  apply UInt32.toNat_inj.mp
  rw [toNat_or_bytes]
  simp only [UInt8.toNat_ofNat', Nat.shiftRight_eq_div_pow]
  omega

end DailyChallenge.Library
