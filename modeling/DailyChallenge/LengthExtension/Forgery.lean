import Mathlib
import DailyChallenge.LengthExtension.Sha256

/-!
# The forged token is accepted

`Holds` says which bytes a context has absorbed; the three functions of OpenSSL act on it as their
names say (`holds_init`, `Holds.update`, `Holds.final`). The context the attack assembles from a
token holds the key, the original message and its padding without ever seeing the key
(`holds_resumed`), whence `serverVerifyNaive_attack`.
-/

set_option autoImplicit false
set_option relaxedAutoImplicit false

namespace DailyChallenge.LengthExtension

open Library

/-! ### What a context holds -/

section Holds

variable {openSsl : OpenSsl} {compress : Words → Bytes → Words} {initial : Words}

/-- The context has absorbed the bytes and counted their bits. -/
structure Holds (compress : Words → Bytes → Words) (initial : Words) (ctx : Sha256Ctx)
    (bytes : Bytes) : Prop where
  stream_eq : ctx.stream = (blocksOf compress).absorb ⟨initial, []⟩ bytes
  bits_eq : ctx.bits = 8 * bytes.length

/-- The digest of bytes: the stream from the initial words over the bytes and their padding. -/
def hash (compress : Words → Bytes → Words) (initial : Words) (bytes : Bytes) : Bytes :=
  digest ((blocksOf compress).absorb ⟨initial, []⟩
    (bytes ++ padding (bytes.length % 64) (8 * bytes.length))).chain

/-- What does not fill a block waits. -/
theorem length_pending (compress : Words → Bytes → Words) (initial : Words) (bytes : Bytes) :
    ((blocksOf compress).absorb ⟨initial, []⟩ bytes).pending.length = bytes.length % 64 := by
  have hempty : (⟨initial, []⟩ : ChainStream Words UInt8).pending.length <
      (blocksOf compress).blockSize :=
    (blocksOf compress).blockSize_pos
  rw [(blocksOf compress).length_pending_absorb bytes hempty, List.length_nil, zero_add]
  rfl

/-- The buffer of a context holds what does not fill a block. -/
theorem Holds.num_eq {ctx : Sha256Ctx} {bytes : Bytes} (h : Holds compress initial ctx bytes) :
    ctx.num = bytes.length % 64 := by
  have hlength := length_pending compress initial bytes
  rw [← h.stream_eq, Sha256Ctx.stream, List.length_take, Vector.length_toList] at hlength
  omega

theorem Holds.num_lt {ctx : Sha256Ctx} {bytes : Bytes} (h : Holds compress initial ctx bytes) :
    ctx.num < 64 := by
  rw [h.num_eq]
  exact Nat.mod_lt _ (by decide)

/-- More bytes, as `SHA256_Update` cuts them into blocks, are absorbed one by one. -/
theorem Holds.hashBlocks {ctx : Sha256Ctx} {bytes : Bytes} (h : Holds compress initial ctx bytes)
    (more : Bytes) :
    (blocksOf compress).hashBlocks ctx.h (ctx.data.toList.take ctx.num ++ more) =
      (blocksOf compress).absorb ⟨initial, []⟩ (bytes ++ more) := by
  have hbuffer : (ctx.data.toList.take ctx.num).length < (blocksOf compress).blockSize :=
    (List.length_take_le _ _).trans_lt h.num_lt
  rw [Compression.absorb_append, ← h.stream_eq]
  exact ((blocksOf compress).absorb_eq_hashBlocks ctx.h more hbuffer).symm

theorem holds_init (hopenSsl : openSsl.Documented compress initial) :
    Holds compress initial openSsl.init [] :=
  ⟨hopenSsl.init_stream, hopenSsl.init_bits⟩

theorem Holds.update (hopenSsl : openSsl.Documented compress initial) {ctx : Sha256Ctx}
    {bytes : Bytes} (h : Holds compress initial ctx bytes) (more : Bytes)
    (hsize : (bytes ++ more).length < 2 ^ 61) :
    Holds compress initial (openSsl.update ctx more) (bytes ++ more) := by
  rw [List.length_append] at hsize
  constructor
  · rw [hopenSsl.update_stream ctx more h.num_lt, h.hashBlocks]
  · rw [hopenSsl.update_bits ctx more h.num_lt (by rw [h.bits_eq]; omega), h.bits_eq,
      List.length_append]
    ring

theorem Holds.final (hopenSsl : openSsl.Documented compress initial) {ctx : Sha256Ctx}
    {bytes : Bytes} (h : Holds compress initial ctx bytes) :
    openSsl.final ctx = hash compress initial bytes := by
  rw [hopenSsl.final_eq ctx h.num_lt, h.hashBlocks, h.num_eq, h.bits_eq]
  rfl

/-- The naive MAC is the digest of the key and the message. -/
theorem naiveMac_eq (hopenSsl : openSsl.Documented compress initial) (secretKey msg : Bytes)
    (hsize : (secretKey ++ msg).length < 2 ^ 61) :
    naiveMac openSsl secretKey msg = hash compress initial (secretKey ++ msg) := by
  have hkey := (holds_init hopenSsl).update hopenSsl secretKey
    (by rw [List.nil_append]; rw [List.length_append] at hsize; omega)
  exact (hkey.update hopenSsl msg hsize).final hopenSsl

end Holds

/-! ### The padding and the state the attacker computes -/

/-- The loop appends zeros until the length field ends a block. -/
theorem pushZeros_eq (length : ℕ) (bytes : Bytes) :
    pushZeros length bytes =
      bytes ++ List.replicate ((120 - (length + bytes.length) % 64) % 64) 0 := by
  fun_induction pushZeros length bytes with
  | case1 bytes h => rw [h, List.replicate_zero, List.append_nil]
  | case2 bytes h ih =>
    have hcount : (120 - (length + bytes.length) % 64) % 64 =
        (120 - (length + (bytes ++ [0]).length) % 64) % 64 + 1 := by
      rw [List.length_append, List.length_singleton]
      omega
    rw [ih, hcount, List.replicate_succ, List.append_assoc, List.singleton_append]

/-- The attacker's padding has the zeros of the padding for that length, also where the length does
not fit a `uint32_t`, and the count of bits that is left of it. -/
theorem padding1_wrapped (total : ℕ) :
    padding1 (UInt32.ofNat total) = padding (total % 64) (total * 8 % 2 ^ 32) := by
  have htotal : (UInt32.ofNat total).toNat = total % 2 ^ 32 := UInt32.toNat_ofNat'
  have hbits : (UInt32.ofNat total * 8).toNat = total * 8 % 2 ^ 32 := by
    rw [UInt32.toNat_mul, htotal]
    show total % 2 ^ 32 * 8 % 2 ^ 32 = total * 8 % 2 ^ 32
    omega
  have hzeros : (120 - (total % 2 ^ 32 + [(0x80 : UInt8)].length) % 64) % 64 =
      (119 - total % 64) % 64 := by
    rw [List.length_singleton]
    omega
  rw [padding1, pushZeros_eq, htotal, hbits, hzeros, List.map_reverse, ← littleEndian_eq_map]
  rfl

/-- The attacker's padding is the padding of a message of that length, as long as the bits fit the
`uint32_t` product. -/
theorem padding1_eq {total : ℕ} (h : total * 8 < 2 ^ 32) :
    padding1 (UInt32.ofNat total) = padding (total % 64) (8 * total) := by
  rw [padding1_wrapped, Nat.mod_eq_of_lt h, mul_comm total]

/-- A message with its padding is a whole number of blocks. -/
theorem dvd_length_padding (total bits : ℕ) : 64 ∣ total + (padding (total % 64) bits).length := by
  rw [padding, List.length_append, List.length_cons, List.length_replicate, length_bigEndian]
  omega

theorem bigEndian_four (value : ℕ) :
    bigEndian 4 value = [UInt8.ofNat (value >>> 24), UInt8.ofNat (value >>> 16),
      UInt8.ofNat (value >>> 8), UInt8.ofNat value] := by
  rw [bigEndian, littleEndian_eq_map]
  rfl

/-- The state words are read back from the token. -/
theorem loadState_digest (words : Words) : loadState (digest words) = some words := by
  have hdigest : digest words = bigEndian 4 (words 0).toNat ++ bigEndian 4 (words 1).toNat ++
      bigEndian 4 (words 2).toNat ++ bigEndian 4 (words 3).toNat ++ bigEndian 4 (words 4).toNat ++
      bigEndian 4 (words 5).toNat ++ bigEndian 4 (words 6).toNat ++
      bigEndian 4 (words 7).toNat := by
    simp [digest, List.finRange]
  have hlong : 32 ≤ (digest words).length := by
    simp [hdigest]
  rw [loadState, dif_pos hlong]
  congr 1
  funext i
  simp only [hdigest, bigEndian_four]
  fin_cases i <;> exact or_bytes_bigEndian _

/-! ### The attack -/

section Attack

variable {openSsl : OpenSsl} {compress : Words → Bytes → Words} {initial : Words}

/-- A context that resumes from the chaining words after bytes that end a block, with their count of
bits below `2 ^ 32`, holds those bytes. -/
theorem holds_resumed {ctx : Sha256Ctx} {bytes : Bytes} (hblocks : 64 ∣ bytes.length)
    (hbits : bytes.length * 8 < 2 ^ 32)
    (hh : ctx.h = ((blocksOf compress).absorb ⟨initial, []⟩ bytes).chain)
    (hnl : ctx.nl = UInt32.ofNat (bytes.length * 8)) (hnh : ctx.nh = 0) (hnum : ctx.num = 0) :
    Holds compress initial ctx bytes := by
  have hempty : (⟨initial, []⟩ : ChainStream Words UInt8).pending.length <
      (blocksOf compress).blockSize := (blocksOf compress).blockSize_pos
  constructor
  · rw [(blocksOf compress).absorb_eq_chain hempty (by rwa [List.length_nil, zero_add]),
      Sha256Ctx.stream, hh, hnum, List.take_zero]
  · rw [Sha256Ctx.bits, hnl, hnh, UInt32.toNat_ofNat', Nat.mod_eq_of_lt hbits]
    show 0 * 2 ^ 32 + bytes.length * 8 = 8 * bytes.length
    ring

/-- The server accepts the token the attack computes from a token of the original message, for every
key of `KEY_LEN` bytes. -/
theorem serverVerifyNaive_attack (hopenSsl : openSsl.Documented compress initial)
    {secretKey originalMsg extension : Bytes} (hkey : secretKey.length = keyLen)
    (hpadded : keyLen + originalMsg.length +
      (padding1 (UInt32.ofNat (keyLen + originalMsg.length))).length < 2 ^ 29)
    (htotal : keyLen + originalMsg.length +
      (padding1 (UInt32.ofNat (keyLen + originalMsg.length))).length + extension.length < 2 ^ 61) :
    ∃ extendedMsg forgedToken,
      lengthExtensionAttack openSsl originalMsg (naiveMac openSsl secretKey originalMsg) extension =
        some (extendedMsg, forgedToken) ∧
      serverVerifyNaive openSsl secretKey extendedMsg forgedToken = true := by
  set padded := secretKey ++ originalMsg ++
    padding1 (UInt32.ofNat (keyLen + originalMsg.length)) with hpaddedDef
  have hlength : (secretKey ++ originalMsg).length = keyLen + originalMsg.length := by
    rw [List.length_append, hkey]
  have hpadding : padding1 (UInt32.ofNat (keyLen + originalMsg.length)) =
      padding ((secretKey ++ originalMsg).length % 64) (8 * (secretKey ++ originalMsg).length) := by
    rw [hlength]
    exact padding1_eq (by omega)
  have hlengthPadded : padded.length = keyLen + originalMsg.length +
      (padding1 (UInt32.ofNat (keyLen + originalMsg.length))).length := by
    rw [hpaddedDef, List.length_append, hlength]
  have hblocks : 64 ∣ padded.length := by
    rw [hlengthPadded, hpadding, ← hlength]
    exact dvd_length_padding _ _
  -- the token is the chaining value after the padded message
  have htoken : naiveMac openSsl secretKey originalMsg =
      digest ((blocksOf compress).absorb ⟨initial, []⟩ padded).chain := by
    rw [naiveMac_eq hopenSsl secretKey originalMsg (by omega), hash, ← hpadding]
  rw [lengthExtensionAttack, htoken, loadState_digest]
  refine ⟨_, _, rfl, ?_⟩
  have hsize : (padded ++ extension).length < 2 ^ 61 := by
    rw [List.length_append, hlengthPadded]
    exact htotal
  have hserver : secretKey ++ (originalMsg ++
      padding1 (UInt32.ofNat (keyLen + originalMsg.length)) ++ extension) =
        padded ++ extension := by
    simp only [hpaddedDef, List.append_assoc]
  rw [serverVerifyNaive, beq_iff_eq, naiveMac_eq hopenSsl _ _ (by rw [hserver]; exact hsize),
    hserver]
  refine (Holds.final hopenSsl (Holds.update hopenSsl ?_ extension hsize)).symm
  exact holds_resumed hblocks (by omega) rfl (by rw [hlengthPadded]) rfl rfl

end Attack

/-- `SECRET_KEY`. -/
def secretKey : Bytes :=
  [0x0f, 0x1e, 0x2d, 0x3c, 0x4b, 0x5a, 0x69, 0x78, 0x87, 0x96, 0xa5, 0xb4, 0xc3, 0xd2, 0xe1, 0xf0]

/-- The message "command=reboot". -/
def commandReboot : Bytes := [99, 111, 109, 109, 97, 110, 100, 61, 114, 101, 98, 111, 111, 116]

/-- The extension "&admin=1". -/
def adminExtension : Bytes := [38, 97, 100, 109, 105, 110, 61, 49]

theorem length_padding1_commandReboot :
    (padding1 (UInt32.ofNat (keyLen + commandReboot.length))).length = 34 := by
  rw [padding1_eq (by decide)]
  rfl

/-- The attack of Part A, with SHA-256. -/
theorem serverVerifyNaive_attack_reboot : ∃ extendedMsg forgedToken,
    lengthExtensionAttack sha256 commandReboot (naiveMac sha256 secretKey commandReboot)
      adminExtension = some (extendedMsg, forgedToken) ∧
    serverVerifyNaive sha256 secretKey extendedMsg forgedToken = true :=
  serverVerifyNaive_attack sha256_documented rfl
    (by rw [length_padding1_commandReboot]; decide)
    (by rw [length_padding1_commandReboot]; decide)

end DailyChallenge.LengthExtension
