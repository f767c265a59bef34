import Mathlib
import DailyChallenge.Library.HashCollision
import DailyChallenge.LengthExtension.Forgery

/-!
# The HMAC server

`hmac_sha256_mac` and `server_verify_hmac` of `10-HMAC_length_extension/main.cpp`. The HMAC of
OpenSSL is a parameter; `HmacDocumented` is the construction it computes, over the same digest as
the naive MAC. A token that both servers accept is the digest of two different byte strings, and the
last inputs in which the two hashes differ are then a collision of the compression function
(`serverVerifyHmac_eq_false`): this is what Part B of `main` relies on.
-/

set_option autoImplicit false
set_option relaxedAutoImplicit false

namespace DailyChallenge.LengthExtension

open Library

/-! ### The server -/

/-- `hmac_sha256_mac`, with `SECRET_KEY` as an argument. Where `HMAC` fails the zeros that `out` was
made with remain. -/
def hmacSha256Mac (hmac : Bytes → Bytes → Option Bytes) (secretKey msg : Bytes) : Bytes :=
  (hmac secretKey msg).getD (List.replicate 32 0)

/-- `server_verify_hmac`. -/
def serverVerifyHmac (hmac : Bytes → Bytes → Option Bytes) (secretKey msg token : Bytes) : Bool :=
  hmacSha256Mac hmac secretKey msg == token

/-- A key filled up with zeros to a block, each byte xor the same one. -/
def blockKey (byte : UInt8) (key : Bytes) : Bytes :=
  (key ++ List.replicate (64 - key.length) 0).map (byte ^^^ ·)

/-- What HMAC feeds its inner hash. -/
def innerMessage (key msg : Bytes) : Bytes := blockKey 0x36 key ++ msg

/-- What HMAC feeds its outer hash. -/
def outerMessage (compress : Words → Bytes → Words) (initial : Words) (key msg : Bytes) : Bytes :=
  blockKey 0x5c key ++ hash compress initial (innerMessage key msg)

/-- What is documented of `HMAC` with SHA-256, for keys of a block at most. -/
def HmacDocumented (hmac : Bytes → Bytes → Option Bytes) (compress : Words → Bytes → Words)
    (initial : Words) : Prop :=
  ∀ key msg, key.length ≤ 64 → (innerMessage key msg).length < 2 ^ 61 →
    hmac key msg = some (hash compress initial (outerMessage compress initial key msg))

/-- A byte string and its padding. -/
def padded (bytes : Bytes) : Bytes := bytes ++ padding (bytes.length % 64) (8 * bytes.length)

/-! ### Digests -/

theorem digest_injective {words words' : Words} (h : digest words = digest words') :
    words = words' := by
  have hload := congrArg loadState h
  rw [loadState_digest, loadState_digest] at hload
  exact Option.some.inj hload

theorem length_digest (words : Words) : (digest words).length = 32 := by
  simp [digest, List.finRange]

theorem dvd_length_padded (bytes : Bytes) : 64 ∣ (padded bytes).length := by
  rw [padded, List.length_append]
  exact dvd_length_padding _ _

theorem length_padded_of_eq {bytes bytes' : Bytes} (h : bytes.length = bytes'.length) :
    (padded bytes).length = (padded bytes').length := by
  rw [padded, padded, List.length_append, List.length_append, h]

theorem length_padded_pos (bytes : Bytes) : 0 < (padded bytes).length := by
  rw [padded, padding]
  simp

/-- The last eight bytes are the count of bits. -/
theorem drop_padded (bytes : Bytes) :
    (padded bytes).drop ((padded bytes).length - 8) = bigEndian 8 (8 * bytes.length) := by
  have hsplit : (padded bytes).length - 8 =
      (bytes ++ 0x80 :: List.replicate ((119 - bytes.length % 64) % 64) 0).length := by
    rw [padded, padding, ← List.append_assoc, List.length_append, length_bigEndian,
      Nat.add_sub_cancel]
  rw [hsplit, padded, padding, ← List.append_assoc]
  exact List.drop_left

/-- The last block of a padded message shows the count of its bits. -/
theorem length_eq_of_last {bytes bytes' : Bytes} (hsize : 8 * bytes.length < 2 ^ 64)
    (hsize' : 8 * bytes'.length < 2 ^ 64)
    (h : (padded bytes).drop ((padded bytes).length - 64) =
      (padded bytes').drop ((padded bytes').length - 64)) : bytes.length = bytes'.length := by
  have htail : ∀ other : Bytes, ((padded other).drop ((padded other).length - 64)).drop 56 =
      bigEndian 8 (8 * other.length) := by
    intro other
    have hle := Nat.le_of_dvd (length_padded_pos other) (dvd_length_padded other)
    rw [← drop_padded, List.drop_drop]
    congr 1
    omega
  have hbits := congrArg (List.drop 56) h
  rw [htail, htail, bigEndian, bigEndian] at hbits
  have hvalue := congrArg ofLittleEndian (List.reverse_injective hbits)
  rw [ofLittleEndian_littleEndian_of_lt hsize, ofLittleEndian_littleEndian_of_lt hsize'] at hvalue
  omega

/-! ### Part B -/

section

variable {openSsl : OpenSsl} {hmac : Bytes → Bytes → Option Bytes}
  {compress : Words → Bytes → Words} {initial : Words}

/-- The inputs of the compression function in which the hashes behind the two servers differ last,
for a message to each. -/
def lastInputs (compress : Words → Bytes → Words) (initial : Words)
    (secretKey naiveMsg hmacMsg : Bytes) :
    Option (Compression.Input Words UInt8 × Compression.Input Words UInt8) :=
  (blocksOf compress).collide initial
    ((blocksOf compress).blocksFromEnd (padded (secretKey ++ naiveMsg)))
    ((blocksOf compress).blocksFromEnd (padded (outerMessage compress initial secretKey hmacMsg)))

/-- The servers hash different byte strings: the key of the outer hash is another one. -/
theorem padded_ne {secretKey naiveMsg : Bytes} (hkey : 0 < secretKey.length) (rest : Bytes) :
    padded (secretKey ++ naiveMsg) ≠ padded (blockKey 0x5c secretKey ++ rest) := by
  cases secretKey with
  | nil => simp at hkey
  | cons byte key =>
    intro h
    have hbyte : byte = 0x5c ^^^ byte := by
      simpa [padded, blockKey] using congrArg List.head? h
    have hzero := congrArg (· ^^^ byte) hbyte
    simp at hzero

theorem length_outerMessage {secretKey : Bytes} (hkey : secretKey.length ≤ 64) (msg : Bytes) :
    (outerMessage compress initial secretKey msg).length = 96 := by
  rw [outerMessage, List.length_append, blockKey, List.length_map, List.length_append,
    List.length_replicate, hash, length_digest]
  omega

/-- One token for both servers is a collision. -/
theorem exists_lastInputs (hopenSsl : openSsl.Documented compress initial)
    (hhmac : HmacDocumented hmac compress initial) {secretKey naiveMsg hmacMsg token : Bytes}
    (hkey : secretKey.length = keyLen) (hsize : keyLen + naiveMsg.length < 2 ^ 61)
    (hsize' : 64 + hmacMsg.length < 2 ^ 61)
    (hnaive : serverVerifyNaive openSsl secretKey naiveMsg token = true)
    (haccepted : serverVerifyHmac hmac secretKey hmacMsg token = true) :
    ∃ first second, lastInputs compress initial secretKey naiveMsg hmacMsg =
        some (first, second) ∧ (blocksOf compress).IsCollision first second := by
  have hlength : (secretKey ++ naiveMsg).length = keyLen + naiveMsg.length := by
    rw [List.length_append, hkey]
  have hkeyLen : keyLen = 16 := rfl
  have hinner : (innerMessage secretKey hmacMsg).length < 2 ^ 61 := by
    rw [innerMessage, List.length_append, blockKey, List.length_map, List.length_append,
      List.length_replicate, hkey]
    omega
  have houter := @length_outerMessage compress initial secretKey (by omega) hmacMsg
  -- both servers compare the token with a digest
  rw [serverVerifyNaive, beq_iff_eq, naiveMac_eq hopenSsl _ _ (by omega)] at hnaive
  rw [serverVerifyHmac, beq_iff_eq, hmacSha256Mac, hhmac _ _ (by omega) hinner, Option.getD_some,
    ← hnaive] at haccepted
  have hchain := digest_injective haccepted.symm
  refine (blocksOf compress).exists_collision (dvd_length_padded _) (dvd_length_padded _)
    (padded_ne (by omega) _) (length_padded_pos _) (length_padded_pos _) ?_ hchain
  by_cases hsame : (secretKey ++ naiveMsg).length =
      (outerMessage compress initial secretKey hmacMsg).length
  · exact .inl (length_padded_of_eq hsame)
  · exact .inr fun h ↦ hsame (length_eq_of_last (by omega) (by omega) h)

/-- The HMAC server rejects a token that the naive server accepts, for any message each, unless the
last inputs in which their hashes differ are a collision of the compression function. -/
theorem serverVerifyHmac_eq_false (hopenSsl : openSsl.Documented compress initial)
    (hhmac : HmacDocumented hmac compress initial) {secretKey naiveMsg hmacMsg token : Bytes}
    (hkey : secretKey.length = keyLen) (hsize : keyLen + naiveMsg.length < 2 ^ 61)
    (hsize' : 64 + hmacMsg.length < 2 ^ 61)
    (hnaive : serverVerifyNaive openSsl secretKey naiveMsg token = true)
    (hcollision : ∀ inputs ∈ lastInputs compress initial secretKey naiveMsg hmacMsg,
      ¬ (blocksOf compress).IsCollision inputs.1 inputs.2) :
    serverVerifyHmac hmac secretKey hmacMsg token = false := by
  by_contra haccepted
  obtain ⟨first, second, hinputs, hcollide⟩ := exists_lastInputs hopenSsl hhmac hkey hsize hsize'
    hnaive (Bool.not_eq_false _ ▸ haccepted)
  exact hcollision (first, second) hinputs hcollide

end

/-- HMAC with SHA-256, as documented. -/
def hmacSha256 (key msg : Bytes) : Option Bytes :=
  some (hash compress initialWords (outerMessage compress initialWords key msg))

/-- The extended message of Part A. -/
def extendedReboot : Bytes :=
  commandReboot ++ padding ((keyLen + commandReboot.length) % 64)
    (8 * (keyLen + commandReboot.length)) ++ adminExtension

/-- Part B: the HMAC server rejects the token that the naive server accepts for the extended
message. -/
theorem serverVerifyHmac_reboot : serverVerifyHmac hmacSha256 secretKey extendedReboot
    (naiveMac sha256 secretKey extendedReboot) = false :=
  @serverVerifyHmac_eq_false sha256 hmacSha256 compress initialWords sha256_documented
    (fun _ _ _ _ ↦ rfl) secretKey extendedReboot extendedReboot
    (naiveMac sha256 secretKey extendedReboot) rfl (by decide) (by decide)
    (by rw [serverVerifyNaive, beq_self_eq_true]) (by decide +kernel)

end DailyChallenge.LengthExtension
