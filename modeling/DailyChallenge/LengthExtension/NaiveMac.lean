import Mathlib
import DailyChallenge.Library.ByteCodec

/-!
# The naive MAC and the attack on it

`naive_mac`, `server_verify_naive` and `length_extension_attack` of
`10-HMAC_length_extension/main.cpp`. The code reads and writes the fields of OpenSSL's `SHA256_CTX`,
so the record is here; the three functions of OpenSSL that work on it are a parameter (`OpenSsl`).
Indexing a token past its end has no defined result, so the attack has none on a token of fewer than
32 bytes.
-/

set_option autoImplicit false
set_option relaxedAutoImplicit false

namespace DailyChallenge.LengthExtension

open Library

/-- The eight state words of SHA-256. -/
abbrev Words := Fin 8 → UInt32

/-- `SHA256_CTX`: the chaining words, the 64-bit count of bits, and the buffered bytes. -/
structure Sha256Ctx where
  h : Words
  nl : UInt32
  nh : UInt32
  data : Vector UInt8 64
  num : ℕ

/-- `SHA256_Init`, `SHA256_Update` and `SHA256_Final`. -/
structure OpenSsl where
  init : Sha256Ctx
  update : Sha256Ctx → Bytes → Sha256Ctx
  final : Sha256Ctx → Bytes

/-- `KEY_LEN`. -/
def keyLen : ℕ := 16

/-- `naive_mac`, with `SECRET_KEY` as an argument. -/
def naiveMac (openSsl : OpenSsl) (secretKey msg : Bytes) : Bytes :=
  openSsl.final (openSsl.update (openSsl.update openSsl.init secretKey) msg)

/-- `server_verify_naive`. -/
def serverVerifyNaive (openSsl : OpenSsl) (secretKey msg token : Bytes) : Bool :=
  naiveMac openSsl secretKey msg == token

/-- The first loop of the attack: the words of a token, most significant byte first. -/
def loadState (validToken : Bytes) : Option Words :=
  if h : 32 ≤ validToken.length then
    some fun i ↦
      have : i.val < 8 := i.isLt
      validToken[i.val * 4].toUInt32 <<< 24 ||| validToken[i.val * 4 + 1].toUInt32 <<< 16 |||
        validToken[i.val * 4 + 2].toUInt32 <<< 8 ||| validToken[i.val * 4 + 3].toUInt32
  else none

/-- The `while` loop of the attack. The sum is a `size_t`, whose wrapping does not change the
remainder. -/
def pushZeros (length : ℕ) (padding : Bytes) : Bytes :=
  if (length + padding.length) % 64 = 56 then padding else pushZeros length (padding ++ [0])
termination_by (120 - (length + padding.length) % 64) % 64
decreasing_by
  rw [List.length_append, List.length_singleton]
  omega

/-- `padding_1`, for the `uint32_t` length. -/
def padding1 (length : UInt32) : Bytes :=
  pushZeros length.toNat [0x80] ++
    (List.range 8).reverse.map fun i ↦ UInt8.ofNat ((length * 8).toNat >>> (i * 8))

/-- `length_extension_attack`. -/
def lengthExtensionAttack (openSsl : OpenSsl) (originalMsg validToken extension : Bytes) :
    Option (Bytes × Bytes) :=
  (loadState validToken).map fun state ↦
    let length := UInt32.ofNat (keyLen + originalMsg.length)
    let extendedMsg := originalMsg ++ padding1 length ++ extension
    let ctx := { openSsl.init with
      h := state
      nl := UInt32.ofNat ((keyLen + originalMsg.length + (padding1 length).length) * 8)
      nh := 0
      num := 0 }
    (extendedMsg, openSsl.final (openSsl.update ctx extension))

end DailyChallenge.LengthExtension
