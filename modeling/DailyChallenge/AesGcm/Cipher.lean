import Mathlib
import DailyChallenge.Library.ByteMemory

/-!
# Encryption and decryption with AES-128-GCM

`aes_gcm_encrypt` and `aes_gcm_decrypt` of `03-aes_gcm_AEAD_nonce_reuse/aes_gcm.cpp`. The functions
of OpenSSL that they call are a parameter (`Evp`), and each of them may fail. A buffer that is read
comes with its length; a buffer that is written is what the caller's memory holds from its start on.
-/

set_option autoImplicit false
set_option relaxedAutoImplicit false

namespace DailyChallenge.AesGcm

open Library

/-- Whether a context encrypts or decrypts. -/
inductive Direction
  | encrypt
  | decrypt
deriving DecidableEq

/-- The functions of OpenSSL that the code calls; a call that fails, with 0 or a null pointer, is
`none`. `init` is `EVP_EncryptInit_ex` or `EVP_DecryptInit_ex` with the cipher alone and `initKey`
the same with key and IV alone. `updateAad` is `EVP_EncryptUpdate` or `EVP_DecryptUpdate` without an
output buffer, and `update` the same with one: the bytes it writes and what it stores as their
number come with the context. The last argument of both is the number of bytes to read. -/
structure Evp (Ctx : Type) where
  new : Option Ctx
  init : Direction → Ctx → Option Ctx
  initKey : Direction → Ctx → (key iv : Bytes) → Option Ctx
  updateAad : Direction → Ctx → Bytes → ℤ → Option Ctx
  update : Direction → Ctx → Bytes → ℤ → Option (Ctx × Bytes × ℤ)
  final : Direction → Ctx → Option (Ctx × Bytes × ℤ)
  getTag : Ctx → Option Bytes
  setTag : Ctx → Bytes → Option Ctx

/-- The conversion of a `size_t` to an `int`, modulo `2 ^ 32`. -/
def toInt (size : ℕ) : ℤ :=
  if size % 2 ^ 32 < 2 ^ 31 then (size % 2 ^ 32 : ℕ) else (size % 2 ^ 32 : ℕ) - 2 ^ 32

theorem toInt_le (size : ℕ) : (toInt size).toNat ≤ size := by
  unfold toInt
  split_ifs <;> omega

variable {Ctx : Type}

/-- The calls before the text, which are the same in both functions. Where one fails the function
returns -1, and nothing has been written. -/
def Evp.begin (evp : Evp Ctx) (direction : Direction) (key iv aad : Bytes) : Option Ctx := do
  let ctx ← evp.new
  let ctx ← evp.init direction ctx
  let ctx ← evp.initKey direction ctx key iv
  evp.updateAad direction ctx aad (toInt aad.length)

/-- What a call of `aes_gcm_encrypt` returns, what its buffers hold then, and the context that it
has freed. -/
structure Encrypted (Ctx : Type) where
  ret : ℤ
  ciphertext : ℕ → UInt8
  tagOut : ℕ → UInt8
  freed : Option Ctx

/-- `aes_gcm_encrypt`. -/
def aesGcmEncrypt (evp : Evp Ctx) (key iv aad plaintext : Bytes) (ciphertext tagOut : ℕ → UInt8) :
    Encrypted Ctx :=
  match evp.begin .encrypt key iv aad with
  | none => ⟨-1, ciphertext, tagOut, none⟩
  | some ctx =>
    match evp.update .encrypt ctx plaintext (toInt plaintext.length) with
    | none => ⟨-1, ciphertext, tagOut, none⟩
    | some (ctx, written, len) =>
      match evp.final .encrypt ctx with
      | none => ⟨-1, overlay written ciphertext, tagOut, none⟩
      | some (ctx, last, lastLen) =>
        match evp.getTag ctx with
        | none => ⟨-1, copyTo (overlay written ciphertext) len.toNat last, tagOut, none⟩
        | some tag =>
          ⟨len + lastLen, copyTo (overlay written ciphertext) len.toNat last, overlay tag tagOut,
            some ctx⟩

/-- What a call of `aes_gcm_decrypt` returns and what its buffer holds then. -/
structure Decrypted where
  ret : ℤ
  plaintextOut : ℕ → UInt8

/-- `aes_gcm_decrypt`. -/
def aesGcmDecrypt (evp : Evp Ctx) (key iv aad ciphertext tagIn : Bytes)
    (plaintextOut : ℕ → UInt8) : Decrypted :=
  match evp.begin .decrypt key iv aad with
  | none => ⟨-1, plaintextOut⟩
  | some ctx =>
    match evp.update .decrypt ctx ciphertext (toInt ciphertext.length) with
    | none => ⟨-1, plaintextOut⟩
    | some (ctx, written, len) =>
      match evp.setTag ctx tagIn with
      | none => ⟨-1, overlay written plaintextOut⟩
      | some ctx =>
        match evp.final .decrypt ctx with
        | some (_, last, lastLen) =>
          ⟨len + lastLen, copyTo (overlay written plaintextOut) len.toNat last⟩
        -- verify failed
        | none =>
          ⟨-1, overlay (List.replicate ciphertext.length 0) (overlay written plaintextOut)⟩

end DailyChallenge.AesGcm
