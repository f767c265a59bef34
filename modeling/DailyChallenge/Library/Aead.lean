import Mathlib
import DailyChallenge.Library.ByteCodec

/-!
# Authenticated encryption with a keystream

An `Aead` xors the text with a keystream and takes a tag of the associated data and the ciphertext.
`crypt` undoes itself, and so `decrypt` gets back what `encrypt` was given.
-/

set_option autoImplicit false
set_option relaxedAutoImplicit false

namespace DailyChallenge.Library

/-- The keystream of a key and a nonce, and the tag of a ciphertext with its associated data. -/
structure Aead (Key Nonce : Type*) where
  keystream : Key → Nonce → ℕ → UInt8
  tag : Key → Nonce → (aad ciphertext : Bytes) → Bytes

namespace Aead

variable {Key Nonce : Type*} (aead : Aead Key Nonce) (key : Key) (nonce : Nonce)

/-- The text xor the keystream. -/
def crypt (text : Bytes) : Bytes :=
  text.mapIdx fun i byte ↦ byte ^^^ aead.keystream key nonce i

@[simp] theorem length_crypt (text : Bytes) : (aead.crypt key nonce text).length = text.length :=
  List.length_mapIdx

/-- The keystream cancels. -/
@[simp] theorem crypt_crypt (text : Bytes) :
    aead.crypt key nonce (aead.crypt key nonce text) = text := by
  apply List.ext_getElem (by simp)
  intro i hi hi'
  simp [crypt]

theorem getD_crypt {text : Bytes} {i : ℕ} (h : i < text.length) :
    (aead.crypt key nonce text).getD i 0 = text.getD i 0 ^^^ aead.keystream key nonce i := by
  simp [crypt, List.getD_eq_getElem?_getD, h]

/-- Two ciphertexts under one keystream and the text of the one give the text of the other. -/
theorem crypt_xor_crypt {first second : Bytes} {i : ℕ} (hfirst : i < first.length)
    (hsecond : i < second.length) :
    (aead.crypt key nonce first).getD i 0 ^^^ (aead.crypt key nonce second).getD i 0 ^^^
      first.getD i 0 = second.getD i 0 := by
  rw [getD_crypt aead key nonce hfirst, getD_crypt aead key nonce hsecond]
  generalize first.getD i 0 = a
  generalize second.getD i 0 = b
  generalize aead.keystream key nonce i = k
  calc a ^^^ k ^^^ (b ^^^ k) ^^^ a = (a ^^^ a) ^^^ (k ^^^ k) ^^^ b := by ac_rfl
    _ = b := by simp

/-- The ciphertext and its tag. -/
def encrypt (aad plaintext : Bytes) : Bytes × Bytes :=
  (aead.crypt key nonce plaintext, aead.tag key nonce aad (aead.crypt key nonce plaintext))

/-- The plaintext of a ciphertext with the right tag. -/
def decrypt (aad ciphertext tag : Bytes) : Option Bytes :=
  if tag = aead.tag key nonce aad ciphertext then some (aead.crypt key nonce ciphertext) else none

/-- What is encrypted can be decrypted. -/
theorem decrypt_encrypt (aad plaintext : Bytes) :
    aead.decrypt key nonce aad (aead.encrypt key nonce aad plaintext).1
      (aead.encrypt key nonce aad plaintext).2 = some plaintext := by
  rw [decrypt, encrypt, if_pos rfl, crypt_crypt]

/-- What is decrypted to a text is the ciphertext of the text, with its tag. -/
theorem decrypt_eq_some_iff {aad ciphertext tag plaintext : Bytes} :
    aead.decrypt key nonce aad ciphertext tag = some plaintext ↔
      ciphertext = aead.crypt key nonce plaintext ∧ tag = aead.tag key nonce aad ciphertext := by
  rw [decrypt, Option.ite_none_right_eq_some, Option.some_inj, and_comm]
  refine and_congr_left fun _ ↦ ?_
  constructor
  · rintro rfl
    exact (aead.crypt_crypt key nonce ciphertext).symm
  · rintro rfl
    exact aead.crypt_crypt key nonce plaintext

end Aead

end DailyChallenge.Library
