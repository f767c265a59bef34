import Mathlib
import DailyChallenge.AesGcm.Containment

/-!
# Which messages make the round trip

`aes_gcm_encrypt` and `aes_gcm_decrypt` compute `Aead.encrypt` and `Aead.decrypt`, of as much of the
associated data and the text as their lengths say as an `int`. With a length that converts to a
negative number encryption refuses, but from `2 ^ 32` bytes on it may succeed on a part.
-/

set_option autoImplicit false
set_option relaxedAutoImplicit false

namespace DailyChallenge.AesGcm

open Library

variable {Ctx : Type} {evp : Evp Ctx} {aead : Aead Bytes Bytes} {session : Ctx → Option Session}
  {key iv aad plaintext ciphertext tag : Bytes}

/-- The first bytes of a buffer. -/
def firstBytes (memory : ℕ → UInt8) (count : ℕ) : Bytes := (List.range' 0 count).map memory

/-- An encryption that succeeds has been given all of the associated data and of the plaintext, it
returns the length of the plaintext, and so does the decryption of what it returns, with the
plaintext in its buffer. -/
def RoundTrips (evp : Evp Ctx) (session : Ctx → Option Session) (key iv aad plaintext : Bytes) :
    Prop :=
  ∀ ciphertext tagOut plaintextOut : ℕ → UInt8, ∀ encrypted,
    aesGcmEncrypt evp key iv aad plaintext ciphertext tagOut = encrypted → 0 ≤ encrypted.ret →
    (∃ ctx, encrypted.freed = some ctx ∧
      session ctx = some ⟨.encrypt, key, iv, aad, plaintext, none⟩) ∧
    encrypted.ret = plaintext.length ∧
    ∀ decrypted, aesGcmDecrypt evp key iv aad
      (firstBytes encrypted.ciphertext encrypted.ret.toNat) (firstBytes encrypted.tagOut 16)
        plaintextOut = decrypted →
      decrypted.ret = plaintext.length ∧ BytesAt decrypted.plaintextOut 0 plaintext

theorem toInt_of_lt {size : ℕ} (h : size < 2 ^ 31) : toInt size = size := by
  unfold toInt
  split_ifs <;> omega

theorem toInt_nonneg_of_lt {size : ℕ} (h : size < 2 ^ 31) : 0 ≤ toInt size := by
  rw [toInt_of_lt h]
  exact Int.natCast_nonneg size

/-- A length that is converted to itself. -/
theorem lt_of_toInt_eq {size : ℕ} (h : (toInt size).toNat = size) : size < 2 ^ 31 := by
  unfold toInt at h
  split_ifs at h <;> omega

theorem firstBytes_overlay (bytes : Bytes) (memory : ℕ → UInt8) :
    firstBytes (overlay bytes memory) bytes.length = bytes :=
  (bytesAt_overlay bytes memory).read

/-! ### Calls that succeed -/

/-- The calls before the text succeed where the length of the associated data is not negative. -/
theorem Evp.Reliable.begin (hreliable : evp.Reliable aead session)
    (hevp : evp.Documented aead session) (direction : Direction) (key iv : Bytes)
    (haad : 0 ≤ toInt aad.length) :
    ∃ ctx, evp.begin direction key iv aad = some ctx ∧
      session ctx = some ⟨direction, key, iv, aad.take (toInt aad.length).toNat, [], none⟩ := by
  obtain ⟨fresh, chosen, keyed, hnew, hinit, hkeyed⟩ := hreliable.keyed direction key iv
  obtain ⟨ctx, hctx⟩ := hreliable.updateAad aad (hevp.initKey hkeyed) haad
  have hbegin : evp.begin direction key iv aad = some ctx := by
    simp only [Evp.begin, hnew, hinit, hkeyed, hctx, Option.bind_eq_bind, Option.bind_some]
  exact ⟨ctx, hbegin, (hevp.begin hbegin).2⟩

/-- What `aes_gcm_encrypt` does where neither length is negative. -/
theorem aesGcmEncrypt_eq (hevp : evp.Documented aead session)
    (hreliable : evp.Reliable aead session) (haad : 0 ≤ toInt aad.length)
    (hplaintext : 0 ≤ toInt plaintext.length) (memory tagOut : ℕ → UInt8) :
    ∃ ctx, session ctx = some ⟨.encrypt, key, iv, aad.take (toInt aad.length).toNat,
        plaintext.take (toInt plaintext.length).toNat, none⟩ ∧
      aesGcmEncrypt evp key iv aad plaintext memory tagOut =
        ⟨toInt plaintext.length,
          overlay (aead.encrypt key iv (aad.take (toInt aad.length).toNat)
            (plaintext.take (toInt plaintext.length).toNat)).1 memory,
          overlay (aead.encrypt key iv (aad.take (toInt aad.length).toNat)
            (plaintext.take (toInt plaintext.length).toNat)).2 tagOut, some ctx⟩ := by
  obtain ⟨ctx, hbegin, hsession⟩ := hreliable.begin hevp .encrypt key iv haad
  obtain ⟨⟨updated, written, len⟩, hupdate⟩ := hreliable.update plaintext hsession hplaintext
  obtain ⟨-, hlen, hwritten, hupdated⟩ := hevp.update hsession hupdate
  obtain ⟨⟨done, last, lastLen⟩, hfinal⟩ :=
    hreliable.final .encrypt hupdated rfl Direction.noConfusion
  obtain ⟨hlast, hlastLen, hdone, -⟩ := hevp.final hupdated hfinal
  rw [hupdated] at hdone
  obtain ⟨tag, htag⟩ := hreliable.getTag hdone rfl
  refine ⟨done, hdone, ?_⟩
  simp only [aesGcmEncrypt, hbegin, hupdate, hfinal, htag]
  rw [hevp.getTag hdone htag, hlen, hwritten, hlast, hlastLen, add_zero]
  rfl

/-- What `aes_gcm_decrypt` does where the tag is right and neither length is too long. -/
theorem aesGcmDecrypt_eq (hevp : evp.Documented aead session)
    (hreliable : evp.Reliable aead session) (haad : aad.length < 2 ^ 31)
    (hciphertext : ciphertext.length < 2 ^ 31)
    (hdecrypt : aead.decrypt key iv aad ciphertext tag = some plaintext)
    (memory : ℕ → UInt8) :
    aesGcmDecrypt evp key iv aad ciphertext tag memory =
      ⟨plaintext.length, overlay plaintext memory⟩ := by
  obtain ⟨htag, hplaintext⟩ := Option.ite_none_right_eq_some.mp hdecrypt
  obtain rfl := Option.some_inj.mp hplaintext
  obtain ⟨ctx, hbegin, hsession⟩ := hreliable.begin hevp .decrypt key iv (toInt_nonneg_of_lt haad)
  obtain ⟨⟨updated, written, len⟩, hupdate⟩ :=
    hreliable.update ciphertext hsession (toInt_nonneg_of_lt hciphertext)
  obtain ⟨-, hlen, hwritten, hupdated⟩ := hevp.update hsession hupdate
  obtain ⟨tagged, hset⟩ := hreliable.setTag tag hupdated
  have htagged := hevp.setTag hupdated hset
  rw [toInt_of_lt haad, toInt_of_lt hciphertext, Int.toNat_natCast, Int.toNat_natCast,
    List.take_length, List.take_length] at htagged
  obtain ⟨⟨done, last, lastLen⟩, hfinal⟩ :=
    hreliable.final .decrypt htagged rfl fun _ ↦ congrArg some htag
  obtain ⟨hlast, hlastLen, -⟩ := hevp.final htagged hfinal
  simp only [aesGcmDecrypt, hbegin, hupdate, hset, hfinal]
  rw [hlen, hwritten, hlast, hlastLen, add_zero, toInt_of_lt hciphertext, Int.toNat_natCast,
    List.take_length, Aead.length_crypt]
  rfl

/-- An encryption that succeeds has been given no negative length. -/
theorem nonneg_of_encrypted (hevp : evp.Documented aead session) {memory tagOut : ℕ → UInt8}
    (hret : 0 ≤ (aesGcmEncrypt evp key iv aad plaintext memory tagOut).ret) :
    0 ≤ toInt aad.length ∧ 0 ≤ toInt plaintext.length := by
  cases hbegin : evp.begin .encrypt key iv aad with
  | none => simp [aesGcmEncrypt, hbegin] at hret
  | some ctx =>
    obtain ⟨haad, hsession⟩ := hevp.begin hbegin
    cases hupdate : evp.update .encrypt ctx plaintext (toInt plaintext.length) with
    | none => simp [aesGcmEncrypt, hbegin, hupdate] at hret
    | some result =>
      exact ⟨haad, (hevp.update hsession hupdate).1⟩

/-- A list that is taken up to its length as an `int` is short. -/
theorem lt_of_take_eq {bytes : Bytes} (h : bytes.take (toInt bytes.length).toNat = bytes) :
    bytes.length < 2 ^ 31 := by
  have hlength := congrArg List.length h
  rw [List.length_take, min_eq_left (toInt_le _)] at hlength
  exact lt_of_toInt_eq hlength

/-- A short list is taken as a whole. -/
theorem take_of_lt {bytes : Bytes} (h : bytes.length < 2 ^ 31) :
    bytes.take (toInt bytes.length).toNat = bytes := by
  rw [toInt_of_lt h, Int.toNat_natCast, List.take_length]

/-! ### The round trip -/

/-- What a short message is encrypted to is decrypted to the message. -/
theorem aesGcmDecrypt_encrypted (hevp : evp.Documented aead session)
    (hreliable : evp.Reliable aead session) (haad : aad.length < 2 ^ 31)
    (hplaintext : plaintext.length < 2 ^ 31) (ciphertext tagOut plaintextOut : ℕ → UInt8) :
    aesGcmDecrypt evp key iv aad
      (firstBytes (overlay (aead.encrypt key iv aad plaintext).1 ciphertext)
        (toInt plaintext.length).toNat)
      (firstBytes (overlay (aead.encrypt key iv aad plaintext).2 tagOut) 16) plaintextOut =
        ⟨plaintext.length, overlay plaintext plaintextOut⟩ := by
  have hlength : (aead.encrypt key iv aad plaintext).1.length = plaintext.length :=
    aead.length_crypt key iv plaintext
  have htag : (aead.encrypt key iv aad plaintext).2.length = 16 := hevp.length_tag
  rw [toInt_of_lt hplaintext, Int.toNat_natCast, ← hlength, ← htag, firstBytes_overlay,
    firstBytes_overlay, hlength]
  exact aesGcmDecrypt_eq hevp hreliable haad (by rwa [hlength])
    (aead.decrypt_encrypt key iv aad plaintext) plaintextOut

/-- Where encryption succeeds on a part of the message there is no round trip. -/
theorem lt_of_roundTrips (hevp : evp.Documented aead session)
    (hreliable : evp.Reliable aead session) (haad : 0 ≤ toInt aad.length)
    (hplaintext : 0 ≤ toInt plaintext.length)
    (h : RoundTrips evp session key iv aad plaintext) :
    aad.length < 2 ^ 31 ∧ plaintext.length < 2 ^ 31 := by
  obtain ⟨ctx, hsession, hencrypted⟩ :=
    @aesGcmEncrypt_eq _ _ _ _ key iv _ _ hevp hreliable haad hplaintext 0 0
  obtain ⟨⟨freed, hfreed, hwhole⟩, -⟩ := h 0 0 0 _ hencrypted hplaintext
  obtain rfl := Option.some_inj.mp hfreed
  obtain ⟨-, -, -, haadTaken, htextTaken, -⟩ :=
    Session.mk.inj (Option.some_inj.mp (hsession.symm.trans hwhole))
  exact ⟨lt_of_take_eq haadTaken, lt_of_take_eq htextTaken⟩

/-- Messages of fewer than `2 ^ 31` bytes make the round trip, and so do those that encryption
refuses, but no others. -/
theorem roundTrips_iff (hevp : evp.Documented aead session)
    (hreliable : evp.Reliable aead session) :
    RoundTrips evp session key iv aad plaintext ↔
      (0 ≤ toInt aad.length → 0 ≤ toInt plaintext.length →
        aad.length < 2 ^ 31 ∧ plaintext.length < 2 ^ 31) := by
  constructor
  · intro h haad hplaintext
    exact lt_of_roundTrips hevp hreliable haad hplaintext h
  · rintro hshort ciphertext tagOut plaintextOut encrypted rfl hret
    obtain ⟨haad, hplaintext⟩ := nonneg_of_encrypted hevp hret
    obtain ⟨ctx, hsession, hencrypted⟩ :=
      @aesGcmEncrypt_eq _ _ _ _ key iv _ _ hevp hreliable haad hplaintext ciphertext tagOut
    obtain ⟨haadShort, hplaintextShort⟩ := hshort haad hplaintext
    rw [take_of_lt haadShort, take_of_lt hplaintextShort] at hsession hencrypted
    rw [hencrypted]
    refine ⟨⟨ctx, rfl, hsession⟩, toInt_of_lt hplaintextShort, ?_⟩
    intro decrypted hdecrypted
    obtain rfl := (aesGcmDecrypt_encrypted hevp hreliable haadShort hplaintextShort ciphertext
      tagOut plaintextOut).symm.trans hdecrypted
    exact ⟨rfl, bytesAt_overlay _ _⟩

/-- The plaintext and the associated data of 16 zero bytes each. -/
theorem roundTrips_zeroKey :
    RoundTrips openSsl some (List.replicate 16 0) (List.replicate 12 0) (List.replicate 16 0)
      (List.replicate 16 0) ↔
    (0 ≤ toInt (List.replicate 16 (0 : UInt8)).length →
      0 ≤ toInt (List.replicate 16 (0 : UInt8)).length →
      (List.replicate 16 (0 : UInt8)).length < 2 ^ 31 ∧
        (List.replicate 16 (0 : UInt8)).length < 2 ^ 31) :=
  roundTrips_iff openSsl_documented openSsl_reliable

/-- `2 ^ 32` bytes of associated data are none to OpenSSL, and the encryption of no plaintext
succeeds. -/
theorem not_roundTrips_longAad : ¬ ∀ (evp : Evp Session) (aead : Aead Bytes Bytes)
    (session : Session → Option Session), evp.Documented aead session →
      evp.Reliable aead session → ∀ key iv aad plaintext : Bytes,
        aad.length < 2 ^ 64 → plaintext.length < 2 ^ 64 →
          RoundTrips evp session key iv aad plaintext := by
  intro h
  have hlength : (List.replicate (2 ^ 32) (0 : UInt8)).length = 2 ^ 32 := List.length_replicate
  have hzero : toInt (List.replicate (2 ^ 32) (0 : UInt8)).length = 0 := by
    rw [hlength]
    decide
  have htrip := h openSsl aes128Gcm some openSsl_documented openSsl_reliable
    (List.replicate 16 0) (List.replicate 12 0) (List.replicate (2 ^ 32) 0) []
    (by rw [hlength]; decide) (by decide)
  have hshort := (lt_of_roundTrips openSsl_documented openSsl_reliable hzero.ge le_rfl htrip).1
  rw [hlength] at hshort
  exact absurd hshort (by decide)

end DailyChallenge.AesGcm
