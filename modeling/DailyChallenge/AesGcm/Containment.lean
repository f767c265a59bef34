import Mathlib
import DailyChallenge.AesGcm.Evp

/-!
# What a failed decryption leaves in the output buffer

`EVP_DecryptUpdate` writes the plaintext before the tag is checked. `Exits` lists the ways out of
`aes_gcm_decrypt` with what the buffer holds then: nothing has been written up to the update, a
wrong tag wipes the buffer, and in between, where the tag cannot be set, the plaintext stays.
-/

set_option autoImplicit false
set_option relaxedAutoImplicit false

namespace DailyChallenge.AesGcm

open Library

variable {Ctx : Type} {evp : Evp Ctx} {aead : Aead Bytes Bytes} {session : Ctx → Option Session}
  {key iv aad ciphertext tagIn : Bytes} {plaintextOut : ℕ → UInt8}

/-- What `EVP_DecryptUpdate` decrypts: as much of the ciphertext as its length says, as an `int`. -/
def decryptedBytes (aead : Aead Bytes Bytes) (key iv ciphertext : Bytes) : Bytes :=
  aead.crypt key iv (ciphertext.take (toInt ciphertext.length).toNat)

/-- Where a call returns -1, each byte of the buffer is zero or what it was on entry. -/
def Contained (evp : Evp Ctx) (key iv aad ciphertext tagIn : Bytes) (plaintextOut : ℕ → UInt8) :
    Prop :=
  (aesGcmDecrypt evp key iv aad ciphertext tagIn plaintextOut).ret = -1 → ∀ i,
    (aesGcmDecrypt evp key iv aad ciphertext tagIn plaintextOut).plaintextOut i = 0 ∨
      (aesGcmDecrypt evp key iv aad ciphertext tagIn plaintextOut).plaintextOut i = plaintextOut i

/-- The ciphertext is decrypted, and then the tag cannot be set. -/
def TagUnset (evp : Evp Ctx) (key iv aad ciphertext tagIn : Bytes) : Prop :=
  ∃ ctx ctx' written len, evp.begin .decrypt key iv aad = some ctx ∧
    evp.update .decrypt ctx ciphertext (toInt ciphertext.length) = some (ctx', written, len) ∧
    evp.setTag ctx' tagIn = none

/-- A byte would be decrypted to neither zero nor what its place holds. -/
def Reveals (aead : Aead Bytes Bytes) (key iv ciphertext : Bytes) (plaintextOut : ℕ → UInt8) :
    Prop :=
  ∃ i byte, (decryptedBytes aead key iv ciphertext)[i]? = some byte ∧ byte ≠ 0 ∧
    byte ≠ plaintextOut i

/-! ### The ways out -/

theorem length_decryptedBytes_le :
    (decryptedBytes aead key iv ciphertext).length ≤ ciphertext.length := by
  rw [decryptedBytes, Aead.length_crypt, List.length_take]
  exact min_le_right _ _

/-- A context after the calls before the text. -/
theorem Evp.Documented.begin (hevp : evp.Documented aead session) {direction : Direction}
    {ctx : Ctx} (h : evp.begin direction key iv aad = some ctx) :
    0 ≤ toInt aad.length ∧
      session ctx = some ⟨direction, key, iv, aad.take (toInt aad.length).toNat, [], none⟩ := by
  obtain ⟨fresh, -, h⟩ := Option.bind_eq_some_iff.mp h
  obtain ⟨chosen, -, h⟩ := Option.bind_eq_some_iff.mp h
  obtain ⟨keyed, hkeyed, h⟩ := Option.bind_eq_some_iff.mp h
  exact hevp.updateAad (hevp.initKey hkeyed) h

/-- The ways out of `aes_gcm_decrypt`. -/
inductive Exits (evp : Evp Ctx) (aead : Aead Bytes Bytes) (key iv aad ciphertext tagIn : Bytes)
    (plaintextOut : ℕ → UInt8) : Decrypted → Prop
  | untouched (hset : ¬ TagUnset evp key iv aad ciphertext tagIn) :
    Exits evp aead key iv aad ciphertext tagIn plaintextOut ⟨-1, plaintextOut⟩
  | unset (hset : TagUnset evp key iv aad ciphertext tagIn) :
    Exits evp aead key iv aad ciphertext tagIn plaintextOut
      ⟨-1, overlay (decryptedBytes aead key iv ciphertext) plaintextOut⟩
  | wiped (hset : ¬ TagUnset evp key iv aad ciphertext tagIn) :
    Exits evp aead key iv aad ciphertext tagIn plaintextOut
      ⟨-1, overlay (List.replicate ciphertext.length 0)
        (overlay (decryptedBytes aead key iv ciphertext) plaintextOut)⟩
  | returned (hset : ¬ TagUnset evp key iv aad ciphertext tagIn)
    (hlength : 0 ≤ toInt ciphertext.length) :
    Exits evp aead key iv aad ciphertext tagIn plaintextOut
      ⟨toInt ciphertext.length, overlay (decryptedBytes aead key iv ciphertext) plaintextOut⟩

/-- Every call takes one of them. -/
theorem exits_aesGcmDecrypt (hevp : evp.Documented aead session)
    (key iv aad ciphertext tagIn : Bytes) (plaintextOut : ℕ → UInt8) :
    Exits evp aead key iv aad ciphertext tagIn plaintextOut
      (aesGcmDecrypt evp key iv aad ciphertext tagIn plaintextOut) := by
  unfold aesGcmDecrypt
  split
  case h_1 hbegin =>
    refine .untouched ?_
    rintro ⟨ctx, ctx', written, len, hbegin', -⟩
    simp [hbegin] at hbegin'
  case h_2 ctx hbegin =>
    split
    case h_1 hupdate =>
      refine .untouched ?_
      rintro ⟨ctx', ctx'', written, len, hbegin', hupdate', -⟩
      obtain rfl := Option.some_inj.mp (hbegin.symm.trans hbegin')
      simp [hupdate] at hupdate'
    case h_2 updated written len hupdate =>
      obtain ⟨-, hsession⟩ := hevp.begin hbegin
      obtain ⟨hlength, rfl, rfl, hsession⟩ := hevp.update hsession hupdate
      split
      case h_1 hset => exact .unset ⟨ctx, updated, _, _, hbegin, hupdate, hset⟩
      case h_2 tagged hset =>
        have hnot : ¬ TagUnset evp key iv aad ciphertext tagIn := by
          rintro ⟨ctx', updated', written, len, hbegin', hupdate', hset'⟩
          obtain rfl := Option.some_inj.mp (hbegin.symm.trans hbegin')
          obtain rfl := (Prod.mk.inj (Option.some_inj.mp (hupdate.symm.trans hupdate'))).1
          simp [hset] at hset'
        split
        case h_1 done last lastLen hfinal =>
          obtain ⟨rfl, rfl, -⟩ := hevp.final (hevp.setTag hsession hset) hfinal
          rw [add_zero]
          exact .returned hnot hlength
        case h_2 => exact .wiped hnot

/-! ### Containment -/

/-- An overlay shows zeros and what it covers exactly when none of its bytes is anything else. -/
theorem overlay_hidden_iff {bytes : Bytes} {memory : ℕ → UInt8} :
    (∀ i, overlay bytes memory i = 0 ∨ overlay bytes memory i = memory i) ↔
      ¬ ∃ i byte, bytes[i]? = some byte ∧ byte ≠ 0 ∧ byte ≠ memory i := by
  constructor
  · rintro hhidden ⟨i, byte, hbyte, hzero, hentry⟩
    have hleft := hhidden i
    rw [overlay_eq_of_some hbyte] at hleft
    exact hleft.elim hzero hentry
  · intro hnone i
    cases hbyte : bytes[i]? with
    | none => exact Or.inr (overlay_eq_of_none hbyte)
    | some byte =>
      rw [overlay_eq_of_some hbyte]
      by_contra hshown
      rw [not_or] at hshown
      exact hnone ⟨i, byte, hbyte, hshown⟩

/-- Zeros over an overlay that is no longer leave nothing of it. -/
theorem overlay_zeros {bytes : Bytes} {memory : ℕ → UInt8} {count : ℕ} (h : bytes.length ≤ count)
    (i : ℕ) :
    overlay (List.replicate count 0) (overlay bytes memory) i = 0 ∨
      overlay (List.replicate count 0) (overlay bytes memory) i = memory i := by
  rcases Nat.lt_or_ge i count with hinside | hbeyond
  · refine Or.inl (overlay_eq_of_some ?_)
    rw [List.getElem?_replicate, if_pos hinside]
  · have hzeros : (List.replicate count (0 : UInt8))[i]? = none :=
      List.getElem?_eq_none (by rwa [List.length_replicate])
    have hbytes : bytes[i]? = none := List.getElem?_eq_none (h.trans hbeyond)
    exact Or.inr ((overlay_eq_of_none hzeros).trans (overlay_eq_of_none hbytes))

/-- A failed decryption leaves no decrypted byte behind, unless it has decrypted one and then cannot
set the tag. -/
theorem contained_iff (hevp : evp.Documented aead session) :
    Contained evp key iv aad ciphertext tagIn plaintextOut ↔
      ¬ (TagUnset evp key iv aad ciphertext tagIn ∧
        Reveals aead key iv ciphertext plaintextOut) := by
  have hexits := exits_aesGcmDecrypt hevp key iv aad ciphertext tagIn plaintextOut
  unfold Contained
  generalize aesGcmDecrypt evp key iv aad ciphertext tagIn plaintextOut = result at hexits
  cases hexits with
  | untouched hset => exact iff_of_true (fun _ i ↦ Or.inr rfl) fun h ↦ hset h.1
  | unset hset =>
    rw [not_and]
    constructor
    · exact fun hcontained _ ↦ overlay_hidden_iff.mp (hcontained rfl)
    · exact fun hhidden _ ↦ overlay_hidden_iff.mpr (hhidden hset)
  | wiped hset =>
    exact iff_of_true (fun _ ↦ overlay_zeros length_decryptedBytes_le) fun h ↦ hset h.1
  | returned hset hlength =>
    refine iff_of_true (fun hret ↦ ?_) fun h ↦ hset h.1
    have hminus : toInt ciphertext.length = -1 := hret
    omega

/-- The theorem for a byte of ciphertext under the zero key and IV. -/
theorem contained_zeroKey :
    Contained openSsl (List.replicate 16 0) (List.replicate 12 0) [] [0x42] (List.replicate 16 0)
      (fun _ ↦ 0xff) ↔
    ¬ (TagUnset openSsl (List.replicate 16 0) (List.replicate 12 0) [] [0x42]
        (List.replicate 16 0) ∧
      Reveals aes128Gcm (List.replicate 16 0) (List.replicate 12 0) [0x42] fun _ ↦ 0xff) :=
  contained_iff openSsl_documented

/-- OpenSSL where setting a tag fails. -/
def unsetTag : Evp Session := { openSsl with setTag := fun _ _ ↦ none }

theorem unsetTag_documented : unsetTag.Documented aes128Gcm some :=
  { openSsl_documented with
    setTag := by
      rintro current ctx tag ctx' - ⟨⟩ }

/-- The letter A stays in the buffer of a decryption that returns -1. -/
theorem not_contained_unsetTag : ¬ ∀ (evp : Evp Session) (aead : Aead Bytes Bytes)
    (session : Session → Option Session), evp.Documented aead session →
      ∀ (key iv aad ciphertext tagIn : Bytes) (plaintextOut : ℕ → UInt8),
        Contained evp key iv aad ciphertext tagIn plaintextOut := by
  intro h
  have hcontained := h unsetTag aes128Gcm some unsetTag_documented (List.replicate 16 0)
    (List.replicate 12 0) [] [0x42] (List.replicate 16 0) fun _ ↦ 0xff
  have hletter : (aesGcmDecrypt unsetTag (List.replicate 16 0) (List.replicate 12 0) [] [0x42]
      (List.replicate 16 0) fun _ ↦ 0xff).plaintextOut 0 = 0x41 := by
    decide +kernel
  have hleft := hcontained rfl 0
  rw [hletter] at hleft
  exact absurd hleft (by decide)

end DailyChallenge.AesGcm
