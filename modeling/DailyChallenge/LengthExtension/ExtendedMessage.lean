import Mathlib
import DailyChallenge.LengthExtension.Forgery

/-!
# The message that the attack returns

`Extends` is the contract of `length_extension_attack` for the message: the original one, then the
SHA-256 padding for the key and the original message, then the extension. The code counts the bits
in a `uint32_t`. The number of zeros does not suffer from it (`padding1_wrapped`), but the length
field does, and `extends_attack_iff` says from which length on.
-/

set_option autoImplicit false
set_option relaxedAutoImplicit false

namespace DailyChallenge.LengthExtension

open Library

/-- The SHA-256 padding after so many bytes: `0x80`, the fewest zeros that reach 56 modulo 64, and
the number of bits as a 64-bit big-endian integer. -/
def IsPadding (total : ℕ) (bytes : Bytes) : Prop :=
  ∃ zeros, bytes = 0x80 :: List.replicate zeros 0 ++ bigEndian 8 (8 * total) ∧
    (total + 1 + zeros) % 64 = 56 ∧ ∀ fewer < zeros, (total + 1 + fewer) % 64 ≠ 56

/-- The original message, its padding behind a key, and the extension. -/
def Extends (originalMsg extension extendedMsg : Bytes) : Prop :=
  ∃ padding, IsPadding (keyLen + originalMsg.length) padding ∧
    extendedMsg = originalMsg ++ padding ++ extension

variable {total bits : ℕ}

/-- There is one padding for a length, with its zeros and its count of bits. -/
theorem isPadding_iff (bytes : Bytes) :
    IsPadding total bytes ↔ bytes = padding (total % 64) (8 * total) := by
  have hfewest : ∀ zeros, (total + 1 + zeros) % 64 = 56 ∧
      (∀ fewer < zeros, (total + 1 + fewer) % 64 ≠ 56) ↔ zeros = (119 - total % 64) % 64 := by
    intro zeros
    constructor
    · rintro ⟨hzeros, hfewer⟩
      by_contra hne
      have hleast := hfewer ((119 - total % 64) % 64)
      omega
    · rintro rfl
      exact ⟨by omega, fun fewer hfewer ↦ by omega⟩
  constructor
  · rintro ⟨zeros, rfl, hzeros⟩
    rw [(hfewest zeros).mp hzeros, padding]
  · rintro rfl
    exact ⟨_, rfl, (hfewest _).mpr rfl⟩

/-- Below 2 ^ 64 the length field shows the count of bits. -/
theorem padding_injective {num bits bits' : ℕ} (hbits : bits < 2 ^ 64) (hbits' : bits' < 2 ^ 64)
    (h : padding num bits = padding num bits') : bits = bits' := by
  have hfield := List.reverse_injective (List.append_cancel_left h)
  rw [← ofLittleEndian_littleEndian_of_lt (show bits < 256 ^ 8 from hbits), hfield,
    ofLittleEndian_littleEndian_of_lt (show bits' < 256 ^ 8 from hbits')]

/-- The attacker's padding is the padding exactly when the count of bits fits a `uint32_t`. -/
theorem isPadding_padding1_iff (htotal : total * 8 < 2 ^ 64) :
    IsPadding total (padding1 (UInt32.ofNat total)) ↔ total < 2 ^ 29 := by
  rw [isPadding_iff, padding1_wrapped]
  constructor
  · intro h
    have hbits := padding_injective (by omega) (by omega) h
    omega
  · intro h
    have hbits : total * 8 < 2 ^ 32 := by omega
    rw [Nat.mod_eq_of_lt hbits, mul_comm total]

variable {openSsl : OpenSsl} {originalMsg validToken extension : Bytes}

/-- What the attack returns, from a token of 32 bytes or more. -/
theorem exists_attack (openSsl : OpenSsl) (originalMsg extension : Bytes)
    (htoken : 32 ≤ validToken.length) :
    ∃ forgedToken, lengthExtensionAttack openSsl originalMsg validToken extension =
      some (originalMsg ++ padding1 (UInt32.ofNat (keyLen + originalMsg.length)) ++ extension,
        forgedToken) := by
  rw [lengthExtensionAttack, loadState, dif_pos htoken]
  exact ⟨_, rfl⟩

/-- Where the message returned is the extended one, what the attack put behind the original is the
padding. -/
theorem isPadding_of_extends (htoken : 32 ≤ validToken.length)
    (h : ∃ extendedMsg forgedToken,
      lengthExtensionAttack openSsl originalMsg validToken extension =
        some (extendedMsg, forgedToken) ∧ Extends originalMsg extension extendedMsg) :
    IsPadding (keyLen + originalMsg.length)
      (padding1 (UInt32.ofNat (keyLen + originalMsg.length))) := by
  obtain ⟨forgedToken, hattack⟩ := exists_attack openSsl originalMsg extension htoken
  obtain ⟨extendedMsg, forgedToken', hattack', bytes, hpadding, rfl⟩ := h
  rw [hattack] at hattack'
  obtain ⟨hsame, -⟩ := Prod.mk.inj (Option.some.inj hattack')
  have hbytes := List.append_cancel_left (List.append_cancel_right hsame)
  rwa [hbytes]

/-- The message returned is the extended one exactly when its original has fewer than
`2 ^ 29 - KEY_LEN` bytes. -/
theorem extends_attack_iff (htoken : 32 ≤ validToken.length)
    (hlimit : (keyLen + originalMsg.length) * 8 < 2 ^ 64) :
    (∃ extendedMsg forgedToken,
      lengthExtensionAttack openSsl originalMsg validToken extension =
        some (extendedMsg, forgedToken) ∧ Extends originalMsg extension extendedMsg) ↔
      keyLen + originalMsg.length < 2 ^ 29 := by
  constructor
  · intro h
    exact (isPadding_padding1_iff hlimit).mp (isPadding_of_extends htoken h)
  · intro h
    obtain ⟨forgedToken, hattack⟩ := exists_attack openSsl originalMsg extension htoken
    exact ⟨_, forgedToken, hattack, _, (isPadding_padding1_iff hlimit).mpr h, rfl⟩

/-- The message of Part A. -/
theorem extends_attack_reboot : (∃ extendedMsg forgedToken,
    lengthExtensionAttack sha256 commandReboot (List.replicate 32 0) adminExtension =
      some (extendedMsg, forgedToken) ∧ Extends commandReboot adminExtension extendedMsg) ↔
    keyLen + commandReboot.length < 2 ^ 29 :=
  extends_attack_iff (by decide) (by decide)

/-- Behind a message of `2 ^ 29 - KEY_LEN` bytes the length field is zero. -/
theorem not_extends_attack_long : ¬ ∀ originalMsg validToken extension : Bytes,
    32 ≤ validToken.length → (keyLen + originalMsg.length) * 8 < 2 ^ 64 →
    ∃ extendedMsg forgedToken,
      lengthExtensionAttack sha256 originalMsg validToken extension =
        some (extendedMsg, forgedToken) ∧ Extends originalMsg extension extendedMsg := by
  intro h
  have htotal : keyLen + (List.replicate (2 ^ 29 - keyLen) (0 : UInt8)).length = 2 ^ 29 := by
    rw [List.length_replicate]
    rfl
  have hextends := h (List.replicate (2 ^ 29 - keyLen) 0) (List.replicate 32 0) [] (by decide)
    (by rw [htotal]; decide)
  have hlt := (isPadding_padding1_iff (by rw [htotal]; decide)).mp
    (isPadding_of_extends (by decide) hextends)
  omega

end DailyChallenge.LengthExtension
