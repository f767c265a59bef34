import Mathlib
import DailyChallenge.AesGcm.Aes128
import DailyChallenge.AesGcm.Cipher

/-!
# What the code relies on of EVP

`Evp.Documented` is about the calls that succeed, for any `Aead`: what they write, and what a
context has been given by then (`Session`). Any of them may fail. `Evp.Reliable` adds that a call
fails for no other reason than a negative number of bytes or a wrong tag. `gcmEvp` is an
implementation over any `Aead` and `openSsl` the one over AES-128-GCM.
-/

set_option autoImplicit false
set_option relaxedAutoImplicit false

namespace DailyChallenge.AesGcm

open Library

/-- What a context has been given: the key and the IV, the associated data and the text that it has
read, and the tag to expect. -/
structure Session where
  direction : Direction
  key : Bytes
  iv : Bytes
  aad : Bytes
  text : Bytes
  tag : Option Bytes

/-- A session whose key and IV have been set. -/
def Session.keyed (direction : Direction) (key iv : Bytes) : Session :=
  ⟨direction, key, iv, [], [], none⟩

/-- The tag of a session: decryption reads the ciphertext and encryption makes it. -/
def Session.computedTag (aead : Aead Bytes Bytes) (session : Session) : Bytes :=
  match session.direction with
  | .encrypt => aead.tag session.key session.iv session.aad
      (aead.crypt session.key session.iv session.text)
  | .decrypt => aead.tag session.key session.iv session.aad session.text

variable {Ctx : Type}

/-- What is documented of the calls that succeed. -/
structure Evp.Documented (evp : Evp Ctx) (aead : Aead Bytes Bytes)
    (session : Ctx → Option Session) : Prop where
  initKey : ∀ {direction ctx key iv ctx'}, evp.initKey direction ctx key iv = some ctx' →
    session ctx' = some (.keyed direction key iv)
  updateAad : ∀ {direction key iv ctx aad inl ctx'},
    session ctx = some (.keyed direction key iv) →
    evp.updateAad direction ctx aad inl = some ctx' →
    0 ≤ inl ∧ session ctx' = some ⟨direction, key, iv, aad.take inl.toNat, [], none⟩
  update : ∀ {direction key iv aad ctx text inl ctx' written len},
    session ctx = some ⟨direction, key, iv, aad, [], none⟩ →
    evp.update direction ctx text inl = some (ctx', written, len) →
    0 ≤ inl ∧ len = inl ∧ written = aead.crypt key iv (text.take inl.toNat) ∧
      session ctx' = some ⟨direction, key, iv, aad, text.take inl.toNat, none⟩
  setTag : ∀ {current ctx tag ctx'}, session ctx = some current → evp.setTag ctx tag = some ctx' →
    session ctx' = some { current with tag := some tag }
  final : ∀ {direction current ctx ctx' last len}, session ctx = some current →
    evp.final direction ctx = some (ctx', last, len) →
    last = [] ∧ len = 0 ∧ session ctx' = session ctx ∧
      (direction = .decrypt → current.tag = some (current.computedTag aead))
  getTag : ∀ {current ctx tag}, session ctx = some current → evp.getTag ctx = some tag →
    tag = current.computedTag aead
  length_tag : ∀ {key iv aad ciphertext}, (aead.tag key iv aad ciphertext).length = 16

/-- The calls do not fail without a reason. -/
structure Evp.Reliable (evp : Evp Ctx) (aead : Aead Bytes Bytes)
    (session : Ctx → Option Session) : Prop where
  keyed : ∀ direction key iv, ∃ fresh chosen ctx, evp.new = some fresh ∧
    evp.init direction fresh = some chosen ∧ evp.initKey direction chosen key iv = some ctx
  updateAad : ∀ {direction key iv ctx inl} (aad : Bytes),
    session ctx = some (.keyed direction key iv) → 0 ≤ inl →
    ∃ ctx', evp.updateAad direction ctx aad inl = some ctx'
  update : ∀ {direction key iv aad ctx inl} (text : Bytes),
    session ctx = some ⟨direction, key, iv, aad, [], none⟩ → 0 ≤ inl →
    ∃ result, evp.update direction ctx text inl = some result
  setTag : ∀ {current ctx} (tag : Bytes), session ctx = some current →
    ∃ ctx', evp.setTag ctx tag = some ctx'
  final : ∀ direction {current ctx}, session ctx = some current → current.direction = direction →
    (direction = .decrypt → current.tag = some (current.computedTag aead)) →
    ∃ result, evp.final direction ctx = some result
  getTag : ∀ {current ctx}, session ctx = some current → current.direction = .encrypt →
    ∃ tag, evp.getTag ctx = some tag

/-! ### An implementation -/

/-- Contexts that are their sessions, over any `Aead`. -/
def gcmEvp (aead : Aead Bytes Bytes) : Evp Session where
  new := some (.keyed .encrypt [] [])
  init direction _ := some (.keyed direction [] [])
  initKey direction _ key iv := some (.keyed direction key iv)
  updateAad _ ctx aad inl :=
    if 0 ≤ inl then some { ctx with aad := aad.take inl.toNat } else none
  update _ ctx text inl :=
    if 0 ≤ inl then
      some ({ ctx with text := text.take inl.toNat },
        aead.crypt ctx.key ctx.iv (text.take inl.toNat), inl)
    else none
  final direction ctx :=
    if direction = .decrypt ∧ ctx.tag ≠ some (ctx.computedTag aead) then none
    else some (ctx, [], 0)
  getTag ctx := some (ctx.computedTag aead)
  setTag ctx tag := some { ctx with tag := some tag }

variable {aead : Aead Bytes Bytes}

theorem gcmEvp_documented
    (hlength : ∀ key iv aad ciphertext, (aead.tag key iv aad ciphertext).length = 16) :
    (gcmEvp aead).Documented aead some := by
  constructor
  case initKey =>
    rintro direction ctx key iv ctx' ⟨⟩
    rfl
  case updateAad =>
    rintro direction key iv ctx aad inl ctx' ⟨⟩ h
    obtain ⟨hinl, h⟩ := Option.ite_none_right_eq_some.mp h
    cases h
    exact ⟨hinl, rfl⟩
  case update =>
    rintro direction key iv aad ctx text inl ctx' written len ⟨⟩ h
    obtain ⟨hinl, h⟩ := Option.ite_none_right_eq_some.mp h
    cases h
    exact ⟨hinl, rfl, rfl, rfl⟩
  case setTag =>
    rintro current ctx tag ctx' ⟨⟩ ⟨⟩
    rfl
  case final =>
    rintro direction current ctx ctx' last len ⟨⟩ h
    obtain ⟨hright, h⟩ := Option.ite_none_left_eq_some.mp h
    cases h
    exact ⟨rfl, rfl, rfl, fun hdirection ↦ not_not.mp fun hwrong ↦ hright ⟨hdirection, hwrong⟩⟩
  case getTag =>
    rintro current ctx tag ⟨⟩ ⟨⟩
    rfl
  case length_tag => exact hlength _ _ _ _

theorem gcmEvp_reliable : (gcmEvp aead).Reliable aead some := by
  constructor
  case keyed => exact fun direction key iv ↦ ⟨_, _, _, rfl, rfl, rfl⟩
  case updateAad => exact fun aad _ hinl ↦ ⟨_, if_pos hinl⟩
  case update => exact fun text _ hinl ↦ ⟨_, if_pos hinl⟩
  case setTag => exact fun tag _ ↦ ⟨_, rfl⟩
  case final =>
    rintro direction current ctx ⟨⟩ - hright
    exact ⟨_, if_neg fun hwrong ↦ hwrong.2 (hright hwrong.1)⟩
  case getTag => exact fun _ _ ↦ ⟨_, rfl⟩

/-- OpenSSL where no call fails without a reason. -/
def openSsl : Evp Session := gcmEvp aes128Gcm

theorem openSsl_documented : openSsl.Documented aes128Gcm some :=
  gcmEvp_documented fun _ _ _ _ ↦ length_bigEndian 16 _

theorem openSsl_reliable : openSsl.Reliable aes128Gcm some := gcmEvp_reliable

end DailyChallenge.AesGcm
