import Mathlib
import DailyChallenge.AesGcm.RoundTrip

/-!
# Round trips with a forced issue

`main.cpp`: `round_trip` encrypts a message, damages what it got as the `forced_issue` says,
decrypts it and compares. `ct` is a vector of as many bytes as the message has, and an access
outside it leaves the model (`Fault.outOfBounds`). The outcome is settled for every message and key
(`roundTrip_outcome`): a damaged trip comes back with the message where the damage changes nothing
and nowhere else, whatever the tag is worth, except for other associated data, which only the tag
tells apart; changing the first byte of an empty message is the fault. The trips of `main` come back
as it labels them (`mainTrips_eq`).

The end of `main` uses one IV for two messages and reads the second from the two ciphertexts and the
first (`recovered_eq`).
-/

set_option autoImplicit false
set_option relaxedAutoImplicit false

namespace DailyChallenge.AesGcm

open Library

/-- `forced_issue`. -/
inductive ForcedIssue
  | normalTrip
  | normalTripWithAad
  | changeCipher
  | changeTag
  | changeAad
deriving DecidableEq

/-- `aad`: four bytes are given, four are zero. -/
def tripAad : Bytes := [0xAA, 0xBB, 0xCC, 0xDD, 0, 0, 0, 0]

/-- `wrong_aad`. -/
def wrongAad : Bytes := [0x1]

/-- What leaves the model. -/
inductive Fault
  | outOfBounds
deriving DecidableEq

/-- `ct[index] = byte`. -/
def store (ct : Bytes) (index : ℕ) (byte : UInt8) : Except Fault Bytes :=
  if index < ct.length then .ok (ct.set index byte) else .error .outOfBounds

/-- The first bytes behind `ct.data()`. -/
def load (ct : Bytes) (count : ℕ) : Except Fault Bytes :=
  if count ≤ ct.length then .ok (ct.take count) else .error .outOfBounds

variable {Ctx : Type}

/-- `round_trip`. The vectors start with zeros; what `tag` holds at first is an argument. -/
def roundTrip (evp : Evp Ctx) (key iv pt : Bytes) (issue : ForcedIssue) (tag : ℕ → UInt8) :
    Except Fault Bool :=
  let encrypted :=
    if issue = .normalTripWithAad then aesGcmEncrypt evp key iv tripAad pt (fun _ ↦ 0) tag
    else aesGcmEncrypt evp key iv [] pt (fun _ ↦ 0) tag
  if encrypted.ret < 0 then .ok false
  else do
    let ct := firstBytes encrypted.ciphertext pt.length
    let ct ← if issue = .changeCipher then store ct 0 0 else .ok ct
    let tag :=
      if issue = .changeTag then Function.update encrypted.tagOut 0 1 else encrypted.tagOut
    let ct ← load ct encrypted.ret.toNat
    let decrypted :=
      if issue = .normalTripWithAad then
        aesGcmDecrypt evp key iv tripAad ct (firstBytes tag 16) fun _ ↦ 0
      else if issue = .changeAad then
        aesGcmDecrypt evp key iv wrongAad ct (firstBytes tag 16) fun _ ↦ 0
      else aesGcmDecrypt evp key iv [] ct (firstBytes tag 16) fun _ ↦ 0
    .ok <|
      if decrypted.ret < 0 then false
      else if decrypted.ret.toNat ≠ pt.length then false
      else firstBytes decrypted.plaintextOut pt.length = pt

/-- The damage is none: the byte that is overwritten is what it is overwritten with, or the tag is
the same for the other associated data. -/
def Survives (aead : Aead Bytes Bytes) (key iv pt : Bytes) : ForcedIssue → Prop
  | .normalTrip | .normalTripWithAad => True
  | .changeCipher => (aead.crypt key iv pt)[0]? = some 0
  | .changeTag => (aead.tag key iv [] (aead.crypt key iv pt))[0]? = some 1
  | .changeAad =>
    aead.tag key iv wrongAad (aead.crypt key iv pt) = aead.tag key iv [] (aead.crypt key iv pt)

/-! ### Calls that return -/

variable {evp : Evp Ctx} {aead : Aead Bytes Bytes} {session : Ctx → Option Session}
  {key iv aad plaintext ciphertext tag : Bytes}

/-- What an encryption that succeeds has written. -/
theorem encrypted_of_nonneg (hevp : evp.Documented aead session) {memory tagOut : ℕ → UInt8}
    (hret : 0 ≤ (aesGcmEncrypt evp key iv aad plaintext memory tagOut).ret) :
    ∃ ctx, aesGcmEncrypt evp key iv aad plaintext memory tagOut =
      ⟨toInt plaintext.length,
        overlay (aead.crypt key iv (plaintext.take (toInt plaintext.length).toNat)) memory,
        overlay (aead.tag key iv (aad.take (toInt aad.length).toNat)
          (aead.crypt key iv (plaintext.take (toInt plaintext.length).toNat))) tagOut,
        some ctx⟩ := by
  unfold aesGcmEncrypt at hret ⊢
  cases hbegin : evp.begin .encrypt key iv aad with
  | none => simp [hbegin] at hret
  | some ctx =>
    obtain ⟨-, hsession⟩ := hevp.begin hbegin
    cases hupdate : evp.update .encrypt ctx plaintext (toInt plaintext.length) with
    | none => simp [hbegin, hupdate] at hret
    | some updated =>
      obtain ⟨ctx, written, len⟩ := updated
      obtain ⟨-, rfl, rfl, hsession⟩ := hevp.update hsession hupdate
      cases hfinal : evp.final .encrypt ctx with
      | none => simp [hbegin, hupdate, hfinal] at hret
      | some final =>
        obtain ⟨ctx, last, lastLen⟩ := final
        obtain ⟨rfl, rfl, hdone, -⟩ := hevp.final hsession hfinal
        rw [hsession] at hdone
        cases htag : evp.getTag ctx with
        | none => simp [hbegin, hupdate, hfinal, htag] at hret
        | some tag =>
          obtain rfl := hevp.getTag hdone htag
          refine ⟨ctx, ?_⟩
          simp only [hupdate, hfinal, htag, add_zero]
          rfl

/-- What a decryption that succeeds has checked and written. -/
theorem decrypted_of_nonneg (hevp : evp.Documented aead session) {memory : ℕ → UInt8}
    (hret : 0 ≤ (aesGcmDecrypt evp key iv aad ciphertext tag memory).ret) :
    tag = aead.tag key iv (aad.take (toInt aad.length).toNat)
        (ciphertext.take (toInt ciphertext.length).toNat) ∧
      aesGcmDecrypt evp key iv aad ciphertext tag memory =
        ⟨toInt ciphertext.length,
          overlay (aead.crypt key iv (ciphertext.take (toInt ciphertext.length).toNat))
            memory⟩ := by
  unfold aesGcmDecrypt at hret ⊢
  cases hbegin : evp.begin .decrypt key iv aad with
  | none => simp [hbegin] at hret
  | some ctx =>
    obtain ⟨-, hsession⟩ := hevp.begin hbegin
    cases hupdate : evp.update .decrypt ctx ciphertext (toInt ciphertext.length) with
    | none => simp [hbegin, hupdate] at hret
    | some updated =>
      obtain ⟨ctx, written, len⟩ := updated
      obtain ⟨-, rfl, rfl, hsession⟩ := hevp.update hsession hupdate
      cases hset : evp.setTag ctx tag with
      | none => simp [hbegin, hupdate, hset] at hret
      | some ctx =>
        have htagged := hevp.setTag hsession hset
        cases hfinal : evp.final .decrypt ctx with
        | none => simp [hbegin, hupdate, hset, hfinal] at hret
        | some final =>
          obtain ⟨ctx, last, lastLen⟩ := final
          obtain ⟨rfl, rfl, -, hright⟩ := hevp.final htagged hfinal
          refine ⟨Option.some_inj.mp (hright rfl), ?_⟩
          simp only [hupdate, hset, hfinal, add_zero]
          rfl

/-! ### One trip -/

/-- The way back: the decryption, and the message compared with what it gives. -/
def comesBack (evp : Evp Ctx) (key iv expected pt ct tag : Bytes) : Bool :=
  let decrypted := aesGcmDecrypt evp key iv expected ct tag fun _ ↦ 0
  if decrypted.ret < 0 then false
  else if decrypted.ret.toNat ≠ pt.length then false
  else firstBytes decrypted.plaintextOut pt.length = pt

/-- A trip with its associated data on both ways, and what happens to the two buffers between. -/
def trip (evp : Evp Ctx) (key iv aad expected pt : Bytes)
    (damageCt : Bytes → Except Fault Bytes) (damageTag : (ℕ → UInt8) → ℕ → UInt8)
    (tag : ℕ → UInt8) : Except Fault Bool :=
  let encrypted := aesGcmEncrypt evp key iv aad pt (fun _ ↦ 0) tag
  if encrypted.ret < 0 then .ok false
  else do
    let damaged ← damageCt (firstBytes encrypted.ciphertext pt.length)
    let ct ← load damaged encrypted.ret.toNat
    .ok (comesBack evp key iv expected pt ct (firstBytes (damageTag encrypted.tagOut) 16))

/-- The associated data that an issue gives to the encryption. -/
def ForcedIssue.given : ForcedIssue → Bytes
  | .normalTripWithAad => tripAad
  | _ => []

/-- The associated data that an issue gives to the decryption. -/
def ForcedIssue.expected : ForcedIssue → Bytes
  | .normalTripWithAad => tripAad
  | .changeAad => wrongAad
  | _ => []

/-- What an issue does to the ciphertext. -/
def ForcedIssue.damageCt : ForcedIssue → Bytes → Except Fault Bytes
  | .changeCipher, ct => store ct 0 0
  | _, ct => .ok ct

/-- What an issue does to the tag. -/
def ForcedIssue.damageTag : ForcedIssue → (ℕ → UInt8) → ℕ → UInt8
  | .changeTag, tag => Function.update tag 0 1
  | _, tag => tag

/-- The issues are trips. -/
theorem roundTrip_eq_trip (evp : Evp Ctx) (key iv pt : Bytes) (issue : ForcedIssue)
    (tag : ℕ → UInt8) :
    roundTrip evp key iv pt issue tag =
      trip evp key iv issue.given issue.expected pt issue.damageCt issue.damageTag tag := by
  cases issue <;> rfl

theorem length_firstBytes (memory : ℕ → UInt8) (count : ℕ) :
    (firstBytes memory count).length = count := by
  simp [firstBytes]

/-- The ciphertext is what is read back from where it was written. -/
theorem firstBytes_crypt (aead : Aead Bytes Bytes) (key iv pt : Bytes) (memory : ℕ → UInt8) :
    firstBytes (overlay (aead.crypt key iv pt) memory) pt.length = aead.crypt key iv pt := by
  have hread := firstBytes_overlay (aead.crypt key iv pt) memory
  rwa [Aead.length_crypt] at hread

theorem toNat_toInt_le (size : ℕ) : (toInt size).toNat ≤ size := by
  unfold toInt
  split_ifs <;> omega

theorem toNat_toInt_lt (size : ℕ) : (toInt size).toNat < 2 ^ 31 := by
  unfold toInt
  split_ifs <;> omega

theorem load_eq_ok_iff {ct bytes : Bytes} {count : ℕ} :
    load ct count = .ok bytes ↔ count ≤ ct.length ∧ ct.take count = bytes := by
  unfold load
  split_ifs with h
  · rw [Except.ok.injEq, and_iff_right h]
  · simp [h]

theorem store_zero_eq_ok_iff {ct damaged : Bytes} {byte : UInt8} :
    store ct 0 byte = .ok damaged ↔ ct ≠ [] ∧ ct.set 0 byte = damaged := by
  unfold store
  rw [← List.length_pos_iff]
  split_ifs with h
  · rw [Except.ok.injEq, and_iff_right h]
  · simp [h]

/-- Steps that succeed one after the other. -/
theorem bind_eq_ok_iff {α β : Type} {first : Except Fault α} {next : α → Except Fault β}
    {result : β} : first >>= next = .ok result ↔ ∃ value, first = .ok value ∧ next value =
      .ok result := by
  cases first with
  | error fault => exact iff_of_false nofun fun ⟨_, h, _⟩ ↦ nomatch h
  | ok value => exact ⟨fun h ↦ ⟨value, rfl, h⟩, fun ⟨_, hvalue, h⟩ ↦ by cases hvalue; exact h⟩

/-- A fault in one of two steps. -/
theorem bind_eq_error_iff {α β : Type} {first : Except Fault α} {next : α → Except Fault β}
    {fault : Fault} : first >>= next = .error fault ↔
      first = .error fault ∨ ∃ value, first = .ok value ∧ next value = .error fault := by
  cases first with
  | error other =>
    exact ⟨fun h ↦ .inl (Except.error.inj h ▸ rfl),
      fun h ↦ h.elim (fun h ↦ Except.error.inj h ▸ rfl) nofun⟩
  | ok value =>
    exact ⟨fun h ↦ .inr ⟨value, rfl, h⟩,
      fun h ↦ h.elim nofun fun ⟨_, hvalue, h⟩ ↦ by cases hvalue; exact h⟩

/-- Both buffers still hold what the encryption of the message wrote, for the associated data that
is expected. -/
def Unharmed (aead : Aead Bytes Bytes) (key iv aad expected pt : Bytes)
    (damageCt : Bytes → Except Fault Bytes) (damageTag : (ℕ → UInt8) → ℕ → UInt8)
    (tag : ℕ → UInt8) : Prop :=
  (∃ damaged, damageCt (aead.crypt key iv pt) = .ok damaged ∧
      load damaged pt.length = .ok (aead.crypt key iv pt)) ∧
    firstBytes (damageTag (overlay (aead.tag key iv aad (aead.crypt key iv pt)) tag)) 16 =
      aead.tag key iv expected (aead.crypt key iv pt)

variable {pt expected ct : Bytes} {damageCt : Bytes → Except Fault Bytes}
  {damageTag : (ℕ → UInt8) → ℕ → UInt8} {tagMemory : ℕ → UInt8}

/-- A message that comes back is the ciphertext decrypted, and the tag is its tag. -/
theorem of_comesBack (hevp : evp.Documented aead session) (hct : ct.length < 2 ^ 31)
    (hexpected : expected.length < 2 ^ 31)
    (hback : comesBack evp key iv expected pt ct tag = true) :
    ct.length = pt.length ∧ ct = aead.crypt key iv pt ∧ tag = aead.tag key iv expected ct := by
  unfold comesBack at hback
  dsimp only at hback
  split_ifs at hback with hdecrypt hlength
  rw [not_lt] at hdecrypt
  rw [not_not] at hlength
  rw [decide_eq_true_iff] at hback
  obtain ⟨htag, hdecrypted⟩ := decrypted_of_nonneg hevp hdecrypt
  rw [hdecrypted] at hlength hback
  dsimp only at hlength hback
  rw [toInt_of_lt hct, Int.toNat_natCast] at hlength
  rw [take_of_lt hct] at hback
  rw [take_of_lt hexpected, take_of_lt hct] at htag
  rw [← hlength, firstBytes_crypt] at hback
  exact ⟨hlength, (aead.crypt_crypt key iv ct).symm.trans (congrArg _ hback), htag⟩

/-- The message comes back from its ciphertext and tag, where no call fails without a reason. -/
theorem comesBack_of_tag (hevp : evp.Documented aead session)
    (hreliable : evp.Reliable aead session) (hexpected : expected.length < 2 ^ 31)
    (hpt : pt.length < 2 ^ 31) :
    comesBack evp key iv expected pt (aead.crypt key iv pt)
      (aead.tag key iv expected (aead.crypt key iv pt)) = true := by
  have hdecrypt : aead.decrypt key iv expected (aead.crypt key iv pt)
      (aead.tag key iv expected (aead.crypt key iv pt)) = some pt :=
    (aead.decrypt_eq_some_iff key iv).mpr ⟨rfl, rfl⟩
  have hdecrypted := aesGcmDecrypt_eq hevp hreliable hexpected (by rwa [Aead.length_crypt])
    hdecrypt fun _ ↦ 0
  unfold comesBack
  rw [hdecrypted]
  dsimp only
  rw [if_neg (by omega), Int.toNat_natCast, if_neg (by simp), firstBytes_overlay]
  exact decide_eq_true rfl

/-- A trip that comes back went there and came back. -/
theorem trip_eq_ok_true_iff :
    trip evp key iv aad expected pt damageCt damageTag tagMemory = .ok true ↔
      0 ≤ (aesGcmEncrypt evp key iv aad pt (fun _ ↦ 0) tagMemory).ret ∧ ∃ damaged ct,
        damageCt (firstBytes (aesGcmEncrypt evp key iv aad pt (fun _ ↦ 0) tagMemory).ciphertext
          pt.length) = .ok damaged ∧
        load damaged (aesGcmEncrypt evp key iv aad pt (fun _ ↦ 0) tagMemory).ret.toNat = .ok ct ∧
        comesBack evp key iv expected pt ct (firstBytes (damageTag
          (aesGcmEncrypt evp key iv aad pt (fun _ ↦ 0) tagMemory).tagOut) 16) = true := by
  unfold trip
  generalize aesGcmEncrypt evp key iv aad pt (fun _ ↦ 0) tagMemory = encrypted
  dsimp only
  by_cases hencrypt : encrypted.ret < 0
  · rw [if_pos hencrypt]
    exact iff_of_false (by simp) fun h ↦ absurd h.1 (not_le.mpr hencrypt)
  · rw [if_neg hencrypt, and_iff_right (not_lt.mp hencrypt), bind_eq_ok_iff]
    refine exists_congr fun damaged ↦ ?_
    rw [bind_eq_ok_iff, ← exists_and_left]
    simp only [Except.ok.injEq]

/-- Whichever calls fail, a trip comes back only with unharmed buffers. -/
theorem unharmed_of_trip (hevp : evp.Documented aead session) (haad : aad.length < 2 ^ 31)
    (hexpected : expected.length < 2 ^ 31)
    (htrip : trip evp key iv aad expected pt damageCt damageTag tagMemory = .ok true) :
    pt.length < 2 ^ 31 ∧ Unharmed aead key iv aad expected pt damageCt damageTag tagMemory := by
  obtain ⟨hencrypt, damaged, ct, hdamaged, hload, hback⟩ := trip_eq_ok_true_iff.mp htrip
  obtain ⟨ctx, hencrypted⟩ := encrypted_of_nonneg hevp hencrypt
  rw [hencrypted] at hdamaged hload hback
  dsimp only at hdamaged hload hback
  obtain ⟨hcount, htake⟩ := load_eq_ok_iff.mp hload
  have hct : ct.length = (toInt pt.length).toNat := by
    rw [← htake, List.length_take, min_eq_left hcount]
  obtain ⟨hlength, hcrypt, htag⟩ :=
    of_comesBack hevp (hct.trans_lt (toNat_toInt_lt _)) hexpected hback
  have hshort := lt_of_toInt_eq (hct.symm.trans hlength)
  rw [take_of_lt hshort, firstBytes_crypt] at hdamaged
  rw [take_of_lt haad, take_of_lt hshort, hcrypt] at htag
  rw [← hct, hlength, hcrypt] at hload
  exact ⟨hshort, ⟨damaged, hdamaged, hload⟩, htag⟩

/-- What the encryption returns for a message, where no call fails without a reason. -/
theorem encrypted_of_reliable (hevp : evp.Documented aead session)
    (hreliable : evp.Reliable aead session) (haad : aad.length < 2 ^ 31)
    (hpt : pt.length < 2 ^ 31) :
    ∃ ctx, aesGcmEncrypt evp key iv aad pt (fun _ ↦ 0) tagMemory =
      ⟨pt.length, overlay (aead.crypt key iv pt) fun _ ↦ 0,
        overlay (aead.tag key iv aad (aead.crypt key iv pt)) tagMemory, some ctx⟩ := by
  obtain ⟨ctx, -, hencrypted⟩ :=
    @aesGcmEncrypt_eq _ _ _ _ key iv _ _ hevp hreliable (toInt_nonneg_of_lt haad)
      (toInt_nonneg_of_lt hpt) (fun _ ↦ 0) tagMemory
  rw [take_of_lt haad, take_of_lt hpt, toInt_of_lt hpt] at hencrypted
  exact ⟨ctx, hencrypted⟩

/-- Where no call fails without a reason, a trip with unharmed buffers comes back. -/
theorem trip_of_unharmed (hevp : evp.Documented aead session)
    (hreliable : evp.Reliable aead session) (haad : aad.length < 2 ^ 31)
    (hexpected : expected.length < 2 ^ 31) (hpt : pt.length < 2 ^ 31)
    (h : Unharmed aead key iv aad expected pt damageCt damageTag tagMemory) :
    trip evp key iv aad expected pt damageCt damageTag tagMemory = .ok true := by
  obtain ⟨⟨damaged, hdamaged, hload⟩, htag⟩ := h
  obtain ⟨ctx, hencrypted⟩ :=
    @encrypted_of_reliable _ evp aead session key iv aad pt tagMemory hevp hreliable haad hpt
  rw [trip_eq_ok_true_iff, hencrypted]
  dsimp only
  rw [Int.toNat_natCast, firstBytes_crypt, htag]
  exact ⟨by omega, damaged, _, hdamaged, hload, comesBack_of_tag hevp hreliable hexpected hpt⟩

/-- The way back reads inside the ciphertext, so a fault is one of the damage, if that keeps its
length. -/
theorem damage_of_fault (hevp : evp.Documented aead session) {fault : Fault}
    (hdamage : ∀ ct damaged, damageCt ct = .ok damaged → damaged.length = ct.length)
    (htrip : trip evp key iv aad expected pt damageCt damageTag tagMemory = .error fault) :
    ∃ ct, ct.length = pt.length ∧ damageCt ct = .error fault := by
  unfold trip at htrip
  dsimp only at htrip
  split_ifs at htrip with hencrypt
  obtain ⟨ctx, hencrypted⟩ := encrypted_of_nonneg hevp (not_lt.mp hencrypt)
  rw [hencrypted] at htrip
  rcases bind_eq_error_iff.mp htrip with hfault | ⟨damaged, hdamaged, hrest⟩
  · exact ⟨_, length_firstBytes _ _, hfault⟩
  · have hlength := hdamage _ _ hdamaged
    rw [length_firstBytes] at hlength
    have hload : load damaged (toInt pt.length).toNat =
        .ok (damaged.take (toInt pt.length).toNat) :=
      load_eq_ok_iff.mpr ⟨hlength ▸ toNat_toInt_le pt.length, rfl⟩
    rcases bind_eq_error_iff.mp hrest with hfault | ⟨ct, -, hok⟩
    · cases hload.symm.trans hfault
    · cases hok

/-- A damage that faults ends the trip there, where no call fails without a reason. -/
theorem trip_of_fault (hevp : evp.Documented aead session)
    (hreliable : evp.Reliable aead session) (haad : aad.length < 2 ^ 31)
    (hpt : pt.length < 2 ^ 31) {fault : Fault}
    (hdamage : damageCt (aead.crypt key iv pt) = .error fault) :
    trip evp key iv aad expected pt damageCt damageTag tagMemory = .error fault := by
  obtain ⟨ctx, hencrypted⟩ :=
    @encrypted_of_reliable _ evp aead session key iv aad pt tagMemory hevp hreliable haad hpt
  unfold trip
  rw [hencrypted]
  dsimp only
  rw [if_neg (by omega), firstBytes_crypt, bind_eq_error_iff]
  exact .inl hdamage

/-! ### The forced issues -/

/-- Overwriting the first byte leaves the bytes as they are when it is that byte already. -/
theorem firstBytes_update_iff {bytes : Bytes} (hbytes : bytes ≠ []) (memory : ℕ → UInt8)
    (byte : UInt8) :
    firstBytes (Function.update (overlay bytes memory) 0 byte) bytes.length = bytes ↔
      bytes[0]? = some byte := by
  constructor
  · intro h
    rw [← h, firstBytes]
    obtain ⟨first, rest, rfl⟩ := List.exists_cons_of_ne_nil hbytes
    simp [List.range'_succ]
  · intro h
    have hbyte : overlay bytes memory 0 = byte := overlay_eq_of_some h
    rw [← hbyte, Function.update_eq_self, firstBytes_overlay]

/-- The ciphertext is unharmed by the change of a byte that was zero. -/
theorem exists_store_zero_iff {bytes : Bytes} :
    (∃ damaged, store bytes 0 0 = .ok damaged ∧ load damaged bytes.length = .ok bytes) ↔
      bytes[0]? = some 0 := by
  cases bytes with
  | nil => exact iff_of_false (fun ⟨_, h, _⟩ ↦ nomatch h) (by simp)
  | cons first rest =>
    simp only [store_zero_eq_ok_iff, load_eq_ok_iff, ne_eq, reduceCtorEq, not_false_eq_true,
      true_and, List.set_cons_zero, exists_eq_left', List.length_cons, le_refl, List.take_succ_cons,
      List.take_length, List.cons.injEq, and_true, List.getElem?_cons_zero, Option.some.injEq]
    exact eq_comm

/-- The buffers are unharmed where the damage is none. -/
theorem unharmed_iff_survives
    (hlength : ∀ aad ciphertext, (aead.tag key iv aad ciphertext).length = 16)
    (issue : ForcedIssue) :
    Unharmed aead key iv issue.given issue.expected pt issue.damageCt issue.damageTag tagMemory ↔
      Survives aead key iv pt issue := by
  have hct : ∃ damaged, Except.ok (aead.crypt key iv pt) = (.ok damaged : Except Fault Bytes) ∧
      load damaged pt.length = .ok (aead.crypt key iv pt) := by
    refine ⟨_, rfl, load_eq_ok_iff.mpr ⟨(aead.length_crypt key iv pt).ge, ?_⟩⟩
    exact List.take_of_length_le (aead.length_crypt key iv pt).le
  have htag : ∀ aad, firstBytes (overlay (aead.tag key iv aad (aead.crypt key iv pt)) tagMemory)
      16 = aead.tag key iv aad (aead.crypt key iv pt) := by
    intro aad
    have hread := firstBytes_overlay (aead.tag key iv aad (aead.crypt key iv pt)) tagMemory
    rwa [hlength] at hread
  cases issue with
  | normalTrip | normalTripWithAad => exact iff_of_true ⟨hct, htag _⟩ trivial
  | changeCipher =>
    have hstore := @exists_store_zero_iff (aead.crypt key iv pt)
    rw [Aead.length_crypt] at hstore
    exact (and_iff_left (htag [])).trans hstore
  | changeTag =>
    have hpositive : aead.tag key iv [] (aead.crypt key iv pt) ≠ [] := by
      rw [← List.length_pos_iff, hlength]
      decide
    have hupdate := firstBytes_update_iff hpositive tagMemory 1
    rw [hlength] at hupdate
    exact (and_iff_right hct).trans hupdate
  | changeAad =>
    refine (and_iff_right hct).trans ?_
    show firstBytes (overlay _ tagMemory) 16 = _ ↔ _
    rw [show ForcedIssue.changeAad.given = [] from rfl, htag]
    exact eq_comm

theorem length_given_lt (issue : ForcedIssue) : issue.given.length < 2 ^ 31 := by
  cases issue <;> decide

theorem length_expected_lt (issue : ForcedIssue) : issue.expected.length < 2 ^ 31 := by
  cases issue <;> decide

/-- Only the change of the first byte of nothing faults. -/
theorem ForcedIssue.damageCt_eq_error_iff {issue : ForcedIssue} {ct : Bytes} {fault : Fault} :
    issue.damageCt ct = .error fault ↔ issue = .changeCipher ∧ ct = [] := by
  cases issue with
  | changeCipher =>
    cases fault
    rw [and_iff_right rfl]
    cases ct with
    | nil => exact iff_of_true rfl rfl
    | cons first rest => exact iff_of_false nofun nofun
  | normalTrip | normalTripWithAad | changeTag | changeAad =>
    exact iff_of_false nofun fun h ↦ nomatch h.1

theorem ForcedIssue.length_of_damageCt {issue : ForcedIssue} {ct damaged : Bytes}
    (h : issue.damageCt ct = .ok damaged) : damaged.length = ct.length := by
  cases issue with
  | changeCipher =>
    rw [← (store_zero_eq_ok_iff.mp h).2, List.length_set]
  | normalTrip | normalTripWithAad | changeTag | changeAad => rw [Except.ok.inj h]

instance (key iv pt : Bytes) (issue : ForcedIssue) (aead : Aead Bytes Bytes) :
    Decidable (Survives aead key iv pt issue) :=
  match issue with
  | .normalTrip | .normalTripWithAad => inferInstanceAs (Decidable True)
  | .changeCipher => inferInstanceAs (Decidable (_ = _))
  | .changeTag => inferInstanceAs (Decidable (_ = _))
  | .changeAad => inferInstanceAs (Decidable (_ = _))

/-- The outcome of a trip where no call fails without a reason. -/
theorem roundTrip_of_reliable (hevp : evp.Documented aead session)
    (hreliable : evp.Reliable aead session) (issue : ForcedIssue) :
    roundTrip evp key iv pt issue tagMemory =
      if issue = .changeCipher ∧ pt = [] then .error .outOfBounds
      else .ok (decide (pt.length < 2 ^ 31 ∧ Survives aead key iv pt issue)) := by
  have hsurvives := @unharmed_iff_survives aead key iv pt tagMemory
    (fun _ _ ↦ hevp.length_tag) issue
  rw [roundTrip_eq_trip]
  split_ifs with hempty
  · obtain ⟨hissue, rfl⟩ := hempty
    refine trip_of_fault hevp hreliable (length_given_lt issue) (by decide)
      (ForcedIssue.damageCt_eq_error_iff.mpr ⟨hissue, ?_⟩)
    rw [← List.length_eq_zero_iff, Aead.length_crypt]
    rfl
  · cases htrip : trip evp key iv issue.given issue.expected pt issue.damageCt issue.damageTag
        tagMemory with
    | error fault =>
      obtain ⟨ct, hlength, hfault⟩ :=
        damage_of_fault hevp (fun _ _ ↦ ForcedIssue.length_of_damageCt) htrip
      obtain ⟨hissue, rfl⟩ := ForcedIssue.damageCt_eq_error_iff.mp hfault
      exact absurd ⟨hissue, List.length_eq_zero_iff.mp hlength.symm⟩ hempty
    | ok back =>
      congr 1
      rw [Bool.eq_iff_iff, decide_eq_true_iff, ← hsurvives]
      constructor
      · rintro rfl
        exact unharmed_of_trip hevp (length_given_lt issue) (length_expected_lt issue) htrip
      · rintro ⟨hshort, hunharmed⟩
        exact Except.ok.inj (htrip.symm.trans (trip_of_unharmed hevp hreliable
          (length_given_lt issue) (length_expected_lt issue) hshort hunharmed))

/-- Whichever calls of OpenSSL fail, a trip comes back with the message only where the message is
shorter than `2 ^ 31` bytes and the damage is none, and it faults only where the first byte of an
empty message is to be changed. Where no call fails without a reason, it faults there and comes back
wherever the message is short and the damage is none. -/
theorem roundTrip_outcome (hevp : evp.Documented aead session) {issue : ForcedIssue} :
    (roundTrip evp key iv pt issue tagMemory = .ok true →
        pt.length < 2 ^ 31 ∧ Survives aead key iv pt issue) ∧
      (roundTrip evp key iv pt issue tagMemory = .error .outOfBounds →
        issue = .changeCipher ∧ pt = []) ∧
      (evp.Reliable aead session → roundTrip evp key iv pt issue tagMemory =
        if issue = .changeCipher ∧ pt = [] then .error .outOfBounds
        else .ok (decide (pt.length < 2 ^ 31 ∧ Survives aead key iv pt issue))) := by
  refine ⟨fun htrip ↦ ?_, fun htrip ↦ ?_, fun hreliable ↦
    roundTrip_of_reliable hevp hreliable issue⟩
  · rw [roundTrip_eq_trip] at htrip
    obtain ⟨hshort, hunharmed⟩ :=
      unharmed_of_trip hevp (length_given_lt issue) (length_expected_lt issue) htrip
    exact ⟨hshort, (unharmed_iff_survives (fun _ _ ↦ hevp.length_tag) issue).mp hunharmed⟩
  · rw [roundTrip_eq_trip] at htrip
    obtain ⟨ct, hlength, hfault⟩ :=
      damage_of_fault hevp (fun _ _ ↦ ForcedIssue.length_of_damageCt) htrip
    obtain ⟨hissue, rfl⟩ := ForcedIssue.damageCt_eq_error_iff.mp hfault
    exact ⟨hissue, List.length_eq_zero_iff.mp hlength.symm⟩

/-! ### One IV for two messages -/

/-- `recovered` at the end of `main`: both messages are encrypted under one key and IV, and the loop
xors the two ciphertexts and the first message. -/
def recovered (evp : Evp Ctx) (key iv first second : Bytes) (tag : ℕ → UInt8) : Bytes :=
  let encrypted := aesGcmEncrypt evp key iv [] first (fun _ ↦ 0) tag
  let ct2 := (aesGcmEncrypt evp key iv [] second (fun _ ↦ 0) encrypted.tagOut).ciphertext
  (List.range first.length).map fun i ↦ encrypted.ciphertext i ^^^ ct2 i ^^^ first.getD i 0

theorem overlay_eq_getD {bytes : Bytes} {memory : ℕ → UInt8} {i : ℕ} (h : i < bytes.length) :
    overlay bytes memory i = bytes.getD i 0 := by
  rw [List.getD_eq_getElem _ _ h]
  exact overlay_eq_of_some (List.getElem?_eq_getElem h)

/-- The second message is recovered wherever both encryptions succeed, for any two messages of one
length. -/
theorem recovered_eq (hevp : evp.Documented aead session) {first second : Bytes}
    (hlength : first.length = second.length) (hshort : first.length < 2 ^ 31)
    (hfirst : 0 ≤ (aesGcmEncrypt evp key iv [] first (fun _ ↦ 0) tagMemory).ret)
    (hsecond : 0 ≤ (aesGcmEncrypt evp key iv [] second (fun _ ↦ 0)
      (aesGcmEncrypt evp key iv [] first (fun _ ↦ 0) tagMemory).tagOut).ret) :
    recovered evp key iv first second tagMemory = second := by
  obtain ⟨ctx, hencrypted⟩ := encrypted_of_nonneg hevp hfirst
  obtain ⟨ctx', hencrypted'⟩ := encrypted_of_nonneg hevp hsecond
  rw [take_of_lt hshort] at hencrypted
  rw [take_of_lt (by rwa [← hlength])] at hencrypted'
  unfold recovered
  dsimp only
  rw [hencrypted', hencrypted]
  dsimp only
  refine List.ext_getElem (by simpa using hlength) fun i hi hi' ↦ ?_
  rw [List.length_map, List.length_range] at hi
  rw [List.getElem_map, List.getElem_range, overlay_eq_getD (by rwa [Aead.length_crypt]),
    overlay_eq_getD (by rwa [Aead.length_crypt]), aead.crypt_xor_crypt key iv hi hi',
    List.getD_eq_getElem _ _ hi']

/-! ### The messages of `main` -/

/-- The bytes of `key` that AES-128 reads. -/
def mainKey : Bytes :=
  [0x60, 0x3d, 0xeb, 0x10, 0x15, 0xca, 0x71, 0xbe, 0x2b, 0x73, 0xae, 0xf0, 0x85, 0x7d, 0x77, 0x81]

/-- `iv`. -/
def mainIv : Bytes :=
  [0xca, 0xfe, 0xba, 0xbe, 0xfa, 0xce, 0xdb, 0xad, 0xde, 0xca, 0xf8, 0x88]

/-- `msg1`, which is also `msg4`. -/
def msg1 : Bytes :=
  [0x3a, 0xd7, 0x7b, 0xb4, 0x0d, 0x7a, 0x36, 0x60, 0xa8, 0x9e, 0xca, 0xf3, 0x24, 0x66, 0xef, 0x97]

/-- `msg2`. -/
def msg2 : Bytes :=
  [0x6b, 0xc1, 0xbe, 0xe2, 0x2e, 0x40, 0x9f, 0x96, 0xe9, 0x3d, 0x7e, 0x11, 0x73, 0x93, 0x17, 0x2a,
    0xae, 0x2d, 0x8a, 0x57, 0x1e, 0x03, 0xac, 0x9c, 0x9e, 0xb7, 0x6f, 0xac, 0x45, 0xaf, 0x8e, 0x51,
    0x30, 0xc8, 0x1c, 0x46, 0xa3, 0x5c, 0xe4, 0x11, 0xe5, 0xfb, 0xc1, 0x19, 0x1a, 0x0a, 0x52]

/-- `msg5`. -/
def msg5 : Bytes :=
  [0xa8, 0x9e, 0xca, 0xf3, 0x24, 0x66, 0xef, 0x97, 0x3a, 0xd7, 0x7b, 0xb4, 0x0d, 0x7a, 0x36, 0x60]

/-- The outcomes of the seven trips of `main`. -/
def mainTrips (evp : Evp Ctx) (tag : ℕ → UInt8) : List (Except Fault Bool) :=
  [roundTrip evp mainKey mainIv [] .normalTrip tag,
    roundTrip evp mainKey mainIv msg1 .normalTrip tag,
    roundTrip evp mainKey mainIv msg2 .normalTrip tag,
    roundTrip evp mainKey mainIv msg2 .changeCipher tag,
    roundTrip evp mainKey mainIv msg2 .changeTag tag,
    roundTrip evp mainKey mainIv msg2 .changeAad tag,
    roundTrip evp mainKey mainIv msg2 .normalTripWithAad tag]

/-- The trips of `main` that come back are the ones it labels so, in every environment in which no
call fails without a reason. -/
theorem mainTrips_eq {evp : Evp Ctx} {session : Ctx → Option Session}
    (hevp : evp.Documented aes128Gcm session) (hreliable : evp.Reliable aes128Gcm session)
    (tag : ℕ → UInt8) :
    mainTrips evp tag = [true, true, true, false, false, false, true].map .ok := by
  unfold mainTrips
  repeat rw [roundTrip_of_reliable hevp hreliable]
  decide +kernel

/-- The byte that `main` changes in the ciphertext of `msg2` was no zero; an empty message has no
byte to change. -/
theorem roundTrip_outcome_msg2 :
    roundTrip openSsl mainKey mainIv msg2 .changeCipher (fun _ ↦ 0) = .ok false ∧
      roundTrip openSsl mainKey mainIv [] .changeCipher (fun _ ↦ 0) = .error .outOfBounds := by
  constructor
  · refine ((roundTrip_outcome openSsl_documented).2.2 openSsl_reliable).trans ?_
    decide +kernel
  · refine ((roundTrip_outcome openSsl_documented).2.2 openSsl_reliable).trans ?_
    decide +kernel

/-- The recovery of `main`. -/
theorem recovered_eq_main : recovered openSsl mainKey mainIv msg1 msg5 (fun _ ↦ 0) = msg5 :=
  recovered_eq openSsl_documented (by decide) (by decide) (by decide +kernel) (by decide +kernel)

end DailyChallenge.AesGcm
