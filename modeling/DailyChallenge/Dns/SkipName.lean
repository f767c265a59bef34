import Mathlib
import DailyChallenge.Dns.Encoding

/-!
# Which names are skipped

`NameAt` is a complete name in the first bytes of a buffer, as RFC 1035 has it: the encoding of some
`Name`. `skip_name` finds the end of every such name, but it accepts more. It does not look at the
second byte of a pointer, and it takes the two reserved kinds of length byte for lengths. `Misread`
says where that makes it return 0, and `skipsNames_iff` that it is exact everywhere else.
-/

set_option autoImplicit false
set_option relaxedAutoImplicit false

namespace DailyChallenge.Dns

open Library

variable {buf : ℕ → UInt8} {len : ℕ}

/-- A complete name stands at a position, inside the first `len` bytes, and ends before another
position. -/
def NameAt (buf : ℕ → UInt8) (len pos last : ℕ) : Prop :=
  ∃ name : Name, BytesAt buf pos name.encode ∧ pos + name.encode.length = last ∧ last ≤ len

/-- At a position `skip_name` returns 0 exactly where a complete name stands, with the position
after it. -/
def SkipsNames (buf : ℕ → UInt8) (len pos : ℕ) : Prop :=
  ∀ last, (skipName buf len pos).2 = some last ↔ NameAt buf len pos last

/-- From a position the length bytes, each below 192, lead to another one. -/
inductive Leads (buf : ℕ → UInt8) (len : ℕ) : ℕ → ℕ → Prop
  | here (pos : ℕ) : Leads buf len pos pos
  | onward {pos stop : ℕ} : pos < len → 1 ≤ (buf pos).toNat → (buf pos).toNat < 192 →
    Leads buf len (pos + (1 + (buf pos).toNat)) stop → Leads buf len pos stop

/-- From a position the length bytes lead to an end that is none: to a pointer whose second byte was
not received, or through a length byte between 64 and 191 to a zero byte or a pointer. -/
inductive Misread (buf : ℕ → UInt8) (len : ℕ) : ℕ → Prop
  | cutPointer {pos : ℕ} : pos + 1 = len → 192 ≤ (buf pos).toNat → Misread buf len pos
  | reserved {pos stop : ℕ} : pos < len → 64 ≤ (buf pos).toNat → (buf pos).toNat < 192 →
    Leads buf len (pos + (1 + (buf pos).toNat)) stop → stop < len →
    (buf stop = 0 ∨ 192 ≤ (buf stop).toNat) → Misread buf len pos
  | label {pos : ℕ} : pos < len → 1 ≤ (buf pos).toNat → (buf pos).toNat < 64 →
    Misread buf len (pos + (1 + (buf pos).toNat)) → Misread buf len pos

/-! ### Length bytes -/

/-- A byte with its two top bits set is 192 and more, and any such byte starts a pointer. -/
theorem pointer_iff (byte : UInt8) :
    (byte &&& 0xC0 = 0xC0 ↔ 192 ≤ byte.toNat) ∧
      (192 ≤ byte.toNat → 0xC0 ||| UInt8.ofNat (byte.toNat % 64) = byte) := by
  have hall : ∀ n : Fin 256, (UInt8.ofNat n &&& 0xC0 = 0xC0 ↔ 192 ≤ n.val) ∧
      (192 ≤ n.val → 0xC0 ||| UInt8.ofNat (n.val % 64) = UInt8.ofNat n) := by decide +kernel
  have hbyte := hall ⟨byte.toNat, byte.toNat_lt⟩
  rwa [UInt8.ofNat_toNat] at hbyte

theorem toNat_pos_iff (byte : UInt8) : 1 ≤ byte.toNat ↔ byte ≠ 0 := by
  rw [Nat.one_le_iff_ne_zero, not_iff_not]
  exact ⟨fun h ↦ UInt8.toNat_inj.mp h, fun h ↦ congrArg UInt8.toNat h⟩

/-! ### Complete names -/

/-- A complete name is found. -/
theorem NameAt.nameEnd {pos last : ℕ} (h : NameAt buf len pos last) :
    NameEnd buf len pos last := by
  obtain ⟨name, hname, rfl, hlen⟩ := h
  exact nameEnd_encode hname hlen

theorem nameAt_root {pos : ℕ} (hpos : pos < len) (hzero : buf pos = 0) :
    NameAt buf len pos (pos + 1) :=
  ⟨⟨[], .root⟩, ⟨hzero, trivial⟩, rfl, hpos⟩

/-- Any two bytes are a pointer when the first has its two top bits set. -/
theorem nameAt_pointer {pos : ℕ} (hpos : pos + 1 < len) (hpointer : 192 ≤ (buf pos).toNat) :
    NameAt buf len pos (pos + 2) := by
  have hoffset : (buf pos).toNat % 64 * 256 + (buf (pos + 1)).toNat < 2 ^ 14 := by
    have hsecond := (buf (pos + 1)).toNat_lt
    omega
  refine ⟨⟨[], .pointer ⟨_, hoffset⟩⟩, ⟨?_, ?_, trivial⟩, rfl, hpos⟩
  · have hhigh : ((buf pos).toNat % 64 * 256 + (buf (pos + 1)).toNat) / 256 =
        (buf pos).toNat % 64 := by
      have hsecond := (buf (pos + 1)).toNat_lt
      omega
    show buf pos = 0xC0 ||| UInt8.ofNat (_ / 256)
    rw [hhigh, (pointer_iff (buf pos)).2 hpointer]
  · apply UInt8.toNat_inj.mp
    show (buf (pos + 1)).toNat =
      (UInt8.ofNat ((buf pos).toNat % 64 * 256 + (buf (pos + 1)).toNat)).toNat
    rw [UInt8.toNat_ofNat']
    have hsecond := (buf (pos + 1)).toNat_lt
    omega

/-- A label in front of a complete name makes a complete name. -/
theorem NameAt.label {pos last : ℕ} (hpos : 1 ≤ (buf pos).toNat) (hshort : (buf pos).toNat < 64)
    (h : NameAt buf len (pos + (1 + (buf pos).toNat)) last) : NameAt buf len pos last := by
  obtain ⟨⟨labels, tail⟩, hname, rfl, hlen⟩ := h
  have hlength : ((List.range' (pos + 1) (buf pos).toNat).map buf).length = (buf pos).toNat := by
    rw [List.length_map, List.length_range']
  let label : Label := ⟨(List.range' (pos + 1) (buf pos).toNat).map buf, by rwa [hlength],
    by rw [hlength]; omega⟩
  have hlabel : label.encode.length = 1 + (buf pos).toNat := by
    rw [Label.encode, List.length_cons, hlength, add_comm]
  have hencode : (Name.mk (label :: labels) tail).encode =
      label.encode ++ (Name.mk labels tail).encode := by
    simp [Name.encode]
  refine ⟨⟨label :: labels, tail⟩, ?_, ?_, hlen⟩
  · rw [hencode, bytesAt_append, hlabel]
    refine ⟨⟨?_, bytesAt_range' buf (pos + 1) _⟩, hname⟩
    rw [hlength, UInt8.ofNat_toNat]
  · rw [hencode, List.length_append, hlabel]
    exact (add_assoc ..).symm

/-! ### Where the two differ -/

/-- An end is found where the length bytes lead to a zero byte or a pointer. -/
theorem exists_nameEnd_iff {pos : ℕ} : (∃ last, NameEnd buf len pos last) ↔
    ∃ stop, Leads buf len pos stop ∧ stop < len ∧ (buf stop = 0 ∨ 192 ≤ (buf stop).toNat) := by
  constructor
  · rintro ⟨last, hlast⟩
    induction hlast with
    | root hpos hzero => exact ⟨_, .here _, hpos, Or.inl hzero⟩
    | pointer hpos _ hpointer => exact ⟨_, .here _, hpos, Or.inr ((pointer_iff _).1.mp hpointer)⟩
    | label hpos hzero hpointer _ ih =>
      obtain ⟨stop, hleads, hstop⟩ := ih
      have hhigh := not_le.mp (mt (pointer_iff _).1.mpr hpointer)
      exact ⟨stop, .onward hpos ((toNat_pos_iff _).mpr hzero) hhigh hleads, hstop⟩
  · rintro ⟨stop, hleads, hstop, hend⟩
    induction hleads with
    | here pos =>
      by_cases hzero : buf pos = 0
      · exact ⟨pos + 1, .root hstop hzero⟩
      · exact ⟨pos + 2, .pointer hstop hzero ((pointer_iff _).1.mpr (hend.resolve_left hzero))⟩
    | onward hpos hlow hhigh _ ih =>
      obtain ⟨last, hlast⟩ := ih hstop hend
      exact ⟨last, .label hpos ((toNat_pos_iff _).mp hlow)
        (mt (pointer_iff _).1.mp (not_le.mpr hhigh)) hlast⟩

/-- An end that the walk over the length bytes finds is that of a complete name, or the walk has
misread a byte. -/
theorem NameEnd.nameAt_or_misread {pos last : ℕ} (h : NameEnd buf len pos last) :
    NameAt buf len pos last ∨ Misread buf len pos := by
  induction h with
  | root hpos hzero => exact Or.inl (nameAt_root hpos hzero)
  | @pointer pos hpos _ hpointer =>
    have hbyte := (pointer_iff _).1.mp hpointer
    rcases Nat.lt_or_ge (pos + 1) len with hlt | hge
    · exact Or.inl (nameAt_pointer hlt hbyte)
    · exact Or.inr (.cutPointer (by omega) hbyte)
  | @label pos last hpos hzero hpointer hrest ih =>
    have hlow := (toNat_pos_iff _).mpr hzero
    have hhigh := mt (pointer_iff (buf pos)).1.mpr hpointer
    rcases Nat.lt_or_ge (buf pos).toNat 64 with hshort | hreserved
    · exact ih.imp (NameAt.label hlow hshort) (Misread.label hpos hlow hshort)
    · obtain ⟨stop, hleads, hstop, hend⟩ := exists_nameEnd_iff.mp ⟨_, hrest⟩
      exact Or.inr (.reserved hpos hreserved (not_le.mp hhigh) hleads hstop hend)

/-- A walk that misreads a byte ends somewhere. -/
theorem Misread.exists_nameEnd {pos : ℕ} (h : Misread buf len pos) :
    ∃ last, NameEnd buf len pos last := by
  induction h with
  | @cutPointer pos hpos hpointer =>
    have hzero : buf pos ≠ 0 := (toNat_pos_iff _).mp (by omega)
    exact ⟨pos + 2, .pointer (by omega) hzero ((pointer_iff _).1.mpr hpointer)⟩
  | @reserved pos stop hpos hlow hhigh hleads hstop hend =>
    obtain ⟨last, hrest⟩ := exists_nameEnd_iff.mpr ⟨stop, hleads, hstop, hend⟩
    have hzero : buf pos ≠ 0 := (toNat_pos_iff _).mp (by omega)
    exact ⟨last, .label hpos hzero (mt (pointer_iff _).1.mp (by omega)) hrest⟩
  | @label pos hpos hlow hhigh _ ih =>
    obtain ⟨last, hlast⟩ := ih
    exact ⟨last, .label hpos ((toNat_pos_iff _).mp hlow) (mt (pointer_iff _).1.mp (by omega)) hlast⟩

/-- No byte of a complete name is misread. -/
theorem NameAt.not_misread {pos last : ℕ} (h : NameAt buf len pos last) :
    ¬ Misread buf len pos := by
  obtain ⟨⟨labels, tail⟩, hname, rfl, hlen⟩ := h
  induction labels generalizing pos with
  | nil =>
    cases tail with
    | root =>
      have hzero : (buf pos).toNat = 0 := congrArg UInt8.toNat hname.1
      intro hmisread
      cases hmisread <;> omega
    | pointer offset =>
      have hbyte := @pointer_byte (offset / 256) (by omega)
      have hfirst : buf pos = 0xC0 ||| UInt8.ofNat (offset / 256) := hname.1
      rw [← hfirst] at hbyte
      have hpointer := (pointer_iff _).1.mp hbyte.2
      have htwo : pos + 2 ≤ len := hlen
      intro hmisread
      cases hmisread <;> omega
  | cons label labels ih =>
    have hencode : (Name.mk (label :: labels) tail).encode =
        label.encode ++ (Name.mk labels tail).encode := by
      simp [Name.encode]
    have hlabel : label.encode.length = 1 + label.bytes.length := by
      rw [Label.encode, List.length_cons, add_comm]
    rw [hencode, bytesAt_append] at hname
    rw [hencode, List.length_append] at hlen
    have hbyte : (buf pos).toNat = label.bytes.length := by
      rw [hname.1.1, (length_byte label.nonempty label.short).2.2]
    have hshort := label.short
    have hnonempty := label.nonempty
    have hrest := @ih (pos + (1 + (buf pos).toNat)) (by rw [hbyte, ← hlabel]; exact hname.2)
      (by omega)
    intro hmisread
    cases hmisread with
    | cutPointer _ hpointer => omega
    | reserved _ hlow => omega
    | label _ _ _ hmisread => exact hrest hmisread

/-- `skip_name` returns 0 exactly where a complete name starts, with the position after it, unless
it misreads a byte. -/
theorem skipsNames_iff (buf : ℕ → UInt8) (len pos : ℕ) :
    SkipsNames buf len pos ↔ ¬ Misread buf len pos := by
  constructor
  · intro hskips hmisread
    obtain ⟨last, hlast⟩ := hmisread.exists_nameEnd
    exact ((hskips last).mp (skipName_eq_some_iff.mpr hlast)).not_misread hmisread
  · intro hnot last
    rw [skipName_eq_some_iff]
    exact ⟨fun h ↦ h.nameAt_or_misread.resolve_right hnot, NameAt.nameEnd⟩

/-- The byte after the header is the first of a pointer and the last received: `skip_name` returns 0
with a position past the length. -/
theorem not_skipsNames_cutPointer :
    (skipName (fun _ ↦ 0xC0) 13 12).2 = some 14 ∧ ¬ SkipsNames (fun _ ↦ 0xC0) 13 12 := by
  have hskip : (skipName (fun _ ↦ 0xC0) 13 12).2 = some 14 :=
    skipName_eq_some_iff.mpr (.pointer (by decide) (by decide) (by decide))
  refine ⟨hskip, fun hskips ↦ ?_⟩
  obtain ⟨name, -, -, hlen⟩ := (hskips 14).mp hskip
  exact absurd hlen (by decide)

end DailyChallenge.Dns
