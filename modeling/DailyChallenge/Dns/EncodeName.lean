import Mathlib
import DailyChallenge.Dns.Query

/-!
# The outcome of `encode_name`

The encoder takes the string apart at its dots. `Encoder.Holds` says what has been written and which
bytes of a label wait in `seg`; `Reaches` is the outcome of a piece of the run, the bytes where they
fit the two arrays and the fault where they do not. Label by label this gives the outcome of
`encode_name` for every string (`encodeName_outcome`).
-/

set_option autoImplicit false
set_option relaxedAutoImplicit false

namespace DailyChallenge.Dns

open Library

/-! ### What the encoder holds -/

/-- The bytes of the buffer that are written, and the bytes of the label that wait. -/
structure Encoder.Holds (encoder : Encoder) (out label : Bytes) : Prop where
  buf : BytesAt encoder.buf 0 out
  bufI : encoder.bufI.toNat = out.length
  bufFits : out.length ≤ encodedDomainSize
  seg : BytesAt encoder.seg 0 label
  segI : encoder.segI.toNat = label.length
  segFits : label.length ≤ maxLabelSegment

/-- A piece of the run holds these bytes if they fit, and writes out of bounds if they do not. -/
structure Reaches (result : Except Fault Encoder) (fits : Prop) (out label : Bytes) : Prop where
  ok : fits → ∃ encoder, result = .ok encoder ∧ encoder.Holds out label
  error : ¬ fits → result = .error .outOfBounds

theorem Reaches.congr {result : Except Fault Encoder} {fits fits' : Prop} {out label : Bytes}
    (h : Reaches result fits out label) (hfits : fits' ↔ fits) : Reaches result fits' out label :=
  ⟨fun hfit ↦ h.ok (hfits.mp hfit), fun hfull ↦ h.error fun hfit ↦ hfull (hfits.mpr hfit)⟩

/-- One piece of the run after another, where the second fits only if the first does. -/
theorem Reaches.bind {result : Except Fault Encoder} {fits fits' : Prop}
    {out out' label label' : Bytes} {next : Encoder → Except Fault Encoder}
    (h : Reaches result fits out label)
    (hnext : ∀ encoder, fits → encoder.Holds out label → Reaches (next encoder) fits' out' label')
    (hfits : fits' → fits) : Reaches (result >>= next) fits' out' label' := by
  by_cases hfirst : fits
  · obtain ⟨encoder, rfl, hholds⟩ := h.ok hfirst
    exact hnext encoder hfirst hholds
  · refine ⟨fun hsecond ↦ absurd (hfits hsecond) hfirst, fun _ ↦ ?_⟩
    rw [h.error hfirst]
    rfl

variable {encoder : Encoder} {out label : Bytes}

/-- A byte written to the buffer. -/
theorem Encoder.Holds.write (h : encoder.Holds out label) (byte : UInt8) :
    Reaches (encoder.write byte) (out.length + 1 ≤ encodedDomainSize) (out ++ [byte]) label := by
  have hsize : encodedDomainSize < 2 ^ 16 := by decide
  unfold Encoder.write
  rw [h.bufI]
  constructor
  · intro hfits
    rw [if_pos (show out.length < encodedDomainSize from hfits)]
    refine ⟨_, rfl, ?_⟩
    constructor
    case buf =>
      have hbyte := h.buf.append_byte byte
      rwa [zero_add] at hbyte
    case bufI =>
      rw [List.length_append, List.length_singleton]
      show (encoder.bufI + 1).toNat = _
      rw [UInt16.toNat_add, h.bufI]
      exact Nat.mod_eq_of_lt (show out.length + 1 < 2 ^ 16 by omega)
    case bufFits => rwa [List.length_append, List.length_singleton]
    case seg => exact h.seg
    case segI => exact h.segI
    case segFits => exact h.segFits
  · intro hfull
    rw [if_neg (show ¬ out.length < encodedDomainSize from hfull)]

/-- The bytes of the label that are left to copy. -/
theorem Encoder.Holds.copyRest {copied rest : Bytes}
    (h : encoder.Holds (out ++ copied) (copied ++ rest)) :
    Reaches ((List.range' copied.length rest.length).foldlM
        (fun copied i ↦ copied.write (copied.seg i)) encoder)
      (out.length + (copied ++ rest).length ≤ encodedDomainSize)
      (out ++ (copied ++ rest)) (copied ++ rest) := by
  induction rest generalizing encoder copied with
  | nil =>
    rw [List.append_nil] at h ⊢
    have hfits := h.bufFits
    rw [List.length_append] at hfits
    exact ⟨fun _ ↦ ⟨encoder, rfl, h⟩, fun hfull ↦ absurd hfits hfull⟩
  | cons byte rest ih =>
    have hbyte : encoder.seg copied.length = byte := by
      have hseg := h.seg
      rw [bytesAt_append, zero_add] at hseg
      exact hseg.2.1
    rw [List.length_cons, List.range'_succ, List.foldlM_cons, hbyte]
    refine (h.write byte).bind (fun next _ hholds ↦ ?_) ?_
    · rw [List.append_cons copied] at hholds ⊢
      rw [List.append_assoc] at hholds
      have hnext := ih hholds
      rwa [List.length_append, List.length_singleton] at hnext
    · intro hfits
      rw [List.length_append, List.length_cons] at hfits
      rw [List.length_append]
      omega

theorem Encoder.Holds.copySeg (h : encoder.Holds out label) :
    Reaches encoder.copySeg (out.length + label.length ≤ encodedDomainSize) (out ++ label)
      label := by
  have hnone : encoder.Holds (out ++ []) ([] ++ label) := by simpa using h
  have hcopy := hnone.copyRest
  unfold Encoder.copySeg
  rw [h.segI, List.range_eq_range']
  simpa using hcopy

/-- The wire form of a label, whatever its length. -/
def encodeLabel (label : Bytes) : Bytes := UInt8.ofNat label.length :: label

/-- A dot or the NUL writes the label that waits. -/
theorem Encoder.Holds.endLabel (h : encoder.Holds out label) :
    Reaches encoder.endLabel (out.length + (encodeLabel label).length ≤ encodedDomainSize)
      (out ++ encodeLabel label) [] := by
  have hlength : (encodeLabel label).length = label.length + 1 := rfl
  have hsegI : encoder.segI = UInt8.ofNat label.length := by
    rw [← h.segI, UInt8.ofNat_toNat]
  have hshort : ¬ maxLabelSegment < encoder.segI.toNat := by
    rw [h.segI]
    exact not_lt.mpr h.segFits
  unfold Encoder.endLabel
  rw [if_neg hshort]
  refine (h.write encoder.segI).bind (fun written _ hwritten ↦ ?_) (by omega)
  refine hwritten.copySeg.bind (fun copied _ hcopied ↦ ?_) ?_
  · rw [List.append_assoc, List.singleton_append, hsegI] at hcopied
    refine ⟨fun _ ↦ ⟨_, rfl, ?_⟩, fun hfull ↦ ?_⟩
    · exact ⟨hcopied.buf, hcopied.bufI, hcopied.bufFits, trivial, rfl, Nat.zero_le _⟩
    · have hfits := hcopied.bufFits
      rw [List.length_append] at hfits
      exact absurd hfits hfull
  · intro hfits
    rw [List.length_append, List.length_singleton]
    omega

/-- Any other byte joins the label that waits. -/
theorem Encoder.Holds.addByte (h : encoder.Holds out label) (byte : UInt8) :
    Reaches (encoder.addByte byte) ((label ++ [byte]).length ≤ maxLabelSegment) out
      (label ++ [byte]) := by
  have hsize : maxLabelSegment < 2 ^ 8 := by decide
  unfold Encoder.addByte
  rw [h.segI, List.length_append, List.length_singleton]
  constructor
  · intro hfits
    rw [if_pos (show label.length < maxLabelSegment from hfits)]
    refine ⟨_, rfl, ?_⟩
    constructor
    case buf => exact h.buf
    case bufI => exact h.bufI
    case bufFits => exact h.bufFits
    case seg =>
      have hbyte := h.seg.append_byte byte
      rwa [zero_add] at hbyte
    case segI =>
      rw [List.length_append, List.length_singleton]
      show (encoder.segI + 1).toNat = _
      rw [UInt8.toNat_add, h.segI]
      exact Nat.mod_eq_of_lt (show label.length + 1 < 2 ^ 8 by omega)
    case segFits => rwa [List.length_append, List.length_singleton]
  · intro hfull
    rw [if_neg (show ¬ label.length < maxLabelSegment from hfull)]

/-! ### Labels -/

/-- A byte that is neither a dot nor the NUL. -/
def Plain (byte : UInt8) : Prop := byte ≠ dot ∧ byte ≠ 0

/-- Plain bytes join the label that waits. -/
theorem Encoder.Holds.plain (h : encoder.Holds out label) {piece : Bytes}
    (hplain : ∀ byte ∈ piece, Plain byte) :
    Reaches (piece.foldlM Encoder.step encoder) ((label ++ piece).length ≤ maxLabelSegment) out
      (label ++ piece) := by
  induction piece generalizing encoder label with
  | nil =>
    rw [List.append_nil]
    exact ⟨fun _ ↦ ⟨encoder, rfl, h⟩, fun hlong ↦ absurd h.segFits hlong⟩
  | cons byte rest ih =>
    obtain ⟨hbyte, hrest⟩ := List.forall_mem_cons.mp hplain
    have hstep : encoder.step byte = encoder.addByte byte := by
      unfold Encoder.step
      rw [if_neg (not_or.mpr hbyte)]
    rw [List.foldlM_cons, hstep, List.append_cons]
    refine (h.addByte byte).bind (fun next _ hnext ↦ ih hnext hrest) ?_
    intro hfits
    rw [List.length_append] at hfits
    omega

/-- A whole label with the dot or the NUL behind it. -/
theorem Encoder.Holds.wholeLabel (h : encoder.Holds out []) {piece : Bytes}
    (hplain : ∀ byte ∈ piece, Plain byte) {separator : UInt8}
    (hseparator : separator = dot ∨ separator = 0) :
    Reaches ((piece ++ [separator]).foldlM Encoder.step encoder)
      (piece.length ≤ maxLabelSegment ∧
        (out ++ encodeLabel piece).length ≤ encodedDomainSize)
      (out ++ encodeLabel piece) [] := by
  rw [List.foldlM_append]
  refine (h.plain hplain).bind (fun next _ hnext ↦ ?_) And.left
  have hstep : next.step separator = next.endLabel := by
    unfold Encoder.step
    rw [if_pos hseparator]
  rw [List.foldlM_cons, hstep]
  simp only [List.foldlM_nil, bind_pure]
  refine hnext.endLabel.congr ?_
  rw [List.length_append]
  exact and_iff_right hnext.segFits

/-- The bytes that the loop sees: the labels with dots between them and the NUL behind. -/
def joined (pieces : List Bytes) : Bytes := [dot].intercalate pieces ++ [0]

theorem joined_cons_cons (piece next : Bytes) (rest : List Bytes) :
    joined (piece :: next :: rest) = piece ++ [dot] ++ joined (next :: rest) := by
  simp [joined, List.intercalate]

/-- The loop over all labels. -/
theorem Encoder.Holds.allLabels {pieces : List Bytes} (hne : pieces ≠ [])
    (hplain : ∀ piece ∈ pieces, ∀ byte ∈ piece, Plain byte) (h : encoder.Holds out []) :
    Reaches ((joined pieces).foldlM Encoder.step encoder)
      ((∀ piece ∈ pieces, piece.length ≤ maxLabelSegment) ∧
        (out ++ pieces.flatMap encodeLabel).length ≤ encodedDomainSize)
      (out ++ pieces.flatMap encodeLabel) [] := by
  induction pieces generalizing encoder out with
  | nil => exact absurd rfl hne
  | cons piece rest ih =>
    obtain ⟨hpiece, hrest⟩ := List.forall_mem_cons.mp hplain
    cases rest with
    | nil =>
      have hwhole := h.wholeLabel hpiece (Or.inr rfl)
      simpa [joined, List.intercalate] using hwhole
    | cons next rest =>
      rw [joined_cons_cons, List.foldlM_append, List.flatMap_cons, ← List.append_assoc]
      refine (h.wholeLabel hpiece (Or.inl rfl)).bind (fun last hfits hlast ↦ ?_) ?_
      · refine (ih (List.cons_ne_nil _ _) hrest hlast).congr ?_
        rw [List.forall_mem_cons, and_iff_right hfits.1]
      · rintro ⟨hshort, htotal⟩
        rw [List.length_append] at htotal
        exact ⟨hshort piece List.mem_cons_self, by omega⟩

/-! ### The outcome of `encode_name` -/

/-- Every step of the loop writes or buffers one byte. -/
theorem Encoder.Holds.step (h : encoder.Holds out label) (byte : UInt8) :
    ∃ fits out' label', Reaches (encoder.step byte) fits out' label' ∧
      out'.length + label'.length = out.length + label.length + 1 := by
  unfold Encoder.step
  split_ifs
  · exact ⟨_, _, _, h.endLabel, by simp [encodeLabel]; omega⟩
  · exact ⟨_, _, _, h.addByte byte, by simp; omega⟩

theorem CString.length_chars (domain : CString) :
    (domain.val ++ [0]).length = domain.strlen + 1 := by
  rw [List.length_append, List.length_singleton]
  rfl

theorem CString.byteAt_eq (domain : CString) (i : ℕ) :
    domain.byteAt i = (domain.val ++ [0]).getD i 0 := by
  unfold CString.byteAt
  rcases Nat.lt_or_ge i domain.val.length with hlt | hge
  · rw [List.getD_append _ _ _ _ hlt]
  · rw [List.getD_append_right _ _ _ _ hge, List.getD_eq_default _ _ hge]
    cases i - domain.val.length <;> rfl

/-- The index is far from wrapping while the encoder holds what it has seen. -/
theorem Encoder.Holds.toNat_index (h : encoder.Holds out label) {index : ℕ}
    (hindex : out.length + label.length = index) : (UInt16.ofNat index).toNat = index := by
  have hbuf := h.bufFits
  have hseg := h.segFits
  have hsize : encodedDomainSize + maxLabelSegment < 2 ^ 16 := by decide
  rw [UInt16.toNat_ofNat']
  exact Nat.mod_eq_of_lt (by omega)

/-- The loop sees the bytes of the string and the NUL in order: what is written and what waits are
as many bytes as the index, so the index does not wrap before a write would be out of bounds. -/
theorem encodeLoop_eq (domain : CString) {before rest : Bytes} {fuel : ℕ}
    (hsplit : before ++ rest = domain.val ++ [0]) (h : encoder.Holds out label)
    (hindex : out.length + label.length = before.length) (hfuel : rest.length < fuel) :
    encodeLoop domain fuel (UInt16.ofNat before.length) encoder =
      some (rest.foldlM Encoder.step encoder) := by
  induction rest generalizing encoder out label before fuel with
  | nil =>
    obtain ⟨fuel, rfl⟩ := Nat.exists_eq_add_one.mpr (Nat.zero_lt_of_lt hfuel)
    rw [encodeLoop, h.toNat_index hindex, if_neg]
    · rfl
    · rw [← domain.length_chars, ← hsplit, List.append_nil]
      exact lt_irrefl _
  | cons byte rest ih =>
    obtain ⟨fuel, rfl⟩ := Nat.exists_eq_add_one.mpr (Nat.zero_lt_of_lt hfuel)
    have hbyte : domain.byteAt before.length = byte := by
      rw [domain.byteAt_eq, ← hsplit]
      simp
    rw [encodeLoop, h.toNat_index hindex, if_pos, hbyte, List.foldlM_cons]
    · obtain ⟨fits, out', label', hreaches, hlength⟩ := h.step byte
      by_cases hfits : fits
      · obtain ⟨next, hok, hnext⟩ := hreaches.ok hfits
        have hsum : out'.length + label'.length = (before ++ [byte]).length := by
          rw [List.length_append, List.length_singleton]
          omega
        have hrest := ih (by rw [← hsplit, List.append_assoc, List.singleton_append]) hnext hsum
          (Nat.lt_of_succ_lt_succ hfuel)
        rw [List.length_append, List.length_singleton, UInt16.ofNat_add] at hrest
        rw [hok]
        exact hrest
      · rw [hreaches.error hfits]
        rfl
    · rw [← domain.length_chars, ← hsplit, List.length_append, List.length_cons]
      omega

/-- The labels of a string: what stands between its dots. -/
def CString.labels (domain : CString) : List Bytes := domain.val.splitOn dot

theorem CString.labels_ne_nil (domain : CString) : domain.labels ≠ [] := List.splitOn_ne_nil _ _

/-- What stands between two separators has none, and is part of the list. -/
theorem of_mem_splitOn {piece bytes : Bytes} (hpiece : piece ∈ bytes.splitOn dot) :
    ∀ byte ∈ piece, byte ∈ bytes ∧ byte ≠ dot := by
  induction bytes generalizing piece with
  | nil =>
    rw [List.splitOn_nil, List.mem_singleton] at hpiece
    subst hpiece
    exact fun byte hbyte ↦ absurd hbyte List.not_mem_nil
  | cons first rest ih =>
    have hrest : ∀ piece ∈ rest.splitOn dot, ∀ byte ∈ piece, byte ∈ first :: rest ∧ byte ≠ dot :=
      fun piece hpiece byte hbyte ↦
        ⟨List.mem_cons_of_mem _ (ih hpiece byte hbyte).1, (ih hpiece byte hbyte).2⟩
    rw [List.splitOn_cons_eq_if_modifyHead] at hpiece
    split_ifs at hpiece with hdot
    · rcases List.mem_cons.mp hpiece with rfl | hpiece
      · exact fun byte hbyte ↦ absurd hbyte List.not_mem_nil
      · exact hrest piece hpiece
    · obtain ⟨head, tail, hsplit⟩ := List.exists_cons_of_ne_nil (List.splitOn_ne_nil dot rest)
      rw [hsplit] at hpiece hrest
      rcases List.mem_cons.mp hpiece with rfl | hpiece
      · intro byte hbyte
        rcases List.mem_cons.mp hbyte with rfl | hbyte
        · exact ⟨List.mem_cons_self, by simpa using hdot⟩
        · exact hrest head List.mem_cons_self byte hbyte
      · exact hrest piece (List.mem_cons_of_mem _ hpiece)

theorem CString.plain_labels (domain : CString) :
    ∀ piece ∈ domain.labels, ∀ byte ∈ piece, Plain byte := by
  intro piece hpiece byte hbyte
  obtain ⟨hmem, hdot⟩ := of_mem_splitOn hpiece byte hbyte
  exact ⟨hdot, fun hzero ↦ domain.property (hzero ▸ hmem)⟩

theorem CString.joined_labels (domain : CString) : joined domain.labels = domain.val ++ [0] := by
  rw [joined, CString.labels, List.intercalate_splitOn]

/-- Each label has its length byte in place of the dot or the NUL behind it. -/
theorem length_flatMap_encodeLabel {pieces : List Bytes} (hne : pieces ≠ []) :
    (pieces.flatMap encodeLabel).length = (joined pieces).length := by
  induction pieces with
  | nil => exact absurd rfl hne
  | cons piece rest ih =>
    cases rest with
    | nil => simp [joined, List.intercalate, encodeLabel]
    | cons next rest =>
      rw [List.flatMap_cons, List.length_append, ih (List.cons_ne_nil _ _), joined_cons_cons,
        List.length_append, List.length_append]
      rfl

/-- The QNAME that is written for a string: its labels and a zero byte. -/
def CString.encode (domain : CString) : Bytes := domain.labels.flatMap encodeLabel ++ [0]

theorem CString.length_encode (domain : CString) : domain.encode.length = domain.strlen + 2 := by
  rw [CString.encode, List.length_append, List.length_singleton,
    length_flatMap_encodeLabel domain.labels_ne_nil, domain.joined_labels, domain.length_chars]

/-- No label is too long for `seg` and the name is not too long for the buffer. -/
def CString.Fits (domain : CString) : Prop :=
  (∀ label ∈ domain.labels, label.length ≤ maxLabelSegment) ∧
    domain.strlen + 2 ≤ encodedDomainSize

/-- The loop and the final zero byte. -/
theorem reaches_encode (domain : CString) (seg buf : ℕ → UInt8) :
    ∃ looped, encodeLoop domain (domain.strlen + 2) 0 ⟨seg, 0, buf, 0⟩ = some looped ∧
      Reaches (looped >>= fun encoder ↦ encoder.write 0) domain.Fits domain.encode [] := by
  have hstart : (⟨seg, 0, buf, 0⟩ : Encoder).Holds [] [] :=
    ⟨trivial, rfl, Nat.zero_le _, trivial, rfl, Nat.zero_le _⟩
  have hsplit : [] ++ joined domain.labels = domain.val ++ [0] := domain.joined_labels
  have hlength := domain.length_encode
  rw [CString.encode, List.length_append, List.length_singleton] at hlength
  refine ⟨_, encodeLoop_eq domain hsplit hstart rfl ?_, ?_⟩
  · rw [domain.joined_labels, domain.length_chars]
    exact Nat.lt_succ_self _
  · refine (hstart.allLabels domain.labels_ne_nil domain.plain_labels).bind
      (fun encoder hfits hholds ↦ ?_) ?_
    · refine (hholds.write 0).congr ?_
      rw [List.nil_append, hlength]
      exact and_iff_right hfits.1
    · rintro ⟨hlabels, htotal⟩
      rw [List.nil_append]
      exact ⟨hlabels, by omega⟩

/-- `encode_name` writes out of bounds exactly for the strings that do not fit. Of the others it
refuses those whose name is longer than 255 bytes, and encodes the rest. -/
theorem encodeName_outcome (domain : CString) (seg buf : ℕ → UInt8) :
    (¬ domain.Fits → encodeName domain seg buf = some (.error .outOfBounds)) ∧
    (domain.Fits → maxLabelTotal < domain.strlen + 2 →
      encodeName domain seg buf = some (.error .failed)) ∧
    (domain.Fits → domain.strlen + 2 ≤ maxLabelTotal →
      ∃ encoded, encodeName domain seg buf = some (.ok (encoded, domain.strlen + 2)) ∧
        BytesAt encoded 0 domain.encode) := by
  obtain ⟨looped, hloop, hreaches⟩ := reaches_encode domain seg buf
  have hname : encodeName domain seg buf =
      some ((looped >>= fun encoder ↦ encoder.write 0) >>= fun encoder ↦
        if maxLabelTotal < encoder.bufI.toNat then .error .failed
        else .ok (encoder.buf, encoder.bufI.toNat)) := by
    rw [encodeName, hloop, Option.map_some, bind_assoc]
    rfl
  rw [hname]
  refine ⟨fun hfull ↦ ?_, fun hfits hlong ↦ ?_, fun hfits hshort ↦ ?_⟩
  · rw [hreaches.error hfull]
    rfl
  · obtain ⟨encoder, hok, hholds⟩ := hreaches.ok hfits
    have hbufI := hholds.bufI.trans domain.length_encode
    rw [hok]
    show some (if maxLabelTotal < encoder.bufI.toNat then _ else _) = _
    rw [if_pos (by rw [hbufI]; exact hlong)]
  · obtain ⟨encoder, hok, hholds⟩ := hreaches.ok hfits
    have hbufI := hholds.bufI.trans domain.length_encode
    refine ⟨encoder.buf, ?_, hholds.buf⟩
    rw [hok]
    show some (if maxLabelTotal < encoder.bufI.toNat then _ else _) = _
    rw [if_neg (by rw [hbufI]; exact not_lt.mpr hshort), hbufI]

example : (encodeName ⟨[97, dot, 98, 99], by decide⟩ (fun _ ↦ 7) (fun _ ↦ 7)).map
    (Except.map fun (buf, length) ↦ (List.range length).map buf) =
      some (.ok [1, 97, 2, 98, 99, 0]) := by
  rfl

end DailyChallenge.Dns
