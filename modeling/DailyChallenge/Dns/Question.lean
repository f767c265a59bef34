import Mathlib
import DailyChallenge.Dns.Encoding
import DailyChallenge.Dns.EncodeName

/-!
# Which questions a query asks

`buildQuery_outcome` is the outcome of `build_query` for every string. Nothing in the encoder looks
for empty labels, and a length byte of zero ends a name: the packet asks a well-formed question
exactly where no label is empty (`sound_buildQuery_iff`). The labels of a proper name are read back
from the packet (`decodeName_buildQuery`).
-/

set_option autoImplicit false
set_option relaxedAutoImplicit false

namespace DailyChallenge.Dns

open Library

/-! ### The outcome of `build_query` -/

/-- `htons` puts the more significant byte first in memory. -/
theorem memoryOf_htons (n : UInt16) : memoryOf (htons n) = bigEndian 2 n.toNat := by
  have hn := n.toNat_lt
  have hhigh : n.toNat / 2 ^ 8 < 2 ^ 8 := by omega
  have hlow : n.toNat % 2 ^ 8 < 2 ^ 8 := Nat.mod_lt _ (by decide)
  have hleft : (n <<< 8).toNat = n.toNat % 2 ^ 8 * 2 ^ 8 := by
    rw [UInt16.toNat_shiftLeft]
    show n.toNat <<< 8 % 2 ^ 16 = _
    rw [Nat.shiftLeft_eq]
    omega
  have hswap : (htons n).toNat = n.toNat % 2 ^ 8 * 2 ^ 8 + n.toNat / 2 ^ 8 := by
    rw [htons, UInt16.toNat_or, hleft, UInt16.toNat_shiftRight]
    show _ ||| n.toNat >>> 8 = _
    rw [Nat.shiftRight_eq_div_pow]
    exact lor_eq_add (Nat.dvd_mul_left _ _) hhigh
  have hquotient : (htons n).toNat / 256 = n.toNat % 2 ^ 8 := by
    rw [hswap]
    generalize n.toNat / 2 ^ 8 = high at hhigh
    omega
  show [UInt8.ofNat (htons n).toNat, UInt8.ofNat ((htons n).toNat / 256)] =
    [UInt8.ofNat (n.toNat / 256), UInt8.ofNat n.toNat]
  have hfirst : UInt8.ofNat (htons n).toNat = UInt8.ofNat (n.toNat / 256) := by
    apply UInt8.toNat_inj.mp
    rw [UInt8.toNat_ofNat', UInt8.toNat_ofNat', hswap]
    omega
  have hsecond : UInt8.ofNat ((htons n).toNat / 256) = UInt8.ofNat n.toNat := by
    apply UInt8.toNat_inj.mp
    rw [UInt8.toNat_ofNat', UInt8.toNat_ofNat', hquotient, Nat.mod_mod]
  rw [hfirst, hsecond]

/-- The header of a query. -/
def headerOf (id : UInt16) : DnsHeader := ⟨id, dnsHeaderFlags, 1, 0, 0, 0⟩

theorem queryHeader_eq (id : UInt16) : queryHeader id = (headerOf id).encode := by
  simp only [queryHeader, memoryOf_htons, DnsHeader.encode, headerOf, List.append_assoc]
  rfl

/-- What `build_query` writes for a string that is encoded. -/
def queryPacket (domain : CString) (id : UInt16) : Bytes :=
  (headerOf id).encode ++ (domain.encode ++
    (bigEndian 2 dnsTypeA.toNat ++ bigEndian 2 dnsClassIn.toNat))

/-- `build_query` writes out of bounds exactly for the strings that do not fit. Of the others it
refuses those whose name is longer than 255 bytes, and writes the packet of the rest. -/
theorem buildQuery_outcome (domain : CString) (id : UInt16) (buf seg encodedDomain : ℕ → UInt8) :
    (¬ domain.Fits → buildQuery domain buf id seg encodedDomain = some (.error .outOfBounds)) ∧
    (domain.Fits → maxLabelTotal < domain.strlen + 2 →
      buildQuery domain buf id seg encodedDomain = some (.error .failed)) ∧
    (domain.Fits → domain.strlen + 2 ≤ maxLabelTotal → ∃ packet,
      buildQuery domain buf id seg encodedDomain =
        some (.ok (packet, 12 + (domain.strlen + 2) + 4)) ∧
      BytesAt packet 0 (queryPacket domain id)) := by
  obtain ⟨houtOfBounds, hfailed, hok⟩ := encodeName_outcome domain seg encodedDomain
  refine ⟨fun hfull ↦ ?_, fun hfits hlong ↦ ?_, fun hfits hshort ↦ ?_⟩
  · rw [buildQuery, houtOfBounds hfull]
    rfl
  · rw [buildQuery, hfailed hfits hlong]
    rfl
  · obtain ⟨encoded, hencoded, hbytes⟩ := hok hfits hshort
    have hread : (List.range (domain.strlen + 2)).map encoded = domain.encode := by
      rw [List.range_eq_range', ← domain.length_encode]
      exact hbytes.read
    have hlength : (queryHeader id).length = 12 := by
      rw [queryHeader_eq, DnsHeader.length_encode]
    have hempty : BytesAt buf 0 [] := trivial
    have hheader := hempty.append_copyTo (queryHeader id)
    have hname := hheader.append_copyTo domain.encode
    have htype := hname.append_copyTo (memoryOf (htons dnsTypeA))
    have hclass := htype.append_copyTo (memoryOf (htons dnsClassIn))
    simp only [List.nil_append, List.length_nil, List.length_append, zero_add, hlength,
      domain.length_encode] at hclass
    have htwo : (memoryOf (htons dnsTypeA)).length = 2 := rfl
    rw [htwo, List.append_assoc, List.append_assoc, queryHeader_eq, memoryOf_htons,
      memoryOf_htons] at hclass
    refine ⟨_, ?_, hclass⟩
    rw [buildQuery, hencoded, queryHeader_eq, ← hread, memoryOf_htons, memoryOf_htons]
    rfl

/-! ### Questions -/

/-- The question for the addresses of a name. -/
def addressQuestion (labels : List Label) : Question := ⟨labels, dnsTypeA, dnsClassIn⟩

/-- The string names the labels: it is the labels with dots between them, and a final dot may denote
the root. -/
def Names (domain : CString) (labels : List Label) : Prop :=
  (∀ label ∈ labels, dot ∉ label.bytes) ∧
    (domain.val = [dot].intercalate (labels.map Label.bytes) ∨
      domain.val = [dot].intercalate (labels.map Label.bytes) ++ [dot])

/-- Behind the header a packet of this length has exactly one question, for the labels: their name
with its one zero byte at the end, and QTYPE and QCLASS where `skip_name` stops. -/
structure AsksFor (labels : List Label) (packet : ℕ → UInt8) (len : ℕ) : Prop where
  question : BytesAt packet 12 (addressQuestion labels).encode
  length : len = 12 + (addressQuestion labels).encode.length
  terminator : (addressQuestion labels).name.encode.count 0 = 1
  short : (addressQuestion labels).name.encode.length ≤ maxLabelTotal
  skip : (skipName packet len 12).2 = some (len - 4)

/-- A packet that is returned has exactly one well-formed question, for the labels that the string
names. Nothing is known of a packet after a write out of bounds. -/
def Sound (domain : CString) : Option (Except Fault ((ℕ → UInt8) × ℕ)) → Prop
  | some (.ok (packet, len)) => ∃ labels, Names domain labels ∧ AsksFor labels packet len
  | some (.error .failed) => True
  | some (.error .outOfBounds) => False
  | none => False

variable {domain : CString} {labels : List Label}

/-- Byte strings of 1 to 63 bytes are labels. -/
theorem exists_labels {pieces : List Bytes} (hne : [] ∉ pieces)
    (hshort : ∀ piece ∈ pieces, piece.length ≤ maxLabelSegment) :
    ∃ labels : List Label, labels.map Label.bytes = pieces := by
  induction pieces with
  | nil => exact ⟨[], rfl⟩
  | cons piece rest ih =>
    obtain ⟨hpiece, hrest⟩ := List.forall_mem_cons.mp hshort
    rw [List.mem_cons, not_or] at hne
    obtain ⟨labels, hlabels⟩ := ih hne.2 hrest
    have hnonempty : 1 ≤ piece.length := List.length_pos_of_ne_nil (Ne.symm hne.1)
    exact ⟨⟨piece, hnonempty, hpiece⟩ :: labels, by rw [List.map_cons, hlabels]⟩

theorem flatMap_encodeLabel (labels : List Label) :
    (labels.map Label.bytes).flatMap encodeLabel = labels.flatMap Label.encode := by
  rw [List.flatMap_map]
  rfl

/-- The name that is written is the name of the labels. -/
theorem CString.encode_eq (h : domain.labels = labels.map Label.bytes) :
    domain.encode = (addressQuestion labels).name.encode := by
  rw [CString.encode, h, flatMap_encodeLabel]
  rfl

/-- Labels without zero bytes leave the terminator as the only one. -/
theorem count_zero_encode (h : ∀ label ∈ labels, 0 ∉ label.bytes) :
    (addressQuestion labels).name.encode.count 0 = 1 := by
  have hlabels : (0 : UInt8) ∉ labels.flatMap Label.encode := by
    intro hmem
    obtain ⟨label, hlabel, hzero⟩ := List.mem_flatMap.mp hmem
    rcases List.mem_cons.mp hzero with hlength | hbytes
    · exact (length_byte label.nonempty label.short).1 hlength.symm
    · exact h label hlabel hbytes
  show (labels.flatMap Label.encode ++ [0]).count 0 = 1
  rw [List.count_append, List.count_eq_zero.mpr hlabels]
  rfl

/-- A packet asks for the labels that stand between the dots of the string. -/
theorem asksFor_queryPacket {packet : ℕ → UInt8} {id : UInt16}
    (hlabels : domain.labels = labels.map Label.bytes)
    (hshort : domain.strlen + 2 ≤ maxLabelTotal)
    (hpacket : BytesAt packet 0 (queryPacket domain id)) :
    AsksFor labels packet (12 + (domain.strlen + 2) + 4) := by
  have hencode := domain.encode_eq hlabels
  have hlength : (addressQuestion labels).name.encode.length = domain.strlen + 2 := by
    rw [← hencode, domain.length_encode]
  have hquestion : BytesAt packet 12 (addressQuestion labels).encode := by
    rw [queryPacket, bytesAt_append, DnsHeader.length_encode, hencode, zero_add] at hpacket
    exact hpacket.2
  constructor
  case question => exact hquestion
  case length =>
    rw [Question.encode, List.length_append, hlength, List.length_append, length_bigEndian,
      length_bigEndian, add_assoc]
  case terminator =>
    refine count_zero_encode fun label hlabel hzero ↦ ?_
    have hpiece : label.bytes ∈ domain.labels := by
      rw [hlabels]
      exact List.mem_map_of_mem hlabel
    exact (domain.plain_labels _ hpiece 0 hzero).2 rfl
  case short => rwa [hlength]
  case skip =>
    rw [Question.encode, bytesAt_append] at hquestion
    rw [skipName_encode hquestion.1 (by omega), hlength, Nat.add_sub_cancel]

/-- `skip_name` stops at an empty label. -/
theorem skipName_empty {packet : ℕ → UInt8} {id : UInt16} {len : ℕ} (hfits : domain.Fits)
    (hempty : [] ∈ domain.labels) (hpacket : BytesAt packet 0 (queryPacket domain id))
    (hlen : 12 + (domain.strlen + 2) ≤ len) :
    ∃ stop < 12 + (domain.strlen + 2), (skipName packet len 12).2 = some stop := by
  obtain ⟨before, after, hsplit, hne⟩ := List.eq_append_cons_of_mem hempty
  have hbefore : ∀ piece ∈ before, piece.length ≤ maxLabelSegment := by
    intro piece hpiece
    refine hfits.1 piece ?_
    rw [hsplit]
    exact List.mem_append_left _ hpiece
  obtain ⟨labels, rfl⟩ := exists_labels hne hbefore
  -- The name of the labels before the empty one ends with its length byte.
  have hencode : domain.encode =
      (Name.mk labels .root).encode ++ (after.flatMap encodeLabel ++ [0]) := by
    rw [CString.encode, hsplit, List.flatMap_append, flatMap_encodeLabel]
    simp [Name.encode, NameTail.encode, encodeLabel]
  have hlength := domain.length_encode
  rw [hencode, List.length_append, List.length_append, List.length_singleton] at hlength
  rw [queryPacket, bytesAt_append, DnsHeader.length_encode, hencode, List.append_assoc,
    bytesAt_append] at hpacket
  refine ⟨_, ?_, skipName_encode hpacket.2.1 ?_⟩
  · omega
  · omega

/-- A packet for a string with an empty label is not sound. -/
theorem not_sound_of_empty (id : UInt16) (buf seg encodedDomain : ℕ → UInt8) (hfits : domain.Fits)
    (hshort : domain.strlen + 2 ≤ maxLabelTotal) (hempty : [] ∈ domain.labels) :
    ¬ Sound domain (buildQuery domain buf id seg encodedDomain) := by
  obtain ⟨packet, hok, hpacket⟩ :=
    (buildQuery_outcome domain id buf seg encodedDomain).2.2 hfits hshort
  rw [hok]
  rintro ⟨labels, -, hasks⟩
  obtain ⟨stop, hlt, hstop⟩ := skipName_empty hfits hempty hpacket (Nat.le_add_right _ 4)
  have hskip := hasks.skip
  rw [hstop, Nat.add_sub_cancel] at hskip
  exact (Option.some_inj.mp hskip).not_lt hlt

/-- What `build_query` returns is sound exactly for the strings that fit its arrays and have no
empty label, unless their name is too long and refused: neither a leading, doubled or final dot nor
the empty string is caught. -/
theorem sound_buildQuery_iff (domain : CString) (id : UInt16) (buf seg encodedDomain : ℕ → UInt8) :
    Sound domain (buildQuery domain buf id seg encodedDomain) ↔
      domain.Fits ∧ (domain.strlen + 2 ≤ maxLabelTotal → [] ∉ domain.labels) := by
  obtain ⟨houtOfBounds, hfailed, hok⟩ := buildQuery_outcome domain id buf seg encodedDomain
  constructor
  · intro hsound
    have hfits : domain.Fits := by
      by_contra hfull
      rw [houtOfBounds hfull] at hsound
      exact hsound
    exact ⟨hfits, fun hshort hempty ↦
      not_sound_of_empty id buf seg encodedDomain hfits hshort hempty hsound⟩
  · rintro ⟨hfits, hne⟩
    rcases Nat.lt_or_ge maxLabelTotal (domain.strlen + 2) with hlong | hshort
    · rw [hfailed hfits hlong]
      trivial
    · obtain ⟨packet, hpacket, hbytes⟩ := hok hfits hshort
      obtain ⟨labels, hlabels⟩ := exists_labels (hne hshort) hfits.1
      rw [hpacket]
      refine ⟨labels, ⟨fun label hlabel hdot ↦ ?_, Or.inl ?_⟩,
        asksFor_queryPacket hlabels.symm hshort hbytes⟩
      · have hpiece : label.bytes ∈ domain.labels := by
          rw [← hlabels]
          exact List.mem_map_of_mem hlabel
        exact (domain.plain_labels _ hpiece dot hdot).1 rfl
      · rw [hlabels, CString.labels, List.intercalate_splitOn]

/-- The string `a.` is encoded with an empty label before the terminator. -/
theorem not_sound_finalDot :
    ¬ Sound ⟨[97, dot], by decide⟩
      (buildQuery ⟨[97, dot], by decide⟩ (fun _ ↦ 0) 1 (fun _ ↦ 0) (fun _ ↦ 0)) :=
  not_sound_of_empty 1 _ _ _ ⟨by decide, by decide⟩ (by decide) (by decide)

/-! ### Reading the labels back -/

/-- The labels of a name that stands at a position, up to its zero byte; nothing where a length byte
is over 63 or the packet ends first. -/
def decodeName (buf : ℕ → UInt8) (len pos : ℕ) : Option (List Bytes) :=
  if pos < len then
    let length := (buf pos).toNat
    if length = 0 then some []
    else if length ≤ maxLabelSegment then
      (decodeName buf len (pos + (1 + length))).map fun labels ↦
        (List.range' (pos + 1) length).map buf :: labels
    else none
  else none
termination_by len - pos

/-- The labels of an encoded name are read back. -/
theorem decodeName_encode {buf : ℕ → UInt8} {len pos : ℕ}
    (h : BytesAt buf pos (Name.mk labels .root).encode)
    (hlen : pos + (Name.mk labels .root).encode.length ≤ len) :
    decodeName buf len pos = some (labels.map Label.bytes) := by
  induction labels generalizing pos with
  | nil =>
    obtain ⟨hzero, -⟩ := h
    rw [decodeName, if_pos (Nat.lt_of_succ_le hlen), hzero]
    rfl
  | cons label labels ih =>
    have hencode : (Name.mk (label :: labels) .root).encode =
        label.encode ++ (Name.mk labels .root).encode := by
      simp [Name.encode]
    have hlength : label.encode.length = 1 + label.bytes.length := by
      rw [Label.encode, List.length_cons, add_comm]
    rw [hencode, List.length_append, hlength] at hlen
    rw [hencode, bytesAt_append, hlength] at h
    obtain ⟨⟨hfirst, hbytes⟩, hrest⟩ := h
    have htoNat : (buf pos).toNat = label.bytes.length := by
      rw [hfirst]
      exact (length_byte label.nonempty label.short).2.2
    have hpos : label.bytes.length ≠ 0 := Nat.ne_of_gt label.nonempty
    rw [decodeName, if_pos (by omega), htoNat]
    dsimp only
    rw [if_neg hpos, if_pos (show _ ≤ maxLabelSegment from label.short), ih hrest (by omega),
      hbytes.read]
    rfl

/-- For every list of labels without dots and NULs whose name takes at most 255 bytes, the packet
built for the labels joined by dots gives back the labels and the header, and `skip_name` stops
before QTYPE and QCLASS. -/
theorem decodeName_buildQuery (labels : List Label) (hne : labels ≠ [])
    (hdots : ∀ label ∈ labels, dot ∉ label.bytes)
    (hshort : (Name.mk labels .root).encode.length ≤ 255) (domain : CString)
    (hdomain : domain.val = [dot].intercalate (labels.map Label.bytes)) (id : UInt16)
    (buf seg encodedDomain : ℕ → UInt8) :
    ∃ packet len, buildQuery domain buf id seg encodedDomain = some (.ok (packet, len)) ∧
      len = 12 + (domain.strlen + 2) + 4 ∧
      decodeName packet len 12 = some (labels.map Label.bytes) ∧
      (skipName packet len 12).2 = some (len - 4) ∧
      readHeader packet = ⟨id, 0x0100, 1, 0, 0, 0⟩ := by
  have hlabels : domain.labels = labels.map Label.bytes := by
    rw [CString.labels, hdomain]
    refine List.splitOn_intercalate dot (fun piece hpiece ↦ ?_) (by simpa using hne)
    obtain ⟨label, hlabel, rfl⟩ := List.mem_map.mp hpiece
    exact hdots label hlabel
  have hlength : (Name.mk labels .root).encode.length = domain.strlen + 2 := by
    rw [← domain.length_encode, domain.encode_eq hlabels]
    rfl
  rw [hlength] at hshort
  have hfits : domain.Fits := by
    refine ⟨fun piece hpiece ↦ ?_, hshort.trans (by decide)⟩
    rw [hlabels] at hpiece
    obtain ⟨label, -, rfl⟩ := List.mem_map.mp hpiece
    exact label.short
  obtain ⟨packet, hok, hpacket⟩ :=
    (buildQuery_outcome domain id buf seg encodedDomain).2.2 hfits hshort
  have hasks := asksFor_queryPacket hlabels hshort hpacket
  have hname : BytesAt packet 12 (Name.mk labels .root).encode := by
    have hquestion := hasks.question
    rw [Question.encode, bytesAt_append] at hquestion
    exact hquestion.1
  have hheader : BytesAt packet 0 (headerOf id).encode := by
    rw [queryPacket, bytesAt_append] at hpacket
    exact hpacket.1
  refine ⟨packet, _, hok, rfl, decodeName_encode hname ?_, hasks.skip, readHeader_encode hheader⟩
  rw [hlength]
  exact Nat.le_add_right _ 4

/-- The query for `a.bc`. -/
theorem decodeName_buildQuery_twoLabels :
    ∃ packet len, buildQuery ⟨[97, dot, 98, 99], by decide⟩ (fun _ ↦ 0) 7 (fun _ ↦ 0) (fun _ ↦ 0) =
        some (.ok (packet, len)) ∧
      len = 12 + (4 + 2) + 4 ∧
      decodeName packet len 12 = some [[97], [98, 99]] ∧
      (skipName packet len 12).2 = some (len - 4) ∧
      readHeader packet = ⟨7, 0x0100, 1, 0, 0, 0⟩ :=
  decodeName_buildQuery [⟨[97], by decide, by decide⟩, ⟨[98, 99], by decide, by decide⟩]
    (by decide) (by decide) (by decide) ⟨[97, dot, 98, 99], by decide⟩ (by decide) 7 _ _ _

end DailyChallenge.Dns
