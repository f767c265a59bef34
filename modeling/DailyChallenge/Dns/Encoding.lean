import Mathlib
import DailyChallenge.Dns.ReadBounds

/-!
# Well-formed responses on the wire

`Response` is a well-formed response as RFC 1035 lays it out: a header, one question with an
uncompressed name, any answer records, any trailing bytes. Names are labels of 1 to 63 bytes ended
by a zero byte or a pointer. Each piece has its encoding and the lemma that the parser's field
accesses and `skip_name` read it back. `parseResponse_encode` puts them together: the parser prints
exactly the addresses of the answer.
-/

set_option autoImplicit false
set_option relaxedAutoImplicit false

namespace DailyChallenge.Dns

open Library

/-! ### Encoding -/

/-- A label of 1 to 63 bytes. -/
structure Label where
  bytes : Bytes
  nonempty : 1 ≤ bytes.length
  short : bytes.length ≤ 63

def Label.encode (label : Label) : Bytes := UInt8.ofNat label.bytes.length :: label.bytes

/-- The end of a name: the root label, or a pointer to an offset of 14 bits. -/
inductive NameTail
  | root
  | pointer (offset : Fin (2 ^ 14))

def NameTail.encode : NameTail → Bytes
  | .root => [0]
  | .pointer offset => [0xC0 ||| UInt8.ofNat (offset / 256), UInt8.ofNat offset]

structure Name where
  labels : List Label
  tail : NameTail

def Name.encode (name : Name) : Bytes := name.labels.flatMap Label.encode ++ name.tail.encode

/-- An answer record; its RDLENGTH is the length of its RDATA. -/
structure Record where
  name : Name
  type : UInt16
  rclass : UInt16
  ttl : UInt32
  rdata : Bytes
  short : rdata.length < 2 ^ 16

/-- The ten bytes between the name and the RDATA of a record. -/
def Record.encodeFields (record : Record) : Bytes :=
  bigEndian 2 record.type.toNat ++ (bigEndian 2 record.rclass.toNat ++
    (bigEndian 4 record.ttl.toNat ++ bigEndian 2 record.rdata.length))

def Record.encode (record : Record) : Bytes :=
  record.name.encode ++ (record.encodeFields ++ record.rdata)

/-- A question with an uncompressed name. -/
structure Question where
  labels : List Label
  qtype : UInt16
  qclass : UInt16

def Question.name (question : Question) : Name := ⟨question.labels, .root⟩

def Question.encode (question : Question) : Bytes :=
  question.name.encode ++ (bigEndian 2 question.qtype.toNat ++ bigEndian 2 question.qclass.toNat)

def DnsHeader.encode (header : DnsHeader) : Bytes :=
  bigEndian 2 header.id.toNat ++ (bigEndian 2 header.flags.toNat ++
    (bigEndian 2 header.qdcount.toNat ++ (bigEndian 2 header.ancount.toNat ++
      (bigEndian 2 header.nscount.toNat ++ bigEndian 2 header.arcount.toNat))))

/-- A response with one question; its ANCOUNT is the number of its answers. -/
structure Response where
  id : UInt16
  flags : UInt16
  nscount : UInt16
  arcount : UInt16
  question : Question
  answers : List Record
  short : answers.length < 2 ^ 16
  trailing : Bytes

def Response.header (response : Response) : DnsHeader where
  id := response.id
  flags := response.flags
  qdcount := 1
  ancount := UInt16.ofNat response.answers.length
  nscount := response.nscount
  arcount := response.arcount

def Response.encode (response : Response) : Bytes :=
  response.header.encode ++ (response.question.encode ++
    (response.answers.flatMap Record.encode ++ response.trailing))

/-- An IPv4 address: TYPE 1 and RDLENGTH 4. -/
def Record.IsAddress (record : Record) : Prop := record.type = 1 ∧ record.rdata.length = 4

instance (record : Record) : Decidable record.IsAddress :=
  inferInstanceAs (Decidable (_ ∧ _))

/-- The line printed for an address. -/
def Record.line (record : Record) : Line := .answer record.rdata record.ttl record.rclass

/-! ### Fields -/

variable {buf : ℕ → UInt8} {len : ℕ}

/-- The number two bytes are decoded to. -/
theorem toNat_uint16At (pos : ℕ) :
    (uint16At buf pos).toNat = (buf pos).toNat * 2 ^ 8 + (buf (pos + 1)).toNat := by
  have h0 := UInt8.toNat_lt (buf pos)
  have h1 := UInt8.toNat_lt (buf (pos + 1))
  have hhigh : ((buf pos).toUInt16 <<< 8).toNat = (buf pos).toNat * 2 ^ 8 := by
    rw [UInt16.toNat_shiftLeft, UInt8.toNat_toUInt16, Nat.shiftLeft_eq]
    exact Nat.mod_eq_of_lt (show (buf pos).toNat * 2 ^ 8 < 2 ^ 16 by omega)
  rw [uint16At, UInt16.toNat_or, hhigh, UInt8.toNat_toUInt16]
  exact lor_eq_add (Nat.dvd_mul_left _ _) h1

/-- The number four bytes are decoded to. -/
theorem toNat_uint32At (pos : ℕ) :
    (uint32At buf pos).toNat = (buf pos).toNat * 2 ^ 24 + (buf (pos + 1)).toNat * 2 ^ 16 +
      (buf (pos + 2)).toNat * 2 ^ 8 + (buf (pos + 3)).toNat :=
  toNat_or_bytes (buf pos) (buf (pos + 1)) (buf (pos + 2)) (buf (pos + 3))

/-- A 16-bit field is read back. -/
theorem uint16At_bigEndian {pos value : ℕ} (h : BytesAt buf pos (bigEndian 2 value)) :
    uint16At buf pos = UInt16.ofNat value := by
  obtain ⟨h0, h1, -⟩ := h
  apply UInt16.toNat_inj.mp
  rw [toNat_uint16At, h0, h1]
  simp only [UInt8.toNat_ofNat', UInt16.toNat_ofNat']
  omega

/-- A 32-bit field is read back. -/
theorem uint32At_bigEndian {pos value : ℕ} (h : BytesAt buf pos (bigEndian 4 value)) :
    uint32At buf pos = UInt32.ofNat value := by
  obtain ⟨h0, h1, h2, h3, -⟩ := h
  apply UInt32.toNat_inj.mp
  rw [toNat_uint32At, h0, h1, h2, h3]
  simp only [UInt8.toNat_ofNat', UInt32.toNat_ofNat']
  omega

/-! ### Names -/

/-- A length byte is neither zero nor a pointer, and is the length. -/
theorem length_byte {n : ℕ} (hpos : 1 ≤ n) (hshort : n ≤ 63) :
    UInt8.ofNat n ≠ 0 ∧ UInt8.ofNat n &&& 0xC0 ≠ 0xC0 ∧ (UInt8.ofNat n).toNat = n := by
  have h : ∀ n : Fin 64, 1 ≤ n.val →
      UInt8.ofNat n ≠ 0 ∧ UInt8.ofNat n &&& 0xC0 ≠ 0xC0 ∧ (UInt8.ofNat n).toNat = n := by decide
  exact h ⟨n, Nat.lt_succ_of_le hshort⟩ hpos

/-- The first byte of a pointer is not zero and has its two top bits set. -/
theorem pointer_byte {high : ℕ} (h : high < 64) :
    (0xC0 ||| UInt8.ofNat high : UInt8) ≠ 0 ∧
      (0xC0 ||| UInt8.ofNat high : UInt8) &&& 0xC0 = 0xC0 := by
  have hall : ∀ high : Fin 64, (0xC0 ||| UInt8.ofNat high : UInt8) ≠ 0 ∧
      (0xC0 ||| UInt8.ofNat high : UInt8) &&& 0xC0 = 0xC0 := by decide
  exact hall ⟨high, h⟩

/-- The end of a name is found where it stands. -/
theorem nameEnd_tail {tail : NameTail} {pos : ℕ} (h : BytesAt buf pos tail.encode)
    (hlen : pos + tail.encode.length ≤ len) :
    NameEnd buf len pos (pos + tail.encode.length) := by
  cases tail with
  | root => exact .root hlen h.1
  | pointer offset =>
    have hbyte := @pointer_byte (offset / 256) (by omega)
    rw [← h.1] at hbyte
    exact .pointer (Nat.lt_of_lt_of_le (by simp [NameTail.encode]) hlen) hbyte.1 hbyte.2

/-- A name that stands at a position ends where its encoding does. -/
theorem nameEnd_encode {name : Name} {pos : ℕ} (h : BytesAt buf pos name.encode)
    (hlen : pos + name.encode.length ≤ len) :
    NameEnd buf len pos (pos + name.encode.length) := by
  obtain ⟨labels, tail⟩ := name
  induction labels generalizing pos with
  | nil => exact nameEnd_tail h hlen
  | cons label labels ih =>
    have hencode : (Name.mk (label :: labels) tail).encode =
        label.encode ++ (Name.mk labels tail).encode := by
      simp [Name.encode]
    have hlength : label.encode.length = 1 + label.bytes.length := by
      rw [Label.encode, List.length_cons, add_comm]
    rw [hencode, List.length_append] at hlen
    rw [hencode, bytesAt_append] at h
    obtain ⟨hzero, hpointer, htoNat⟩ := length_byte label.nonempty label.short
    obtain ⟨hfirst, -⟩ := h.1
    rw [← hfirst] at hzero hpointer htoNat
    have hrest := ih h.2 (by omega)
    rw [hencode, List.length_append, ← add_assoc]
    refine .label (by omega) hzero hpointer ?_
    rw [htoNat, ← hlength]
    exact hrest

theorem skipName_encode {name : Name} {pos : ℕ} (h : BytesAt buf pos name.encode)
    (hlen : pos + name.encode.length ≤ len) :
    (skipName buf len pos).2 = some (pos + name.encode.length) :=
  skipName_eq_some_iff.mpr (nameEnd_encode h hlen)

/-! ### Records and responses -/

/-- The fields of a record are read back after its name. -/
theorem Record.read_fields {record : Record} {pos fixed : ℕ}
    (hfixed : pos + record.name.encode.length = fixed) (h : BytesAt buf pos record.encode) :
    uint16At buf fixed = record.type ∧ uint16At buf (fixed + 2) = record.rclass ∧
      uint32At buf (fixed + 4) = record.ttl ∧
      uint16At buf (fixed + 8) = UInt16.ofNat record.rdata.length ∧
      BytesAt buf (fixed + 10) record.rdata := by
  rw [Record.encode, Record.encodeFields] at h
  simp only [bytesAt_append, hfixed, length_bigEndian, List.length_append, add_assoc,
    Nat.reduceAdd] at h
  obtain ⟨-, ⟨htype, hclass, httl, hrdlen⟩, hrdata⟩ := h
  refine ⟨?_, ?_, ?_, uint16At_bigEndian hrdlen, hrdata⟩
  · rw [uint16At_bigEndian htype, UInt16.ofNat_toNat]
  · rw [uint16At_bigEndian hclass, UInt16.ofNat_toNat]
  · rw [uint32At_bigEndian httl, UInt32.ofNat_toNat]

theorem Record.length_encode (record : Record) :
    record.encode.length = record.name.encode.length + (10 + record.rdata.length) := by
  rw [Record.encode, Record.encodeFields]
  simp only [List.length_append, length_bigEndian]

/-- The loop over the answers prints the addresses of encoded records, in order. -/
theorem parseAnswers_encode {records : List Record} {an pos : ℕ}
    (h : BytesAt buf pos (records.flatMap Record.encode))
    (hlen : pos + (records.flatMap Record.encode).length ≤ len) :
    (parseAnswers buf len records.length an pos).lines =
      (records.filter fun record ↦ record.IsAddress).map Record.line := by
  induction records generalizing an pos with
  | nil => rfl
  | cons record records ih =>
    rw [List.flatMap_cons, bytesAt_append] at h
    obtain ⟨hrecord, hrest⟩ := h
    rw [List.flatMap_cons, List.length_append, record.length_encode] at hlen
    rw [record.length_encode] at hrest
    have hname : BytesAt buf pos record.name.encode := by
      rw [Record.encode, bytesAt_append] at hrecord
      exact hrecord.1
    have hskip := skipName_encode hname (show _ ≤ len by omega)
    generalize hfixed : pos + record.name.encode.length = fixed at hskip
    obtain ⟨htype, hclass, httl, hrdlen, hrdata⟩ := record.read_fields hfixed hrecord
    have hlength : (UInt16.ofNat record.rdata.length).toNat = record.rdata.length :=
      UInt16.toNat_ofNat_of_lt' record.short
    have hfour : UInt16.ofNat record.rdata.length = 4 ↔ record.rdata.length = 4 := by
      rw [← UInt16.toNat_inj, hlength]
      rfl
    have hnext : pos + (record.name.encode.length + (10 + record.rdata.length)) =
        fixed + 10 + record.rdata.length := by
      omega
    rw [hnext] at hrest
    have hanswers := @ih (an + 1) _ hrest (by omega)
    rw [List.length_cons, parseAnswers]
    generalize skipName buf len pos = skipped at hskip
    obtain ⟨reads, result⟩ := skipped
    obtain rfl : result = some fixed := hskip
    dsimp only
    rw [htype, hclass, httl, hrdlen, hlength, hanswers]
    by_cases haddress : record.IsAddress
    · have hread := hrdata.read
      rw [haddress.2] at hread
      rw [if_pos ⟨haddress.1, hfour.mpr haddress.2⟩, hread, List.filter_cons_of_pos (by simpa)]
      rfl
    · rw [if_neg fun hshown ↦ haddress ⟨hshown.1, hfour.mp hshown.2⟩,
        List.filter_cons_of_neg (by simpa)]
      rfl

/-- The header fields are read back. -/
theorem readHeader_encode {header : DnsHeader} (h : BytesAt buf 0 header.encode) :
    readHeader buf = header := by
  simp only [DnsHeader.encode, bytesAt_append, length_bigEndian, Nat.reduceAdd] at h
  obtain ⟨hid, hflags, hqdcount, hancount, hnscount, harcount⟩ := h
  obtain ⟨id, flags, qdcount, ancount, nscount, arcount⟩ := header
  rw [readHeader, uint16At_bigEndian hid, uint16At_bigEndian hflags, uint16At_bigEndian hqdcount,
    uint16At_bigEndian hancount, uint16At_bigEndian hnscount, uint16At_bigEndian harcount]
  simp only [UInt16.ofNat_toNat]

theorem DnsHeader.length_encode (header : DnsHeader) : header.encode.length = 12 := by
  simp [DnsHeader.encode]

/-- Every well-formed response with the expected ID is printed as its header and exactly its IPv4
addresses, in order, each with its four bytes, its TTL and its class, whatever lies in the buffer
beyond the received bytes. -/
theorem parseResponse_encode (response : Response) (beyond : ℕ → UInt8) :
    (parseResponse (overlay response.encode beyond) response.encode.length response.id).lines =
      [.recv response.encode.length, .header response.header, .blank] ++
        (response.answers.filter fun record ↦ record.IsAddress).map Record.line := by
  have hbytes := bytesAt_overlay response.encode beyond
  generalize overlay response.encode beyond = buf at hbytes
  have hlength : response.encode.length = 12 + (response.question.name.encode.length + (4 +
      ((response.answers.flatMap Record.encode).length + response.trailing.length))) := by
    rw [Response.encode, Question.encode]
    simp only [List.length_append, length_bigEndian, DnsHeader.length_encode]
    omega
  generalize response.encode.length = len at hlength ⊢
  simp only [Response.encode, Question.encode, bytesAt_append, DnsHeader.length_encode,
    List.length_append, length_bigEndian, Nat.reduceAdd, zero_add] at hbytes
  obtain ⟨hheader, ⟨hname, -⟩, hanswers, -⟩ := hbytes
  have hskip := skipName_encode hname (show _ ≤ len by omega)
  rw [parseResponse, if_neg (by omega), readHeader_encode hheader]
  dsimp only
  rw [if_neg (by simp [Response.header])]
  generalize skipName buf len 12 = skipped at hskip
  obtain ⟨reads, result⟩ := skipped
  obtain rfl : result = some (12 + response.question.name.encode.length) := hskip
  dsimp only
  have hcount : response.header.ancount.toNat = response.answers.length :=
    UInt16.toNat_ofNat_of_lt' response.short
  rw [hcount, add_assoc, parseAnswers_encode hanswers (by omega)]

end DailyChallenge.Dns
