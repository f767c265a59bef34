import Mathlib
import DailyChallenge.Dns.Encoding

/-!
# Responses that were cut

A datagram that is longer than the receive buffer is cut to it, and `parse_response` does not look
at the TC bit. `printed` is what it prints for answer records of which only some bytes were
received: the addresses among the complete records, then an error where the name of the next record
runs off the end. A record that is cut behind its name is read on behind the received bytes, unless
its ten fixed bytes are there and it is no address. `parseResponse_take` is this for a whole
response, cut anywhere behind its question.
-/

set_option autoImplicit false
set_option relaxedAutoImplicit false

namespace DailyChallenge.Dns

open Library

/-! ### Names that were cut -/

/-- `skip_name` accepts the first bytes of a name: all of them, or all but the second byte of a
pointer, which it does not read. -/
def Name.EndsWithin (name : Name) (room : ℕ) : Prop :=
  match name.tail with
  | .root => name.encode.length ≤ room
  | .pointer _ => name.encode.length ≤ room + 1

instance (name : Name) (room : ℕ) : Decidable (name.EndsWithin room) :=
  match name with
  | ⟨_, .root⟩ => inferInstanceAs (Decidable (_ ≤ _))
  | ⟨_, .pointer _⟩ => inferInstanceAs (Decidable (_ ≤ _))

variable {buf : ℕ → UInt8}

theorem skipName_of_le {len pos : ℕ} (h : len ≤ pos) : (skipName buf len pos).2 = none := by
  rw [skipName, if_neg (not_lt.mpr h)]

theorem skipName_label {len pos : ℕ} (hpos : pos < len) (hzero : buf pos ≠ 0)
    (hpointer : buf pos &&& 0xC0 ≠ 0xC0) :
    (skipName buf len pos).2 = (skipName buf len (pos + (1 + (buf pos).toNat))).2 := by
  rw [skipName, if_pos hpos]
  dsimp only
  rw [if_neg hzero, if_neg hpointer]

theorem Name.length_encode_cons (label : Label) (labels : List Label) (tail : NameTail) :
    (Name.mk (label :: labels) tail).encode.length =
      1 + label.bytes.length + (Name.mk labels tail).encode.length := by
  simp only [Name.encode, List.flatMap_cons, Label.encode, List.length_append, List.length_cons]
  omega

/-- A name without its first label ends within what is left of the room. -/
theorem Name.endsWithin_cons {label : Label} {labels : List Label} {tail : NameTail} {room : ℕ} :
    (Name.mk (label :: labels) tail).EndsWithin (1 + label.bytes.length + room) ↔
      (Name.mk labels tail).EndsWithin room := by
  have hlength := Name.length_encode_cons label labels tail
  cases tail with
  | root =>
    show _ ≤ _ ↔ _ ≤ _
    omega
  | pointer offset =>
    show _ ≤ _ ↔ _ ≤ _
    omega

/-- A name does not end within its first label. -/
theorem Name.not_endsWithin_label {label : Label} {labels : List Label} {tail : NameTail}
    {room : ℕ} (h : room ≤ 1 + label.bytes.length) :
    ¬ (Name.mk (label :: labels) tail).EndsWithin room := by
  have hlength := Name.length_encode_cons label labels tail
  cases tail with
  | root =>
    have htail : 1 ≤ (Name.mk labels .root).encode.length := by
      simp [Name.encode, NameTail.encode]
    show ¬ _ ≤ _
    omega
  | pointer offset =>
    have htail : 2 ≤ (Name.mk labels (.pointer offset)).encode.length := by
      simp [Name.encode, NameTail.encode]
    show ¬ _ ≤ _
    omega

/-- The first bytes of a name. -/
theorem skipName_take {name : Name} {pos room : ℕ} (h : BytesAt buf pos (name.encode.take room))
    (hroom : room < name.encode.length) :
    (skipName buf (pos + room) pos).2 =
      if name.EndsWithin room then some (pos + name.encode.length) else none := by
  obtain ⟨labels, tail⟩ := name
  induction labels generalizing pos room with
  | nil =>
    cases tail with
    | root =>
      obtain rfl : room = 0 := by simpa [Name.encode, NameTail.encode] using hroom
      rw [skipName_of_le (Nat.add_zero pos).le]
      rfl
    | pointer offset =>
      have hshort : room < 2 := hroom
      interval_cases room
      · rw [skipName_of_le (Nat.add_zero pos).le]
        rfl
      · have hbyte := @pointer_byte (offset / 256) (by omega)
        rw [← h.1] at hbyte
        exact skipName_eq_some_iff.mpr (.pointer (Nat.lt_succ_self pos) hbyte.1 hbyte.2)
  | cons label labels ih =>
    have hlength := Name.length_encode_cons label labels tail
    have hencode : (Name.mk (label :: labels) tail).encode =
        label.encode ++ (Name.mk labels tail).encode := by
      simp [Name.encode]
    have hlabel : label.encode.length = 1 + label.bytes.length := by
      rw [Label.encode, List.length_cons, add_comm]
    rcases Nat.eq_zero_or_pos room with rfl | hpositive
    · rw [skipName_of_le (Nat.add_zero pos).le, if_neg (Name.not_endsWithin_label (by omega))]
    · obtain ⟨hzero, hpointer, htoNat⟩ := length_byte label.nonempty label.short
      have hfirst : buf pos = UInt8.ofNat label.bytes.length := by
        rw [hencode, Label.encode, List.cons_append,
          List.take_cons (by omega : 0 < room)] at h
        exact h.1
      rw [← hfirst] at hzero hpointer htoNat
      rw [skipName_label (by omega) hzero hpointer, htoNat]
      rcases Nat.lt_or_ge (1 + label.bytes.length) room with hbeyond | hwithin
      · obtain ⟨rest, rfl⟩ := Nat.exists_eq_add_of_le hbeyond.le
        have hrest : BytesAt buf (pos + (1 + label.bytes.length))
            ((Name.mk labels tail).encode.take rest) := by
          rw [hencode, List.take_append, bytesAt_append,
            List.take_of_length_le (by omega), hlabel, Nat.add_sub_cancel_left] at h
          exact h.2
        rw [← add_assoc pos, ih hrest (by omega), hlength]
        exact if_congr Name.endsWithin_cons.symm (by rw [add_assoc]) rfl
      · rw [skipName_of_le (by omega), if_neg (Name.not_endsWithin_label hwithin)]

/-! ### Records that were cut -/

/-- What a parse prints, if it reads only the first bytes of the buffer. -/
def Parse.within (parse : Parse) (size : ℕ) : Option (List Line) :=
  if ∀ i ∈ parse.reads, i < size then some parse.lines else none

/-- What is printed for the records from number `an` on, of which the first bytes were received;
nothing where a byte behind them is read. -/
def printed : List Record → (an room : ℕ) → Option (List Line)
  | [], _, _ => some []
  | record :: records, an, room =>
    if record.encode.length ≤ room then
      (printed records (an + 1) (room - record.encode.length)).map
        ((if record.IsAddress then [record.line] else []) ++ ·)
    else if ¬ record.name.EndsWithin room then some [.answerNameError an]
    else if record.name.encode.length + 10 ≤ room ∧ ¬ record.IsAddress then
      some (if records = [] then [] else [.answerNameError (an + 1)])
    else none

/-- What `parse_response` prints for a record with its fields at a position, whatever is there. -/
def shownAt (buf : ℕ → UInt8) (fixed : ℕ) : List Line :=
  if uint16At buf fixed = dnsTypeA ∧ uint16At buf (fixed + 8) = 4 then
    [.answer ((List.range' (fixed + 10) 4).map buf) (uint32At buf (fixed + 4))
      (uint16At buf (fixed + 2))]
  else []

instance (buf : ℕ → UInt8) (len fixed : ℕ) : Decidable (FieldsFit buf len fixed) :=
  inferInstanceAs (Decidable (_ ∧ _))

/-- One pass of the loop over the answers. -/
theorem parseAnswers_succ {len pos fixed : ℕ} (remaining an : ℕ)
    (hskip : (skipName buf len pos).2 = some fixed) :
    (parseAnswers buf len (remaining + 1) an pos).within len =
      if FieldsFit buf len fixed then
        ((parseAnswers buf len remaining (an + 1)
          (fixed + 10 + (uint16At buf (fixed + 8)).toNat)).within len).map (shownAt buf fixed ++ ·)
      else none := by
  have hlines : (parseAnswers buf len (remaining + 1) an pos).lines = shownAt buf fixed ++
      (parseAnswers buf len remaining (an + 1)
        (fixed + 10 + (uint16At buf (fixed + 8)).toNat)).lines := by
    rw [parseAnswers]
    generalize skipName buf len pos = skipped at hskip
    obtain ⟨reads, result⟩ := skipped
    obtain rfl : result = some fixed := hskip
    unfold shownAt
    dsimp only
    split_ifs <;> rfl
  rw [Parse.within, if_congr (parseAnswers_succ_reads_lt_iff hskip) rfl rfl, hlines, Parse.within]
  by_cases hfits : FieldsFit buf len fixed
  · rw [if_pos hfits, if_congr (and_iff_right hfits) rfl rfl]
    split_ifs <;> rfl
  · rw [if_neg hfits, if_neg fun h ↦ hfits h.1]

/-- The loop stops at a name that runs off the end. -/
theorem parseAnswers_none {len pos : ℕ} (remaining an : ℕ)
    (hskip : (skipName buf len pos).2 = none) :
    (parseAnswers buf len (remaining + 1) an pos).within len = some [.answerNameError an] := by
  have hreads : ∀ i ∈ (skipName buf len pos).1, i < len := fun i hi ↦ lt_of_mem_skipName hi
  rw [parseAnswers]
  generalize skipName buf len pos = skipped at hskip hreads
  obtain ⟨reads, result⟩ := skipped
  obtain rfl : result = none := hskip
  exact if_pos hreads

/-- What the loop prints behind the received bytes. -/
theorem parseAnswers_beyond {len pos : ℕ} (records : List Record) (an : ℕ) (h : len ≤ pos) :
    (parseAnswers buf len records.length an pos).within len =
      some (if records = [] then [] else [.answerNameError an]) := by
  cases records with
  | nil => exact if_pos fun i hi ↦ absurd hi List.not_mem_nil
  | cons record records =>
    rw [List.length_cons, parseAnswers_none _ _ (skipName_of_le h), if_neg (List.cons_ne_nil _ _)]

/-- The length of the RDATA is read back from the fields alone. -/
theorem rdlen_of_fields {record : Record} {fixed : ℕ}
    (h : BytesAt buf fixed record.encodeFields) :
    (uint16At buf (fixed + 8)).toNat = record.rdata.length := by
  rw [Record.encodeFields] at h
  simp only [bytesAt_append, length_bigEndian, add_assoc, Nat.reduceAdd] at h
  rw [uint16At_bigEndian h.2.2.2]
  exact UInt16.toNat_ofNat_of_lt' record.short

/-- The parser takes a record for an address where it is one. -/
theorem isAddress_of_fields {record : Record} {fixed : ℕ}
    (h : BytesAt buf fixed record.encodeFields) :
    (uint16At buf fixed = dnsTypeA ∧ uint16At buf (fixed + 8) = 4) ↔ record.IsAddress := by
  have hrdlen := rdlen_of_fields h
  rw [Record.encodeFields] at h
  simp only [bytesAt_append] at h
  rw [uint16At_bigEndian h.1, UInt16.ofNat_toNat]
  refine and_congr_right fun _ ↦ ?_
  rw [← UInt16.toNat_inj, hrdlen]
  rfl

/-- The fields of a record show its line where it is an address. -/
theorem shownAt_record {record : Record} {pos : ℕ} (h : BytesAt buf pos record.encode) :
    shownAt buf (pos + record.name.encode.length) =
      if record.IsAddress then [record.line] else [] := by
  obtain ⟨-, hclass, httl, -, hrdata⟩ := record.read_fields rfl h
  rw [Record.encode, bytesAt_append, bytesAt_append] at h
  unfold shownAt
  rw [hclass, httl]
  refine if_ctx_congr (isAddress_of_fields h.2.1) (fun haddress ↦ ?_) fun _ ↦ rfl
  have hread := hrdata.read
  rw [haddress.2] at hread
  rw [hread]
  rfl

/-- The fields of a record that was received fit, and the address where it is one. -/
theorem fieldsFit_of_le {record : Record} {pos len : ℕ} (h : BytesAt buf pos record.encode)
    (hlen : pos + record.encode.length ≤ len) :
    FieldsFit buf len (pos + record.name.encode.length) := by
  rw [record.length_encode] at hlen
  rw [Record.encode, bytesAt_append, bytesAt_append] at h
  refine ⟨by omega, fun haddress ↦ ?_⟩
  have hfour := ((isAddress_of_fields h.2.1).mp haddress).2
  omega

theorem Name.endsWithin_of_le {name : Name} {room : ℕ} (h : name.encode.length ≤ room) :
    name.EndsWithin room := by
  obtain ⟨labels, tail⟩ := name
  cases tail with
  | root => exact h
  | pointer offset => exact Nat.le_succ_of_le h

/-- The fields of a cut record stand where they were received. -/
theorem bytesAt_fields_cut {record : Record} {pos room : ℕ}
    (h : BytesAt buf pos (record.encode.take room))
    (hfields : record.name.encode.length + 10 ≤ room) :
    BytesAt buf (pos + record.name.encode.length) record.encodeFields := by
  have hten : record.encodeFields.length = 10 := by
    simp only [Record.encodeFields, List.length_append, length_bigEndian]
  rw [Record.encode, List.take_append, List.take_of_length_le (by omega), bytesAt_append,
    List.take_append, List.take_of_length_le (by omega), bytesAt_append] at h
  exact h.2.1

/-- The fields of a cut record fit where they were received and it is no address; of an address, the
last byte is missing at least. -/
theorem fieldsFit_cut_iff {record : Record} {pos room : ℕ}
    (h : BytesAt buf pos (record.encode.take room)) (hroom : room < record.encode.length) :
    FieldsFit buf (pos + room) (pos + record.name.encode.length) ↔
      record.name.encode.length + 10 ≤ room ∧ ¬ record.IsAddress := by
  rw [record.length_encode] at hroom
  rcases Nat.lt_or_ge room (record.name.encode.length + 10) with hcut | hfields
  · exact iff_of_false (fun hfits ↦ by have := hfits.1; omega) fun hwhole ↦ by omega
  · rw [FieldsFit, isAddress_of_fields (bytesAt_fields_cut h hfields)]
    refine and_congr (by omega) (imp_congr_right fun haddress ↦ ?_)
    have hfour := haddress.2
    exact iff_false_intro (by omega)

/-- Where the fields of a cut record are, the position behind it is not among the received bytes. -/
theorem le_behind_cut {record : Record} {pos room : ℕ}
    (h : BytesAt buf pos (record.encode.take room)) (hroom : room < record.encode.length) :
    pos + room ≤ pos + record.name.encode.length + 10 +
      (uint16At buf (pos + record.name.encode.length + 8)).toNat := by
  rw [record.length_encode] at hroom
  rcases Nat.lt_or_ge room (record.name.encode.length + 10) with hcut | hfields
  · omega
  · rw [rdlen_of_fields (bytesAt_fields_cut h hfields)]
    omega

/-- `skip_name` at a cut record. -/
theorem skipName_cut {record : Record} {pos room : ℕ}
    (h : BytesAt buf pos (record.encode.take room)) :
    (skipName buf (pos + room) pos).2 =
      if record.name.EndsWithin room then some (pos + record.name.encode.length) else none := by
  have hname : BytesAt buf pos (record.name.encode.take room) := by
    rw [Record.encode, List.take_append, bytesAt_append] at h
    exact h.1
  rcases Nat.lt_or_ge room record.name.encode.length with hcut | hwhole
  · exact skipName_take hname hcut
  · rw [List.take_of_length_le hwhole] at hname
    rw [skipName_encode hname (by omega), if_pos (Name.endsWithin_of_le hwhole)]

/-- The loop at a record of which only the first bytes were received. -/
theorem parseAnswers_cut {record : Record} (records : List Record) (an : ℕ) {pos room : ℕ}
    (h : BytesAt buf pos (record.encode.take room)) (hroom : room < record.encode.length) :
    (parseAnswers buf (pos + room) (records.length + 1) an pos).within (pos + room) =
      if ¬ record.name.EndsWithin room then some [.answerNameError an]
      else if record.name.encode.length + 10 ≤ room ∧ ¬ record.IsAddress then
        some (if records = [] then [] else [.answerNameError (an + 1)])
      else none := by
  have hskip := skipName_cut h
  by_cases hends : record.name.EndsWithin room
  · rw [if_pos hends] at hskip
    rw [if_neg (not_not.mpr hends), parseAnswers_succ _ _ hskip,
      parseAnswers_beyond _ _ (le_behind_cut h hroom), Option.map_some]
    refine if_ctx_congr (fieldsFit_cut_iff h hroom) (fun hfits ↦ ?_) fun _ ↦ rfl
    have hshown : shownAt buf (pos + record.name.encode.length) = [] :=
      if_neg fun hread ↦
        hfits.2 ((isAddress_of_fields (bytesAt_fields_cut h hfits.1)).mp hread)
    rw [hshown, List.nil_append]
  · rw [if_neg hends] at hskip
    rw [if_pos hends, parseAnswers_none _ _ hskip]

/-- The loop at a record that was received. -/
theorem parseAnswers_whole {record : Record} {len pos : ℕ} (remaining an : ℕ)
    (h : BytesAt buf pos record.encode) (hlen : pos + record.encode.length ≤ len) :
    (parseAnswers buf len (remaining + 1) an pos).within len =
      ((parseAnswers buf len remaining (an + 1) (pos + record.encode.length)).within len).map
        ((if record.IsAddress then [record.line] else []) ++ ·) := by
  have hlength := record.length_encode
  have hparts := h
  rw [Record.encode, bytesAt_append, bytesAt_append] at hparts
  obtain ⟨hname, hfields, -⟩ := hparts
  have hskip := skipName_encode hname (show _ ≤ len by omega)
  rw [parseAnswers_succ _ _ hskip, if_pos (fieldsFit_of_le h hlen), shownAt_record h,
    rdlen_of_fields hfields, hlength, add_assoc, add_assoc]

/-- The loop over the first bytes of some records. -/
theorem parseAnswers_take {records : List Record} {an pos room : ℕ}
    (h : BytesAt buf pos ((records.flatMap Record.encode).take room)) :
    (parseAnswers buf (pos + room) records.length an pos).within (pos + room) =
      printed records an room := by
  induction records generalizing an pos room with
  | nil => exact if_pos fun i hi ↦ absurd hi List.not_mem_nil
  | cons record records ih =>
    rw [List.flatMap_cons, List.take_append, bytesAt_append] at h
    obtain ⟨hrecord, hrest⟩ := h
    rw [List.length_cons, printed]
    by_cases hwhole : record.encode.length ≤ room
    · rw [List.take_of_length_le hwhole] at hrecord hrest
      have hroom : pos + room = pos + record.encode.length + (room - record.encode.length) := by
        omega
      rw [if_pos hwhole, parseAnswers_whole _ _ hrecord (by omega), hroom, ih hrest]
    · rw [if_neg hwhole, parseAnswers_cut records an hrecord (not_le.mp hwhole)]

/-! ### Responses that were cut -/

/-- Where the answers of a response start. -/
def Response.answersStart (response : Response) : ℕ := 12 + response.question.encode.length

/-- The first bytes of a response, the question among them: its header, then its answer records as
far as they were received. -/
theorem parseResponse_take (response : Response) (beyond : ℕ → UInt8) {received : ℕ}
    (hquestion : response.answersStart ≤ received) :
    (parseResponse (overlay (response.encode.take received) beyond) received response.id).within
        received =
      (printed response.answers 0 (received - response.answersStart)).map
        ([.recv received, .header response.header, .blank] ++ ·) := by
  have hbytes := bytesAt_overlay (response.encode.take received) beyond
  generalize overlay (response.encode.take received) beyond = buf at hbytes
  obtain ⟨room, rfl⟩ := Nat.exists_eq_add_of_le hquestion
  have htake : response.encode.take (response.answersStart + room) =
      response.header.encode ++ (response.question.encode ++
        ((response.answers.flatMap Record.encode).take room ++
          response.trailing.take (room - (response.answers.flatMap Record.encode).length))) := by
    rw [Response.encode, Response.answersStart, ← response.header.length_encode, add_assoc,
      List.take_length_add_append, List.take_length_add_append, List.take_append]
  have hname : response.answersStart = 12 + response.question.name.encode.length + 4 := by
    simp only [Response.answersStart, Question.encode, List.length_append, length_bigEndian]
    omega
  rw [htake, Question.encode] at hbytes
  simp only [bytesAt_append, DnsHeader.length_encode, List.length_append, length_bigEndian,
    zero_add] at hbytes
  obtain ⟨hheader, ⟨hquestionName, -⟩, hanswers, -⟩ := hbytes
  have hskip := @skipName_encode _ (response.answersStart + room) _ _ hquestionName (by omega)
  have hreads : ∀ i ∈ (skipName buf (response.answersStart + room) 12).1,
      i < response.answersStart + room := fun i hi ↦ lt_of_mem_skipName hi
  have hcount : response.header.ancount.toNat = response.answers.length :=
    UInt16.toNat_ofNat_of_lt' response.short
  have htwelve := (@forall_range'_lt (response.answersStart + room) 0 12 (by decide)).mpr (by omega)
  have hprinted := @parseAnswers_take buf response.answers 0 response.answersStart room
    (by rw [hname, add_assoc]; exact hanswers)
  rw [parseResponse, if_neg (by omega), readHeader_encode hheader, Nat.add_sub_cancel_left,
    ← hprinted]
  dsimp only
  rw [if_neg (by simp [Response.header]), hcount]
  generalize skipName buf (response.answersStart + room) 12 = skipped at hskip hreads
  obtain ⟨reads, result⟩ := skipped
  obtain rfl : result = some (12 + response.question.name.encode.length) := hskip
  dsimp only
  rw [← hname]
  unfold Parse.within
  dsimp only
  rw [if_congr (List.forall_mem_append.trans
    (and_iff_right (List.forall_mem_append.mpr ⟨htwelve, hreads⟩))) rfl rfl]
  split_ifs <;> rfl

end DailyChallenge.Dns
