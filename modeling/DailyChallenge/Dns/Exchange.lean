import Mathlib
import DailyChallenge.Dns.Truncation
import DailyChallenge.Dns.Question

/-!
# A query and its response

`main` of `04-dns_query/main.c`. The system gives it a process id, a socket or none, and a datagram
in answer to what it sent, or none within five seconds; any host may have sent the datagram, and it
is cut to the 512 bytes of `resp`. A read behind them leaves the model like a write behind an array
(`Fault.outOfBounds`). Where `build_query` returns -1, that is the length given to `sendto`, which
then sends nothing. Against a resolver that copies the ID and the question of a query, `main` prints
the addresses of the response where it takes at most 512 bytes, and what is left of a longer one
unless the 512th byte cuts a record that is read on behind it (`main_of_replies`).
-/

set_option autoImplicit false
set_option relaxedAutoImplicit false

namespace DailyChallenge.Dns

open Library

/-! ### `main` -/

/-- The size of `resp`. -/
def respSize : ℕ := 512

/-- What the system does in a run. -/
structure Host where
  getpid : ℕ
  socket : Bool
  /-- What `recvfrom` receives after a datagram was sent, or none. -/
  recvfrom : Option Bytes → Option Bytes

/-- `(uint16_t)getpid()`. -/
def Host.id (host : Host) : UInt16 := UInt16.ofNat host.getpid

/-- What the arrays of a run hold at first. -/
structure Arrays where
  pkt : ℕ → UInt8
  resp : Fin respSize → UInt8
  seg : ℕ → UInt8
  encodedDomain : ℕ → UInt8

/-- What is printed to `stderr`. -/
inductive Complaint
  | usage (program : Option CString)
  | perror (call : String)
deriving DecidableEq

/-- The end of a run. -/
structure Exit where
  status : ℕ
  stdout : String
  stderr : List Complaint
deriving DecidableEq

/-- `printf("Header ID: %u\n", id)`. -/
def idLine (id : UInt16) : String := "Header ID: " ++ toString id ++ "\n"

/-- `resp` as a memory. Behind its last byte there is nothing to read, whatever stands here. -/
def respMemory (resp : Fin respSize → UInt8) (i : ℕ) : UInt8 :=
  if h : i < respSize then resp ⟨i, h⟩ else 0

/-- `main` from the socket on. -/
def exchange (host : Host) (resp : Fin respSize → UInt8) (sent : Option Bytes) :
    Except Fault Exit :=
  if host.socket then
    match host.recvfrom sent with
    | none => .ok ⟨1, idLine host.id, [.perror "recvfrom"]⟩
    | some datagram =>
      let received := datagram.take respSize
      let parse := parseResponse (overlay received (respMemory resp)) received.length host.id
      if ∀ i ∈ parse.reads, i < respSize then .ok ⟨0, idLine host.id ++ parse.stdout, []⟩
      else .error .outOfBounds
  else .ok ⟨1, idLine host.id, [.perror "socket"]⟩

/-- `main`. -/
def main (argv : List CString) (host : Host) (arrays : Arrays) : Option (Except Fault Exit) :=
  match argv with
  | [_, domain] =>
    (buildQuery domain arrays.pkt host.id arrays.seg arrays.encodedDomain).map fun
      | .ok (pkt, pktLen) => exchange host arrays.resp (some ((List.range pktLen).map pkt))
      | .error .failed => exchange host arrays.resp none
      | .error .outOfBounds => .error .outOfBounds
  | _ => some (.ok ⟨1, "", [.usage argv.head?]⟩)

/-! ### A resolver's reply -/

/-- A response to a query: it has the ID and the question of the query. -/
structure Response.RepliesTo (response : Response) (query : Bytes) : Prop where
  id : bigEndian 2 response.id.toNat = query.take 2
  question : response.question.encode = query.drop 12

/-- Every record that was received whole is printed like in a whole response. -/
theorem printed_of_le {records : List Record} (an : ℕ) {room : ℕ}
    (h : (records.flatMap Record.encode).length ≤ room) :
    printed records an room =
      some ((records.filter fun record ↦ record.IsAddress).map Record.line) := by
  induction records generalizing an room with
  | nil => rfl
  | cons record records ih =>
    rw [List.flatMap_cons, List.length_append] at h
    rw [printed, if_pos (by omega), ih _ (by omega), Option.map_some]
    by_cases haddress : record.IsAddress
    · rw [if_pos haddress, List.filter_cons_of_pos (by simpa)]
      rfl
    · rw [if_neg haddress, List.filter_cons_of_neg (by simpa)]
      rfl

theorem length_queryPacket (domain : CString) (id : UInt16) :
    (queryPacket domain id).length = 12 + (domain.strlen + 2) + 4 := by
  rw [queryPacket]
  simp only [List.length_append, DnsHeader.length_encode, domain.length_encode, length_bigEndian]
  omega

/-- A reply to the query for a name has its ID. -/
theorem Response.RepliesTo.id_eq {response : Response} {domain : CString} {id : UInt16}
    (h : response.RepliesTo (queryPacket domain id)) : response.id = id := by
  have hid := h.id
  rw [queryPacket, DnsHeader.encode, List.append_assoc, List.take_append_of_le_length (by simp),
    List.take_of_length_le (by simp)] at hid
  have hvalue := congrArg (fun bytes ↦ ofLittleEndian bytes.reverse) hid
  simp only [bigEndian, List.reverse_reverse] at hvalue
  rw [ofLittleEndian_littleEndian_of_lt response.id.toNat_lt,
    ofLittleEndian_littleEndian_of_lt (headerOf id).id.toNat_lt] at hvalue
  exact UInt16.toNat_inj.mp hvalue

/-- The answers of a reply to the query for a name start where the query ends. -/
theorem Response.RepliesTo.answersStart_eq {response : Response} {domain : CString} {id : UInt16}
    (h : response.RepliesTo (queryPacket domain id)) :
    response.answersStart = 12 + (domain.strlen + 2) + 4 := by
  have hlength := length_queryPacket domain id
  rw [Response.answersStart, h.question, List.length_drop]
  omega

/-- What is printed of a response: its header, then the addresses if it takes at most 512 bytes, and
what is left of the records in the first 512 bytes if it is longer; nothing where that is read on
behind the 512 bytes. -/
def Response.shown (response : Response) : Option (List Line) :=
  (if response.encode.length ≤ respSize then
    some ((response.answers.filter fun record ↦ record.IsAddress).map Record.line)
  else printed response.answers 0 (respSize - response.answersStart)).map
    ([.recv (min respSize response.encode.length), .header response.header, .blank] ++ ·)

/-- A buffer with more bytes than were received is large enough for what they are. -/
theorem Parse.within_mono {parse : Parse} {size larger : ℕ} {lines : List Line}
    (h : parse.within size = some lines) (hle : size ≤ larger) :
    parse.within larger = some lines := by
  rw [Parse.within, Option.ite_none_right_eq_some] at h ⊢
  exact ⟨fun i hi ↦ (h.1 i hi).trans_le hle, h.2⟩

/-- What is printed for a response in the receive buffer. -/
theorem within_received (response : Response) (memory : ℕ → UInt8)
    (hstart : response.answersStart ≤ respSize) :
    (parseResponse (overlay (response.encode.take respSize) memory)
      (response.encode.take respSize).length response.id).within respSize = response.shown := by
  have hlength : response.encode.length = response.answersStart +
      ((response.answers.flatMap Record.encode).length + response.trailing.length) := by
    rw [Response.encode, Response.answersStart]
    simp only [List.length_append, DnsHeader.length_encode]
    omega
  rw [List.length_take, Response.shown]
  rcases Nat.lt_or_ge respSize response.encode.length with hlong | hwhole
  · rw [Nat.min_eq_left hlong.le, if_neg (not_le.mpr hlong),
      parseResponse_take response memory hstart]
  · rw [Nat.min_eq_right hwhole, if_pos hwhole, List.take_of_length_le hwhole]
    have hparse := parseResponse_take response memory (show _ ≤ response.encode.length by omega)
    rw [List.take_length, printed_of_le 0 (by omega)] at hparse
    exact Parse.within_mono hparse hwhole

/-- How a run ends that prints some lines for what it received, or reads behind `resp`. -/
def Host.ending (host : Host) : Option (List Line) → Except Fault Exit
  | some lines => .ok ⟨0, idLine host.id ++ String.join (lines.map Line.text), []⟩
  | none => .error .outOfBounds

/-- The exchange with a host that answers. -/
theorem exchange_of_recvfrom {host : Host} {sent : Option Bytes} {datagram : Bytes}
    (hsocket : host.socket = true) (hrecvfrom : host.recvfrom sent = some datagram)
    (resp : Fin respSize → UInt8) :
    exchange host resp sent = host.ending ((parseResponse
      (overlay (datagram.take respSize) (respMemory resp)) (datagram.take respSize).length
        host.id).within respSize) := by
  rw [exchange, if_pos hsocket, hrecvfrom, Parse.within]
  dsimp only
  split_ifs <;> rfl

/-- Whatever name without an empty label is asked for, of at most 255 bytes on the wire, and
whatever response a resolver gives that has the ID and the question of the query: `main` exits with
0 and prints the header of the response, then its addresses in order if it takes at most 512 bytes,
and what is left of its records if it is longer, unless it reads on behind the 512 bytes. -/
theorem main_of_replies (program domain : CString) (host : Host) (arrays : Arrays)
    (response : Response) (hfits : domain.Fits) (hshort : domain.strlen + 2 ≤ maxLabelTotal)
    (hsocket : host.socket = true)
    (hrecvfrom : host.recvfrom (some (queryPacket domain host.id)) = some response.encode)
    (hreplies : response.RepliesTo (queryPacket domain host.id)) :
    main [program, domain] host arrays = some (host.ending response.shown) := by
  obtain ⟨packet, hpacket, hbytes⟩ :=
    (buildQuery_outcome domain host.id arrays.pkt arrays.seg arrays.encodedDomain).2.2 hfits hshort
  have hsent : (List.range (12 + (domain.strlen + 2) + 4)).map packet =
      queryPacket domain host.id := by
    rw [List.range_eq_range', ← length_queryPacket domain host.id]
    exact hbytes.read
  have hstart : response.answersStart ≤ respSize := by
    have hmax : maxLabelTotal = 255 := rfl
    have hsize : respSize = 512 := rfl
    rw [hreplies.answersStart_eq]
    omega
  rw [main, hpacket, Option.map_some]
  dsimp only
  rw [hsent, exchange_of_recvfrom hsocket hrecvfrom, ← hreplies.id_eq, within_received _ _ hstart]

/-- A response to a question for `a`: some bytes of another type, then an address. -/
def textResponse (size : Fin (2 ^ 16)) : Response where
  id := 7
  flags := 0x8380
  nscount := 0
  arcount := 0
  question := ⟨[⟨[97], by decide, by decide⟩], 1, 1⟩
  answers := [⟨⟨[], .pointer 12⟩, 16, 1, 300, List.replicate size 0, by simp⟩,
    ⟨⟨[], .pointer 12⟩, 1, 1, 60, [10, 0, 0, 1], by decide⟩]
  short := by simp
  trailing := []

/-- A resolver that gives this response. -/
def textHost (size : Fin (2 ^ 16)) : Host := ⟨7, true, fun _ ↦ some (textResponse size).encode⟩

theorem textResponse_repliesTo (size : Fin (2 ^ 16)) :
    (textResponse size).RepliesTo (queryPacket ⟨[97], by decide⟩ (textHost size).id) where
  id := show bigEndian 2 (7 : UInt16).toNat = (queryPacket ⟨[97], by decide⟩ 7).take 2 by decide
  question := show Question.encode ⟨[⟨[97], by decide, by decide⟩], 1, 1⟩ =
    (queryPacket ⟨[97], by decide⟩ 7).drop 12 by decide +kernel

/-- What is printed before the answers. -/
def textLines : List Line := [.recv 512, .header ⟨7, 0x8380, 1, 2, 0, 0⟩, .blank]

/-- Arrays with other bytes in them. -/
def staleArrays : Arrays := ⟨fun _ ↦ 9, fun _ ↦ 9, fun _ ↦ 9, fun _ ↦ 9⟩

/-- With 465 bytes before it the address ends with the 512th byte; with 467 it is cut in two, and
with 500 its name is not received. -/
theorem main_of_replies_textResponse :
    main [⟨[109], by decide⟩, ⟨[97], by decide⟩] (textHost 465) staleArrays =
        some ((textHost 465).ending (some (textLines ++ [.answer [10, 0, 0, 1] 60 1]))) ∧
      main [⟨[109], by decide⟩, ⟨[97], by decide⟩] (textHost 467) staleArrays =
        some (.error .outOfBounds) ∧
      main [⟨[109], by decide⟩, ⟨[97], by decide⟩] (textHost 500) staleArrays =
        some ((textHost 500).ending (some (textLines ++ [.answerNameError 1]))) := by
  have hrun : ∀ size, main [⟨[109], by decide⟩, ⟨[97], by decide⟩] (textHost size) staleArrays =
      some ((textHost size).ending (textResponse size).shown) := fun size ↦
    main_of_replies _ _ (textHost size) staleArrays (textResponse size)
      ⟨by decide, by decide⟩ (by decide) rfl rfl (textResponse_repliesTo size)
  have hwhole : (textResponse 465).shown =
      some (textLines ++ [.answer [10, 0, 0, 1] 60 1]) := by decide +kernel
  have hcut : (textResponse 467).shown = none := by decide +kernel
  have hunnamed : (textResponse 500).shown = some (textLines ++ [.answerNameError 1]) := by
    decide +kernel
  rw [← hwhole, ← hunnamed]
  refine ⟨hrun 465, ?_, hrun 500⟩
  rw [hrun 467, hcut]
  rfl

end DailyChallenge.Dns
