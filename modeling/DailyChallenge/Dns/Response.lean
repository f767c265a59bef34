import Mathlib
import DailyChallenge.Library.ByteMemory

/-!
# Parsing a DNS response

`skip_name`, `print_header` and `parse_response` of `04-dns_query/main.c`. The receive buffer is a
memory with any bytes beyond the received length. `parseResponse` gives what it prints, line by
line, and the indices of `buf` it reads, in order; `inet_ntop` reads four bytes at the position it
is given. Positions are natural numbers: with at most 512 bytes received they stay far below
`INT_MAX`.
-/

set_option autoImplicit false
set_option relaxedAutoImplicit false

namespace DailyChallenge.Dns

open Library

/-- `dns_header_t`. -/
structure DnsHeader where
  id : UInt16
  flags : UInt16
  qdcount : UInt16
  ancount : UInt16
  nscount : UInt16
  arcount : UInt16
deriving DecidableEq

/-- `DNS_TYPE_A`. -/
def dnsTypeA : UInt16 := 1

/-! ### Output -/

/-- What one or more `printf` calls print. -/
inductive Line
  | recv (len : ℕ)
  | noHeader
  | header (header : DnsHeader)
  | idMismatch
  | blank
  | nameError
  | answerNameError (an : ℕ)
  | answer (address : Bytes) (ttl : UInt32) (rclass : UInt16)
deriving DecidableEq

/-- `%04X` of a 16-bit number. -/
def hex4 (n : UInt16) : String :=
  String.ofList ([12, 8, 4, 0].map fun shift ↦ (Nat.digitChar (n.toNat >>> shift % 16)).toUpper)

/-- What `print_header` prints. -/
def printHeader (header : DnsHeader) : String :=
  let f := header.flags
  let qr := f >>> 15 &&& 0x1
  let opcode := f >>> 11 &&& 0xF
  let aa := f >>> 10 &&& 0x1
  let tc := f >>> 9 &&& 0x1
  let rd := f >>> 8 &&& 0x1
  let ra := f >>> 7 &&& 0x1
  let z := f >>> 4 &&& 0x7
  let rcode := f >>> 0 &&& 0xF
  "  ID:     " ++ toString header.id ++ "\n" ++
  "  FLAGS:  0x" ++ hex4 f ++ "\n" ++
  "    QR:     " ++ toString qr ++ " (" ++ (if qr ≠ 0 then "response" else "query") ++ ")\n" ++
  "    Opcode: " ++ toString opcode ++ " (" ++
    (if opcode = 0 then "standard query" else "other") ++ ")\n" ++
  "    AA:     " ++ toString aa ++ "\n" ++
  "    TC:     " ++ toString tc ++ "\n" ++
  "    RD:     " ++ toString rd ++ "\n" ++
  "    RA:     " ++ toString ra ++ "\n" ++
  "    Z:      " ++ toString z ++ "\n" ++
  "    RCODE:  " ++ toString rcode ++ " (" ++
    (if rcode = 0 then "no error" else if rcode = 3 then "NXDOMAIN" else "other") ++ ")\n" ++
  "  QDCOUNT: " ++ toString header.qdcount ++ "\n" ++
  "  ANCOUNT: " ++ toString header.ancount ++ "\n" ++
  "  NSCOUNT: " ++ toString header.nscount ++ "\n" ++
  "  ARCOUNT: " ++ toString header.arcount ++ "\n"

/-- `inet_ntop(AF_INET, ..)`. -/
def inetNtop (address : Bytes) : String :=
  ".".intercalate (address.map toString)

def Line.text : Line → String
  | .recv len => "Recv " ++ toString len ++ " bytes\n\n"
  | .noHeader => "Did not receive header\n"
  | .header fields => "Header recv:\n" ++ printHeader fields
  | .idMismatch => "Header IDs do not match!\n"
  | .blank => "\n"
  | .nameError => "Error skipping past name\n"
  | .answerNameError an => "Error skipping past name, in an = " ++ toString an ++ "\n"
  | .answer address ttl rclass =>
    "  A  " ++ inetNtop address ++ "  TTL=" ++ toString ttl ++ " Class:" ++ toString rclass ++ "\n"

example :
    (Line.answer [93, 184, 216, 34] 300 1).text = "  A  93.184.216.34  TTL=300 Class:1\n" := by
  decide

/-! ### Parsing -/

/-- `(uint16_t)buf[pos] << 8 | (uint16_t)buf[pos+1]`. -/
def uint16At (buf : ℕ → UInt8) (pos : ℕ) : UInt16 :=
  (buf pos).toUInt16 <<< 8 ||| (buf (pos + 1)).toUInt16

/-- `(uint32_t)buf[pos] << 24 | .. | (uint32_t)buf[pos+3]`. -/
def uint32At (buf : ℕ → UInt8) (pos : ℕ) : UInt32 :=
  (buf pos).toUInt32 <<< 24 ||| (buf (pos + 1)).toUInt32 <<< 16 |||
    (buf (pos + 2)).toUInt32 <<< 8 ||| (buf (pos + 3)).toUInt32

/-- The header fields, decoded from the first twelve bytes. -/
def readHeader (buf : ℕ → UInt8) : DnsHeader where
  id := uint16At buf 0
  flags := uint16At buf 2
  qdcount := uint16At buf 4
  ancount := uint16At buf 6
  nscount := uint16At buf 8
  arcount := uint16At buf 10

/-- `skip_name`: the indices it reads, and the position after the name or nothing where the source
returns -1. -/
def skipName (buf : ℕ → UInt8) (len pos : ℕ) : List ℕ × Option ℕ :=
  if pos < len then
    let labelLen := buf pos
    if labelLen = 0 then ([pos], some (pos + 1))
    else if labelLen &&& 0xC0 = 0xC0 then ([pos], some (pos + 2))
    else
      let rest := skipName buf len (pos + (1 + labelLen.toNat))
      (pos :: rest.1, rest.2)
  else ([], none)
termination_by len - pos

/-- What a parse reads and prints. -/
structure Parse where
  reads : List ℕ
  lines : List Line

/-- The loop over the answers, from the answer `an` on. -/
def parseAnswers (buf : ℕ → UInt8) (len : ℕ) : (remaining an pos : ℕ) → Parse
  | 0, _, _ => ⟨[], []⟩
  | remaining + 1, an, pos =>
    match skipName buf len pos with
    | (reads, none) => ⟨reads, [.answerNameError an]⟩
    | (reads, some pos) =>
      let type := uint16At buf pos
      let rclass := uint16At buf (pos + 2)
      let ttl := uint32At buf (pos + 4)
      let rdlen := uint16At buf (pos + 8)
      let shown : Parse :=
        if type = dnsTypeA ∧ rdlen = 4 then
          ⟨List.range' (pos + 10) 4,
            [.answer ((List.range' (pos + 10) 4).map buf) ttl rclass]⟩
        else ⟨[], []⟩
      let rest := parseAnswers buf len remaining (an + 1) (pos + 10 + rdlen.toNat)
      ⟨reads ++ List.range' pos 10 ++ shown.reads ++ rest.reads, shown.lines ++ rest.lines⟩

/-- `parse_response`. -/
def parseResponse (buf : ℕ → UInt8) (len : ℕ) (expectedId : UInt16) : Parse :=
  if len < 12 then ⟨[], [.recv len, .noHeader]⟩
  else
    let header := readHeader buf
    if expectedId ≠ header.id then
      ⟨List.range' 0 12, [.recv len, .header header, .idMismatch]⟩
    else
      match skipName buf len 12 with
      | (reads, none) =>
        ⟨List.range' 0 12 ++ reads, [.recv len, .header header, .blank, .nameError]⟩
      | (reads, some pos) =>
        let answers := parseAnswers buf len header.ancount.toNat 0 (pos + 4)
        ⟨List.range' 0 12 ++ reads ++ answers.reads,
          [.recv len, .header header, .blank] ++ answers.lines⟩

/-- What a parse prints. -/
def Parse.stdout (parse : Parse) : String := String.join (parse.lines.map Line.text)

example : (parseResponse (fun _ ↦ 0) 5 0).stdout = "Recv 5 bytes\n\nDid not receive header\n" := by
  decide

end DailyChallenge.Dns
