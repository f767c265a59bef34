import Mathlib
import DailyChallenge.Dns.Response

/-!
# Building a DNS query

`encode_name` and `build_query` of `04-dns_query/main.c`. The encoder has its two arrays as memories
that hold anything at first, and its counters in their own widths. A write behind the end of `seg`
or of the 512 bytes of `encoded_domain` has no defined effect, so it stops the run
(`Fault.outOfBounds`); `Fault.failed` is a return of -1. The loop index is 16 bits wide, so the loop
is run with fuel, and no result would mean that it does not end.
-/

set_option autoImplicit false
set_option relaxedAutoImplicit false

namespace DailyChallenge.Dns

open Library

/-- A NUL-terminated string: its bytes before the NUL. -/
abbrev CString := {bytes : Bytes // 0 ∉ bytes}

/-- `strlen`. -/
def CString.strlen (domain : CString) : ℕ := domain.val.length

/-- `domain[i]`, up to the NUL. -/
def CString.byteAt (domain : CString) (i : ℕ) : UInt8 := domain.val.getD i 0

/-- `'.'`. -/
def dot : UInt8 := 46

/-- `DNS_CLASS_IN`. -/
def dnsClassIn : UInt16 := 1

/-- `DNS_HEADER_FLAGS`. -/
def dnsHeaderFlags : UInt16 := 0x0100

/-- `MAX_LABEL_TOTAL`. -/
def maxLabelTotal : ℕ := 255

/-- `MAX_LABEL_SEGMENT`, also the size of `seg`. -/
def maxLabelSegment : ℕ := 63

/-- The size of `encoded_domain`, the buffer that `encode_name` writes to. -/
def encodedDomainSize : ℕ := 512

/-! ### `encode_name` -/

/-- Why a run gives no packet. -/
inductive Fault
  | outOfBounds
  | failed
deriving DecidableEq

/-- The locals of `encode_name` and the buffer it writes to. -/
structure Encoder where
  seg : ℕ → UInt8
  segI : UInt8
  buf : ℕ → UInt8
  bufI : UInt16

namespace Encoder

/-- `buf[buf_i++] = byte`. -/
def write (encoder : Encoder) (byte : UInt8) : Except Fault Encoder :=
  if encoder.bufI.toNat < encodedDomainSize then
    .ok { encoder with
      buf := Function.update encoder.buf encoder.bufI.toNat byte
      bufI := encoder.bufI + 1 }
  else .error .outOfBounds

/-- `for (uint8_t i = 0; i < seg_i; i++) buf[buf_i++] = seg[i]`. -/
def copySeg (encoder : Encoder) : Except Fault Encoder :=
  (List.range encoder.segI.toNat).foldlM (fun copied i ↦ copied.write (copied.seg i)) encoder

/-- The loop body at a dot or at the NUL. -/
def endLabel (encoder : Encoder) : Except Fault Encoder :=
  if maxLabelSegment < encoder.segI.toNat then .error .failed
  else do
    let encoder ← encoder.write encoder.segI
    let encoder ← encoder.copySeg
    return { encoder with
      seg := fun i ↦ if i < maxLabelSegment then 0 else encoder.seg i
      segI := 0 }

/-- `seg[seg_i] = byte; seg_i++`. -/
def addByte (encoder : Encoder) (byte : UInt8) : Except Fault Encoder :=
  if encoder.segI.toNat < maxLabelSegment then
    .ok { encoder with
      seg := Function.update encoder.seg encoder.segI.toNat byte
      segI := encoder.segI + 1 }
  else .error .outOfBounds

/-- The loop body. -/
def step (encoder : Encoder) (byte : UInt8) : Except Fault Encoder :=
  if byte = dot ∨ byte = 0 then encoder.endLabel else encoder.addByte byte

end Encoder

/-- The `for` loop, with fuel. -/
def encodeLoop (domain : CString) : ℕ → UInt16 → Encoder → Option (Except Fault Encoder)
  | 0, _, _ => none
  | fuel + 1, domainI, encoder =>
    if domainI.toNat < domain.strlen + 1 then
      match encoder.step (domain.byteAt domainI.toNat) with
      | .error fault => some (.error fault)
      | .ok next => encodeLoop domain fuel (domainI + 1) next
    else some (.ok encoder)

/-- What follows the loop. -/
def Encoder.finish (encoder : Encoder) : Except Fault ((ℕ → UInt8) × ℕ) := do
  let encoder ← encoder.write 0
  if maxLabelTotal < encoder.bufI.toNat then .error .failed
  else .ok (encoder.buf, encoder.bufI.toNat)

/-- `encode_name`, from what `seg` and `buf` hold at first: the buffer and the number of bytes
written, or nothing where the loop does not end. -/
def encodeName (domain : CString) (seg buf : ℕ → UInt8) :
    Option (Except Fault ((ℕ → UInt8) × ℕ)) :=
  (encodeLoop domain (domain.strlen + 2) 0 ⟨seg, 0, buf, 0⟩).map fun result ↦
    result.bind Encoder.finish

/-! ### `build_query` -/

/-- `htons` of a little-endian host. -/
def htons (n : UInt16) : UInt16 := n <<< 8 ||| n >>> 8

/-- The bytes of a `uint16_t` in the memory of a little-endian host. -/
def memoryOf (n : UInt16) : Bytes := littleEndian 2 n.toNat

/-- The twelve bytes of the header that `build_query` fills in. -/
def queryHeader (id : UInt16) : Bytes :=
  memoryOf (htons id) ++ memoryOf (htons dnsHeaderFlags) ++ memoryOf (htons 1) ++ memoryOf 0 ++
    memoryOf 0 ++ memoryOf 0

/-- `build_query`, from what `buf` and the locals hold at first. -/
def buildQuery (domain : CString) (buf : ℕ → UInt8) (id : UInt16)
    (seg encodedDomain : ℕ → UInt8) : Option (Except Fault ((ℕ → UInt8) × ℕ)) :=
  let buf := copyTo buf 0 (queryHeader id)
  let queryLen := 12
  (encodeName domain seg encodedDomain).map fun result ↦ do
    let (encodedDomain, domainLen) ← result
    let buf := copyTo buf queryLen ((List.range domainLen).map encodedDomain)
    let queryLen := queryLen + domainLen
    let buf := copyTo buf queryLen (memoryOf (htons dnsTypeA))
    let queryLen := queryLen + 2
    let buf := copyTo buf queryLen (memoryOf (htons dnsClassIn))
    let queryLen := queryLen + 2
    return (buf, queryLen)

end DailyChallenge.Dns
