import Mathlib
import DailyChallenge.Library.ByteMemory
import DailyChallenge.Library.MerkleDamgard
import DailyChallenge.LengthExtension.NaiveMac

/-!
# What the code relies on of OpenSSL

`OpenSsl.Documented` states it for any compression function: a context is a Merkle–Damgård stream of
64-byte blocks with a count of bits. `sha256` is an implementation that works byte by byte, with
SHA-256's own compression function, and it is as documented (`sha256_documented`).
-/

set_option autoImplicit false
set_option relaxedAutoImplicit false

namespace DailyChallenge.LengthExtension

open Library

/-! ### The documented behaviour -/

/-- A compression function in place of SHA-256's, on blocks of 64 bytes. -/
def blocksOf (compress : Words → Bytes → Words) : Compression Words UInt8 :=
  ⟨64, by decide, compress⟩

/-- The chaining words and the buffered bytes of a context. -/
def Sha256Ctx.stream (ctx : Sha256Ctx) : ChainStream Words UInt8 :=
  ⟨ctx.h, ctx.data.toList.take ctx.num⟩

/-- The 64-bit count `Nh:Nl`. -/
def Sha256Ctx.bits (ctx : Sha256Ctx) : ℕ := ctx.nh.toNat * 2 ^ 32 + ctx.nl.toNat

/-- The padding of a message with so many bytes after its last full block: `0x80`, zeros up to the
last eight bytes of a block, the count of bits. -/
def padding (num bits : ℕ) : Bytes :=
  0x80 :: List.replicate ((119 - num) % 64) 0 ++ bigEndian 8 bits

/-- The state words as bytes, most significant first. -/
def digest (words : Words) : Bytes := (List.finRange 8).flatMap fun i ↦ bigEndian 4 (words i).toNat

/-- What is documented of OpenSSL, for a compression function and initial words. -/
structure OpenSsl.Documented (openSsl : OpenSsl) (compress : Words → Bytes → Words)
    (initial : Words) : Prop where
  init_stream : openSsl.init.stream = ⟨initial, []⟩
  init_bits : openSsl.init.bits = 0
  update_stream : ∀ ctx bytes, ctx.num < 64 → (openSsl.update ctx bytes).stream =
    (blocksOf compress).hashBlocks ctx.h (ctx.data.toList.take ctx.num ++ bytes)
  update_bits : ∀ ctx bytes, ctx.num < 64 → ctx.bits + 8 * bytes.length < 2 ^ 64 →
    (openSsl.update ctx bytes).bits = ctx.bits + 8 * bytes.length
  final_eq : ∀ ctx, ctx.num < 64 → openSsl.final ctx =
    digest ((blocksOf compress).hashBlocks ctx.h
      (ctx.data.toList.take ctx.num ++ padding ctx.num ctx.bits)).chain

/-! ### SHA-256 -/

/-- The initial words of SHA-256. -/
def initialWords : Words :=
  ![0x6a09e667, 0xbb67ae85, 0x3c6ef372, 0xa54ff53a, 0x510e527f, 0x9b05688c, 0x1f83d9ab, 0x5be0cd19]

/-- The round constants of SHA-256. -/
def roundConstants : List UInt32 := [
  0x428a2f98, 0x71374491, 0xb5c0fbcf, 0xe9b5dba5, 0x3956c25b, 0x59f111f1, 0x923f82a4, 0xab1c5ed5,
  0xd807aa98, 0x12835b01, 0x243185be, 0x550c7dc3, 0x72be5d74, 0x80deb1fe, 0x9bdc06a7, 0xc19bf174,
  0xe49b69c1, 0xefbe4786, 0x0fc19dc6, 0x240ca1cc, 0x2de92c6f, 0x4a7484aa, 0x5cb0a9dc, 0x76f988da,
  0x983e5152, 0xa831c66d, 0xb00327c8, 0xbf597fc7, 0xc6e00bf3, 0xd5a79147, 0x06ca6351, 0x14292967,
  0x27b70a85, 0x2e1b2138, 0x4d2c6dfc, 0x53380d13, 0x650a7354, 0x766a0abb, 0x81c2c92e, 0x92722c85,
  0xa2bfe8a1, 0xa81a664b, 0xc24b8b70, 0xc76c51a3, 0xd192e819, 0xd6990624, 0xf40e3585, 0x106aa070,
  0x19a4c116, 0x1e376c08, 0x2748774c, 0x34b0bcb5, 0x391c0cb3, 0x4ed8aa4a, 0x5b9cca4f, 0x682e6ff3,
  0x748f82ee, 0x78a5636f, 0x84c87814, 0x8cc70208, 0x90befffa, 0xa4506ceb, 0xbef9a3f7, 0xc67178f2]

/-- A rotation to the right. -/
def rotateRight (word count : UInt32) : UInt32 := word >>> count ||| word <<< (32 - count)

/-- The message schedule, latest word first, extended by so many words. -/
def schedule : ℕ → List UInt32 → List UInt32
  | 0, words => words
  | count + 1, words =>
    let word15 := words.getD 14 0
    let word2 := words.getD 1 0
    let sigma0 := rotateRight word15 7 ^^^ rotateRight word15 18 ^^^ word15 >>> 3
    let sigma1 := rotateRight word2 17 ^^^ rotateRight word2 19 ^^^ word2 >>> 10
    schedule count ((words.getD 15 0 + sigma0 + words.getD 6 0 + sigma1) :: words)

/-- The rounds over the constants with their schedule words. -/
def rounds : List (UInt32 × UInt32) → (a b c d e f g h : UInt32) → List UInt32
  | [], a, b, c, d, e, f, g, h => [a, b, c, d, e, f, g, h]
  | (constant, word) :: rest, a, b, c, d, e, f, g, h =>
    let sum1 := rotateRight e 6 ^^^ rotateRight e 11 ^^^ rotateRight e 25
    let choice := (e &&& f) ^^^ (~~~e &&& g)
    let first := h + sum1 + choice + constant + word
    let sum0 := rotateRight a 2 ^^^ rotateRight a 13 ^^^ rotateRight a 22
    let majority := (a &&& b) ^^^ (a &&& c) ^^^ (b &&& c)
    rounds rest (first + (sum0 + majority)) a b c (d + first) e f g

/-- The words of a block, first word first. -/
def blockWords (block : Bytes) : List UInt32 :=
  (List.range 16).map fun i ↦
    (block.getD (4 * i) 0).toUInt32 <<< 24 ||| (block.getD (4 * i + 1) 0).toUInt32 <<< 16 |||
      (block.getD (4 * i + 2) 0).toUInt32 <<< 8 ||| (block.getD (4 * i + 3) 0).toUInt32

/-- The compression function of SHA-256. -/
def compress (chain : Words) (block : Bytes) : Words :=
  let mixed := rounds (roundConstants.zip (schedule 48 (blockWords block).reverse).reverse)
    (chain 0) (chain 1) (chain 2) (chain 3) (chain 4) (chain 5) (chain 6) (chain 7)
  fun i ↦ chain i + mixed.getD i 0

/-- A context for a stream and a count of bits. -/
def ofStream (stream : ChainStream Words UInt8) (bits : ℕ) : Sha256Ctx where
  h := stream.chain
  nl := UInt32.ofNat bits
  nh := UInt32.ofNat (bits / 2 ^ 32)
  data := Vector.ofFn fun i ↦ stream.pending.getD i 0
  num := stream.pending.length

/-- SHA-256 byte by byte. -/
def sha256 : OpenSsl where
  init := ofStream ⟨initialWords, []⟩ 0
  update ctx bytes :=
    ofStream ((blocksOf compress).absorb ctx.stream bytes) (ctx.bits + 8 * bytes.length)
  final ctx := digest ((blocksOf compress).absorb ctx.stream (padding ctx.num ctx.bits)).chain

/-- The digest of "abc". -/
example : sha256.final (sha256.update sha256.init [97, 98, 99]) =
    [0xba, 0x78, 0x16, 0xbf, 0x8f, 0x01, 0xcf, 0xea, 0x41, 0x41, 0x40, 0xde, 0x5d, 0xae, 0x22, 0x23,
      0xb0, 0x03, 0x61, 0xa3, 0x96, 0x17, 0x7a, 0x9c, 0xb4, 0x10, 0xff, 0x61, 0xf2, 0x00, 0x15,
      0xad] := by
  decide +kernel

theorem stream_ofStream {stream : ChainStream Words UInt8} (bits : ℕ)
    (h : stream.pending.length < 64) : (ofStream stream bits).stream = stream := by
  have hpending : (Vector.ofFn fun i : Fin 64 ↦ stream.pending.getD i 0).toList.take
      stream.pending.length = stream.pending := by
    apply List.ext_getElem
    · rw [List.length_take, Vector.length_toList]
      omega
    · intro i hi hi'
      simp [List.getElem?_eq_getElem hi']
  rw [Sha256Ctx.stream]
  exact congrArg (ChainStream.mk stream.chain) hpending

theorem bits_ofStream (stream : ChainStream Words UInt8) {bits : ℕ} (h : bits < 2 ^ 64) :
    (ofStream stream bits).bits = bits := by
  simp only [ofStream, Sha256Ctx.bits, UInt32.toNat_ofNat']
  omega

/-- The implementation is as documented. -/
theorem sha256_documented : sha256.Documented compress initialWords := by
  have hbuffer : ∀ ctx : Sha256Ctx, ctx.num < 64 →
      ctx.stream.pending.length < (blocksOf compress).blockSize :=
    fun ctx hnum ↦ (List.length_take_le _ _).trans_lt hnum
  constructor
  case init_stream => exact stream_ofStream 0 (by decide)
  case init_bits => exact bits_ofStream _ (by decide)
  case update_stream =>
    intro ctx bytes hnum
    refine (stream_ofStream _ ?_).trans ?_
    · exact (blocksOf compress).length_pending_absorb_lt bytes (hbuffer ctx hnum)
    · exact (blocksOf compress).absorb_eq_hashBlocks ctx.h bytes (hbuffer ctx hnum)
  case update_bits => exact fun ctx bytes _ hbits ↦ bits_ofStream _ hbits
  case final_eq =>
    intro ctx hnum
    refine congrArg (fun stream : ChainStream Words UInt8 ↦ digest stream.chain) ?_
    exact (blocksOf compress).absorb_eq_hashBlocks ctx.h _ (hbuffer ctx hnum)

end DailyChallenge.LengthExtension
