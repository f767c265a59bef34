import Mathlib
import DailyChallenge.Library.Aead
import DailyChallenge.Library.ByteMemory

/-!
# AES-128-GCM

The block cipher with a 16-byte key, counter mode behind a 12-byte IV, and the tag over the
associated data and the ciphertext: the `Aead` that OpenSSL computes with `EVP_aes_128_gcm`.
-/

set_option autoImplicit false
set_option relaxedAutoImplicit false

namespace DailyChallenge.AesGcm

open Library

/-! ### The block cipher -/

/-- The substitution of bytes, in rows by the four high bits. -/
def sbox : List (List UInt8) := [
  [0x63, 0x7c, 0x77, 0x7b, 0xf2, 0x6b, 0x6f, 0xc5, 0x30, 0x01, 0x67, 0x2b, 0xfe, 0xd7, 0xab, 0x76],
  [0xca, 0x82, 0xc9, 0x7d, 0xfa, 0x59, 0x47, 0xf0, 0xad, 0xd4, 0xa2, 0xaf, 0x9c, 0xa4, 0x72, 0xc0],
  [0xb7, 0xfd, 0x93, 0x26, 0x36, 0x3f, 0xf7, 0xcc, 0x34, 0xa5, 0xe5, 0xf1, 0x71, 0xd8, 0x31, 0x15],
  [0x04, 0xc7, 0x23, 0xc3, 0x18, 0x96, 0x05, 0x9a, 0x07, 0x12, 0x80, 0xe2, 0xeb, 0x27, 0xb2, 0x75],
  [0x09, 0x83, 0x2c, 0x1a, 0x1b, 0x6e, 0x5a, 0xa0, 0x52, 0x3b, 0xd6, 0xb3, 0x29, 0xe3, 0x2f, 0x84],
  [0x53, 0xd1, 0x00, 0xed, 0x20, 0xfc, 0xb1, 0x5b, 0x6a, 0xcb, 0xbe, 0x39, 0x4a, 0x4c, 0x58, 0xcf],
  [0xd0, 0xef, 0xaa, 0xfb, 0x43, 0x4d, 0x33, 0x85, 0x45, 0xf9, 0x02, 0x7f, 0x50, 0x3c, 0x9f, 0xa8],
  [0x51, 0xa3, 0x40, 0x8f, 0x92, 0x9d, 0x38, 0xf5, 0xbc, 0xb6, 0xda, 0x21, 0x10, 0xff, 0xf3, 0xd2],
  [0xcd, 0x0c, 0x13, 0xec, 0x5f, 0x97, 0x44, 0x17, 0xc4, 0xa7, 0x7e, 0x3d, 0x64, 0x5d, 0x19, 0x73],
  [0x60, 0x81, 0x4f, 0xdc, 0x22, 0x2a, 0x90, 0x88, 0x46, 0xee, 0xb8, 0x14, 0xde, 0x5e, 0x0b, 0xdb],
  [0xe0, 0x32, 0x3a, 0x0a, 0x49, 0x06, 0x24, 0x5c, 0xc2, 0xd3, 0xac, 0x62, 0x91, 0x95, 0xe4, 0x79],
  [0xe7, 0xc8, 0x37, 0x6d, 0x8d, 0xd5, 0x4e, 0xa9, 0x6c, 0x56, 0xf4, 0xea, 0x65, 0x7a, 0xae, 0x08],
  [0xba, 0x78, 0x25, 0x2e, 0x1c, 0xa6, 0xb4, 0xc6, 0xe8, 0xdd, 0x74, 0x1f, 0x4b, 0xbd, 0x8b, 0x8a],
  [0x70, 0x3e, 0xb5, 0x66, 0x48, 0x03, 0xf6, 0x0e, 0x61, 0x35, 0x57, 0xb9, 0x86, 0xc1, 0x1d, 0x9e],
  [0xe1, 0xf8, 0x98, 0x11, 0x69, 0xd9, 0x8e, 0x94, 0x9b, 0x1e, 0x87, 0xe9, 0xce, 0x55, 0x28, 0xdf],
  [0x8c, 0xa1, 0x89, 0x0d, 0xbf, 0xe6, 0x42, 0x68, 0x41, 0x99, 0x2d, 0x0f, 0xb0, 0x54, 0xbb, 0x16]]

def subByte (byte : UInt8) : UInt8 := (sbox.getD (byte.toNat / 16) []).getD (byte.toNat % 16) 0

def subBytes (bytes : Bytes) : Bytes := bytes.map subByte

def xorBytes (first second : Bytes) : Bytes := List.zipWith (· ^^^ ·) first second

/-- A block by columns, with each row rotated by its index. -/
def shiftRows (block : Bytes) : Bytes :=
  [0, 5, 10, 15, 4, 9, 14, 3, 8, 13, 2, 7, 12, 1, 6, 11].map fun i ↦ block.getD i 0

/-- A byte times two in the field of AES. -/
def double (byte : UInt8) : UInt8 :=
  if byte < 0x80 then byte <<< 1 else byte <<< 1 ^^^ 0x1b

def mixColumn (a b c d : UInt8) : Bytes :=
  [double (a ^^^ b) ^^^ b ^^^ c ^^^ d, double (b ^^^ c) ^^^ c ^^^ d ^^^ a,
    double (c ^^^ d) ^^^ d ^^^ a ^^^ b, double (d ^^^ a) ^^^ a ^^^ b ^^^ c]

def mixColumns : Bytes → Bytes
  | a :: b :: c :: d :: rest => mixColumn a b c d ++ mixColumns rest
  | _ => []

/-- The next round key from a round key and its round constant. -/
def nextRoundKey (key : Bytes) (constant : UInt8) : Bytes :=
  let rotated := subBytes (key.drop 13 ++ (key.drop 12).take 1)
  let first := xorBytes (xorBytes (key.take 4) rotated) [constant, 0, 0, 0]
  let second := xorBytes ((key.drop 4).take 4) first
  let third := xorBytes ((key.drop 8).take 4) second
  first ++ second ++ third ++ xorBytes (key.drop 12) third

/-- The rounds over the constants. The last one does not mix the columns. -/
def aesRounds : List UInt8 → (key block : Bytes) → Bytes
  | [], _, block => block
  | [constant], key, block =>
    xorBytes (shiftRows (subBytes block)) (nextRoundKey key constant)
  | constant :: constants, key, block =>
    let next := nextRoundKey key constant
    aesRounds constants next (xorBytes (mixColumns (shiftRows (subBytes block))) next)

/-- AES-128 on a block. -/
def aes128 (key block : Bytes) : Bytes :=
  aesRounds [0x01, 0x02, 0x04, 0x08, 0x10, 0x20, 0x40, 0x80, 0x1b, 0x36] key (xorBytes block key)

/-! ### Counter mode and the tag -/

/-- The encrypted counter block of an IV. -/
def counterBlock (key iv : Bytes) (counter : ℕ) : Bytes := aes128 key (iv ++ bigEndian 4 counter)

/-- The number that bytes are, most significant first. -/
def ofBigEndian (bytes : Bytes) : ℕ := ofLittleEndian bytes.reverse

/-- The product in the field of GCM, where the most significant bit stands for 1: the sum so far,
the other factor times a power, and so many bits of the factor left. -/
def gcmMul (factor : ℕ) : ℕ → (power sum : ℕ) → ℕ
  | 0, _, sum => sum
  | bits + 1, power, sum =>
    gcmMul factor bits (if power.testBit 0 then power >>> 1 ^^^ 0xe1 <<< 120 else power >>> 1)
      (if factor.testBit bits then sum ^^^ power else sum)

/-- The bytes in blocks of 16, the last filled with zeros, as numbers. -/
def gcmBlocks (bytes : Bytes) : List ℕ :=
  (List.range ((bytes.length + 15) / 16)).map fun i ↦
    ofBigEndian ((bytes.drop (16 * i) ++ List.replicate 16 0).take 16)

/-- The hash of blocks under a hash key. -/
def ghash (hashKey : ℕ) (blocks : List ℕ) : ℕ :=
  blocks.foldl (fun sum block ↦ gcmMul (sum ^^^ block) 128 hashKey 0) 0

/-- AES-128-GCM with an IV of 12 bytes. -/
def aes128Gcm : Aead Bytes Bytes where
  keystream key iv i := (counterBlock key iv (i / 16 + 2)).getD (i % 16) 0
  tag key iv aad ciphertext :=
    let lengths := bigEndian 8 (8 * aad.length) ++ bigEndian 8 (8 * ciphertext.length)
    let sum := ghash (ofBigEndian (aes128 key (List.replicate 16 0)))
      (gcmBlocks aad ++ gcmBlocks ciphertext ++ gcmBlocks lengths)
    bigEndian 16 (ofBigEndian (counterBlock key iv 1) ^^^ sum)

/-- What sixteen zero bytes are encrypted to under the zero key and IV, and their tag. -/
example : counterBlock (List.replicate 16 0) (List.replicate 12 0) 2 =
    [0x03, 0x88, 0xda, 0xce, 0x60, 0xb6, 0xa3, 0x92, 0xf3, 0x28, 0xc2, 0xb9, 0x71, 0xb2, 0xfe,
      0x78] := by
  decide +kernel

example : aes128Gcm.tag (List.replicate 16 0) (List.replicate 12 0) []
    (counterBlock (List.replicate 16 0) (List.replicate 12 0) 2) =
    [0xab, 0x6e, 0x47, 0xd4, 0x2c, 0xec, 0x13, 0xbd, 0xf5, 0x3a, 0x67, 0xb2, 0x12, 0x57, 0xbd,
      0xdf] := by
  decide +kernel

end DailyChallenge.AesGcm
