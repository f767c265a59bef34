import Mathlib
import DailyChallenge.Library.ByteCodec

/-!
# The Bloom filter of `bloom.h`

`k_` probe positions for a key come from two hashes of its bytes, `a + i * b` in 64-bit words
reduced modulo `m_`. `insert` sets the bit at each of them and `contains` reads them in order and
stops at the first clear bit.

The constructor computes `m_` and `k_` in floating point. Here they are given, with what the class
needs of them: there is a bit to address and there is a probe.
-/

set_option autoImplicit false
set_option relaxedAutoImplicit false

namespace DailyChallenge.Bloom

open Library

/-! ### Hashing -/

def fnv1a64 (s : Bytes) : UInt64 :=
  s.foldl (fun hash c ↦ (hash ^^^ c.toUInt64) * 1099511628211) 14695981039346656037

def djb264 (s : Bytes) : UInt64 :=
  s.foldl (fun hash c ↦ ((hash <<< 5) + hash) ^^^ c.toUInt64) 5381

/-- The finalizer of `hash_i`, with the multiplier of one of the two hashes. -/
def finalize (multiplier word : UInt64) : UInt64 :=
  let shifted := word ^^^ (word >>> 33)
  let multiplied := shifted * multiplier
  multiplied ^^^ (multiplied >>> 33)

/-- The first mixed hash of a key, `a` in `hash_i`. -/
def mixedA (key : Bytes) : UInt64 := finalize 0xff51afd7ed558ccd (fnv1a64 key)

/-- The second mixed hash of a key, `b` in `hash_i`. -/
def mixedB (key : Bytes) : UInt64 := finalize 0xc4ceb9fe1a85ec53 (djb264 key)

/-- The number of bits and the number of probes of a filter. -/
structure Shape where
  m : UInt64
  k : UInt64
  one_le_m : 1 ≤ m
  one_le_k : 1 ≤ k

variable {shape : Shape}

def Shape.hashI (shape : Shape) (key : Bytes) (i : UInt64) : UInt64 :=
  (mixedA key + i * mixedB key) % shape.m

/-- Every probe addresses a bit of the filter. -/
theorem Shape.hashI_lt (shape : Shape) (key : Bytes) (i : UInt64) :
    shape.hashI key i < shape.m := by
  apply UInt64.mod_lt
  exact UInt64.lt_of_lt_of_le (by decide) shape.one_le_m

/-- A probe as an index into the bits. -/
def Shape.slot (shape : Shape) (key : Bytes) (i : UInt64) : Fin shape.m.toNat :=
  ⟨(shape.hashI key i).toNat, UInt64.lt_iff_toNat_lt.mp (shape.hashI_lt key i)⟩

/-! ### The filter -/

structure BloomFilter (shape : Shape) where
  nInserted : UInt64
  bits : Vector Bool shape.m.toNat

/-- The filter that the constructor leaves: all bits clear and nothing inserted. -/
def BloomFilter.new (shape : Shape) : BloomFilter shape :=
  ⟨0, Vector.replicate shape.m.toNat false⟩

def BloomFilter.bitCount (_ : BloomFilter shape) : UInt64 := shape.m

def BloomFilter.hashCount (_ : BloomFilter shape) : UInt64 := shape.k

def BloomFilter.insertCount (filter : BloomFilter shape) : UInt64 := filter.nInserted

/-- The loop of `insert` with some rounds left, the next of them for probe `i`. -/
def insertLoop (key : Bytes) : ℕ → UInt64 → Vector Bool shape.m.toNat → Vector Bool shape.m.toNat
  | 0, _, bits => bits
  | rounds + 1, i, bits =>
    insertLoop key rounds (i + 1) (bits.set (shape.slot key i) true (shape.slot key i).isLt)

def BloomFilter.insert (filter : BloomFilter shape) (key : Bytes) : BloomFilter shape :=
  { nInserted := filter.nInserted + 1
    bits := insertLoop key shape.k.toNat 0 filter.bits }

/-- The loop of `contains` with some rounds left, the next of them for probe `i`. -/
def containsLoop (bits : Vector Bool shape.m.toNat) (key : Bytes) : ℕ → UInt64 → Bool
  | 0, _ => true
  | rounds + 1, i =>
    if bits.get (shape.slot key i) = false then false else containsLoop bits key rounds (i + 1)

def BloomFilter.contains (filter : BloomFilter shape) (key : Bytes) : Bool :=
  containsLoop filter.bits key shape.k.toNat 0

/-- A filter after some keys have been inserted, the first key of the list first. -/
def BloomFilter.insertAll (filter : BloomFilter shape) (keys : List Bytes) : BloomFilter shape :=
  keys.foldl BloomFilter.insert filter

end DailyChallenge.Bloom
