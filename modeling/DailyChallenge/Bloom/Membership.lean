import Mathlib
import DailyChallenge.Library.ProbeSets
import DailyChallenge.Bloom.Filter

/-!
# What a Bloom filter answers

The bits that are set are the positions marked for the inserted keys, so a filter reports the keys
whose probes are all marked. The order of the inserts and their repetitions leave no trace in the
bits, and inserting a key that is already reported changes nothing but the count.
-/

set_option autoImplicit false
set_option relaxedAutoImplicit false

namespace DailyChallenge.Bloom

open Library

variable {shape : Shape}

/-- The bits that a key probes. -/
def Shape.probes (shape : Shape) (key : Bytes) : Set (Fin shape.m.toNat) :=
  {position | ∃ i < shape.k, shape.slot key i = position}

/-- The bits of a filter are the positions marked for some keys. -/
def BloomFilter.Summarises (filter : BloomFilter shape) (keys : Set Bytes) : Prop :=
  ∀ position, filter.bits.get position = true ↔ position ∈ marked shape.probes keys

/-! ### The loops -/

/-- Words below a bound, counted by a natural number. -/
theorem exists_ofNat_iff (bound : UInt64) (property : UInt64 → Prop) :
    (∃ j < bound.toNat, property (UInt64.ofNat j)) ↔ ∃ i < bound, property i := by
  constructor
  · rintro ⟨j, hj, h⟩
    refine ⟨UInt64.ofNat j, ?_, h⟩
    have hbound := bound.toNat_lt
    rw [UInt64.lt_iff_toNat_lt, UInt64.toNat_ofNat_of_lt' (hj.trans hbound)]
    exact hj
  · rintro ⟨i, hi, h⟩
    refine ⟨i.toNat, UInt64.lt_iff_toNat_lt.mp hi, ?_⟩
    rwa [UInt64.ofNat_toNat]

/-- The next probe after `i`, counted from `i` or from its successor. -/
theorem ofNat_succ_add (i : UInt64) (j : ℕ) :
    i + UInt64.ofNat (j + 1) = i + 1 + UInt64.ofNat j := by
  rw [UInt64.ofNat_add, add_comm (UInt64.ofNat j), ← add_assoc]
  rfl

/-- A property of the first of some rounds or of a later one. -/
theorem exists_lt_succ_probe {rounds : ℕ} {i : UInt64} {property : UInt64 → Prop} :
    (∃ j < rounds + 1, property (i + UInt64.ofNat j)) ↔
      property i ∨ ∃ j < rounds, property (i + 1 + UInt64.ofNat j) := by
  rw [Nat.exists_lt_succ_left]
  simp only [ofNat_succ_add]
  simp

/-- The rounds of `insert` set the bits they probe and leave the others. -/
theorem get_insertLoop (key : Bytes) (rounds : ℕ) (i : UInt64)
    (bits : Vector Bool shape.m.toNat) (position : Fin shape.m.toNat) :
    (insertLoop key rounds i bits).get position = true ↔
      bits.get position = true ∨
        ∃ j < rounds, shape.slot key (i + UInt64.ofNat j) = position := by
  induction rounds generalizing i bits with
  | zero => simp [insertLoop]
  | succ rounds ih =>
    rw [insertLoop, ih, @exists_lt_succ_probe rounds i (fun i ↦ shape.slot key i = position),
      ← or_assoc]
    refine or_congr_left ?_
    rw [Vector.get_eq_getElem, Vector.get_eq_getElem, Vector.getElem_set, Fin.ext_iff]
    by_cases hslot : (shape.slot key i : ℕ) = position
    · simp [hslot]
    · simp [hslot]

/-- The rounds of `contains` succeed when every bit they probe is set. -/
theorem containsLoop_eq_true (bits : Vector Bool shape.m.toNat) (key : Bytes) (rounds : ℕ)
    (i : UInt64) :
    containsLoop bits key rounds i = true ↔
      ¬ ∃ j < rounds, bits.get (shape.slot key (i + UInt64.ofNat j)) = false := by
  induction rounds generalizing i with
  | zero => simp [containsLoop]
  | succ rounds ih =>
    rw [containsLoop,
      @exists_lt_succ_probe rounds i (fun i ↦ bits.get (shape.slot key i) = false), not_or, ← ih]
    by_cases hbit : bits.get (shape.slot key i) = false
    · simp [hbit]
    · simp [hbit]

/-! ### Inserting -/

/-- `insert` sets the bits that the key probes. -/
theorem BloomFilter.get_insert (filter : BloomFilter shape) (key : Bytes)
    (position : Fin shape.m.toNat) :
    (filter.insert key).bits.get position = true ↔
      filter.bits.get position = true ∨ position ∈ shape.probes key := by
  unfold BloomFilter.insert
  rw [get_insertLoop]
  simp only [zero_add]
  rw [exists_ofNat_iff shape.k (fun i ↦ shape.slot key i = position)]
  rfl

/-- `contains` asks whether every bit that the key probes is set. -/
theorem BloomFilter.contains_eq_true (filter : BloomFilter shape) (key : Bytes) :
    filter.contains key = true ↔
      ∀ position ∈ shape.probes key, filter.bits.get position = true := by
  unfold BloomFilter.contains
  rw [containsLoop_eq_true]
  simp only [zero_add]
  rw [exists_ofNat_iff shape.k (fun i ↦ filter.bits.get (shape.slot key i) = false)]
  constructor
  · intro hset position hposition
    obtain ⟨i, hi, rfl⟩ := hposition
    by_contra hclear
    exact hset ⟨i, hi, Bool.eq_false_of_not_eq_true hclear⟩
  · intro hset hclear
    obtain ⟨i, hi, hclear⟩ := hclear
    rw [hset _ ⟨i, hi, rfl⟩] at hclear
    exact Bool.true_eq_false_eq_False hclear

/-- A new filter summarises no keys. -/
theorem BloomFilter.summarises_new (shape : Shape) :
    (BloomFilter.new shape).Summarises ∅ := by
  intro position
  simp [BloomFilter.new, Vector.get_eq_getElem, mem_marked]

/-- `insert` adds the key to the summarised keys. -/
theorem BloomFilter.Summarises.insert {filter : BloomFilter shape} {keys : Set Bytes}
    (h : filter.Summarises keys) (key : Bytes) :
    (filter.insert key).Summarises (Insert.insert key keys) := by
  intro position
  rw [filter.get_insert, h position, marked_insert]
  rfl

/-- A run of inserts adds its keys to the summarised keys. -/
theorem BloomFilter.Summarises.insertAll {filter : BloomFilter shape} {keys : Set Bytes}
    (h : filter.Summarises keys) (inserts : List Bytes) :
    (filter.insertAll inserts).Summarises ({key | key ∈ inserts} ∪ keys) := by
  induction inserts generalizing filter keys with
  | nil => simpa [BloomFilter.insertAll] using h
  | cons key rest ih =>
    have hrest := ih (h.insert key)
    have hkeys : {other | other ∈ rest} ∪ Insert.insert key keys =
        {other | other ∈ key :: rest} ∪ keys := by
      ext other
      simp only [Set.mem_union, Set.mem_ofPred_eq, Set.mem_insert_iff, List.mem_cons]
      tauto
    rwa [hkeys] at hrest

/-- The filter that the constructor leaves, after some inserts. -/
theorem summarises_insertAll_new (shape : Shape) (inserts : List Bytes) :
    ((BloomFilter.new shape).insertAll inserts).Summarises {key | key ∈ inserts} := by
  have h := (BloomFilter.summarises_new shape).insertAll inserts
  rwa [Set.union_empty] at h

/-! ### Answers -/

/-- A filter reports the keys whose probes are all marked for the summarised keys. -/
theorem BloomFilter.Summarises.contains_iff {filter : BloomFilter shape} {keys : Set Bytes}
    (h : filter.Summarises keys) (query : Bytes) :
    filter.contains query = true ↔ query ∈ reported shape.probes keys := by
  rw [filter.contains_eq_true, mem_reported]
  exact forall₂_congr fun position _ ↦ h position

/-- Two filters for the same keys have the same bits. -/
theorem BloomFilter.Summarises.bits_eq {first second : BloomFilter shape} {keys : Set Bytes}
    (hfirst : first.Summarises keys) (hsecond : second.Summarises keys) :
    first.bits = second.bits := by
  ext index hindex
  have hiff : first.bits.get ⟨index, hindex⟩ = true ↔ second.bits.get ⟨index, hindex⟩ = true :=
    (hfirst _).trans (hsecond _).symm
  exact Bool.eq_iff_iff.mpr hiff

/-- Inserting a key that is already reported changes nothing but the count. -/
theorem bits_insert_of_contains (inserts : List Bytes) (key : Bytes)
    (h : ((BloomFilter.new shape).insertAll inserts).contains key = true) :
    (((BloomFilter.new shape).insertAll inserts).insert key).bits =
      ((BloomFilter.new shape).insertAll inserts).bits := by
  have hbefore := summarises_insertAll_new shape inserts
  have hreported := (hbefore.contains_iff key).mp h
  have hafter : (((BloomFilter.new shape).insertAll inserts).insert key).Summarises
      {key | key ∈ inserts} := by
    intro position
    rw [(hbefore.insert key) position, marked_insert_of_mem_reported hreported]
  exact hafter.bits_eq hbefore

/-- `insert_count` counts the inserts, modulo the word size. -/
theorem insertCount_insertAll (filter : BloomFilter shape) (inserts : List Bytes) :
    (filter.insertAll inserts).insertCount =
      filter.insertCount + UInt64.ofNat inserts.length := by
  induction inserts generalizing filter with
  | nil => exact (add_zero _).symm
  | cons key rest ih =>
    show ((filter.insert key).insertAll rest).insertCount = _
    rw [ih, List.length_cons, ofNat_succ_add]
    rfl

/-- A query is reported exactly when each of its probes is a probe of an inserted key. Inserted keys
stay reported, every probe is an index into the bits, and only the set of inserted keys matters. -/
theorem contains_iff_probes_inserted (shape : Shape) (inserts : List Bytes) :
    (∀ query, ((BloomFilter.new shape).insertAll inserts).contains query = true ↔
      ∀ i < shape.k, ∃ key ∈ inserts, ∃ j < shape.k, shape.hashI query i = shape.hashI key j) ∧
    (∀ key ∈ inserts, ∀ later,
      ((BloomFilter.new shape).insertAll (inserts ++ later)).contains key = true) ∧
    (∀ key i, shape.hashI key i < shape.m) ∧
    (∀ others : List Bytes, (∀ key, key ∈ others ↔ key ∈ inserts) → ∀ query,
      ((BloomFilter.new shape).insertAll others).contains query =
        ((BloomFilter.new shape).insertAll inserts).contains query) := by
  refine ⟨?_, ?_, shape.hashI_lt, ?_⟩
  · intro query
    rw [(summarises_insertAll_new shape inserts).contains_iff, mem_reported]
    constructor
    · intro hprobes i hi
      obtain ⟨key, hkey, j, hj, hslot⟩ := mem_marked.mp (hprobes ⟨i, hi, rfl⟩)
      refine ⟨key, hkey, j, hj, ?_⟩
      exact UInt64.toNat_inj.mp (Fin.ext_iff.mp hslot).symm
    · intro hprobes position hposition
      obtain ⟨i, hi, rfl⟩ := hposition
      obtain ⟨key, hkey, j, hj, hindex⟩ := hprobes i hi
      refine mem_marked.mpr ⟨key, hkey, j, hj, ?_⟩
      exact Fin.ext (congrArg UInt64.toNat hindex.symm)
  · intro key hkey later
    rw [(summarises_insertAll_new shape (inserts ++ later)).contains_iff]
    apply subset_reported
    exact List.mem_append_left later hkey
  · intro others hsame query
    have hkeys : {key | key ∈ others} = {key | key ∈ inserts} := Set.ext hsame
    have hothers := summarises_insertAll_new shape others
    rw [hkeys] at hothers
    have hbits := hothers.bits_eq (summarises_insertAll_new shape inserts)
    unfold BloomFilter.contains
    rw [hbits]

end DailyChallenge.Bloom
