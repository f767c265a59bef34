import Mathlib
import DailyChallenge.Lsm.Store

/-!
# What the store is for

The reference is a buffered map over any type of keys and values: a durable map and a volatile one,
both from keys to marks, a value or a deletion. Writes go to the volatile map; as soon as it holds
four keys all its entries overwrite the durable map and it becomes empty. A restart empties it. A
lookup consults the volatile map first. The reference counts its flushes, so that a bound on them
is a condition on the history alone.
-/

set_option autoImplicit false
set_option relaxedAutoImplicit false

namespace DailyChallenge.Lsm

/-- A durable and a volatile map from keys to marks; `none` as a mark is a deletion. -/
structure Reference (Key Value : Type*) where
  durable : Finmap fun _ : Key ↦ Option Value
  volatile : Finmap fun _ : Key ↦ Option Value
  flushes : ℕ

namespace Reference

variable {Key Value : Type*}

/-- Nothing stored. -/
def empty : Reference Key Value := ⟨∅, ∅, 0⟩

/-- The volatile map is lost. -/
def restart (reference : Reference Key Value) : Reference Key Value :=
  { reference with volatile := ∅ }

variable [DecidableEq Key]

/-- All entries of the volatile map overwrite the durable map. -/
def flush (reference : Reference Key Value) : Reference Key Value :=
  ⟨reference.volatile ∪ reference.durable, ∅, reference.flushes + 1⟩

/-- A mark is written to the volatile map, which is flushed as soon as it holds four keys. -/
def write (reference : Reference Key Value) (key : Key) (mark : Option Value) :
    Reference Key Value :=
  let written := { reference with volatile := reference.volatile.insert key mark }
  if 4 ≤ written.volatile.keys.card then written.flush else written

/-- The volatile mark of a key, then the durable one; a deletion and no mark read alike. -/
def get (reference : Reference Key Value) (key : Key) : Option Value :=
  ((reference.volatile.lookup key).or (reference.durable.lookup key)).join

/-- The durable mark of a key after a flush is the volatile one, if there is one. -/
theorem lookup_durable_flush (reference : Reference Key Value) (key : Key) :
    reference.flush.durable.lookup key =
      (reference.volatile.lookup key).or (reference.durable.lookup key) := by
  by_cases hmem : key ∈ reference.volatile
  · obtain ⟨mark, hmark⟩ := Finmap.mem_iff.mp hmem
    rw [flush, Finmap.lookup_union_left hmem, hmark]
    rfl
  · rw [flush, Finmap.lookup_union_right hmem, Finmap.lookup_eq_none.mpr hmem]
    rfl

/-- A flush changes no answer. -/
theorem get_flush (reference : Reference Key Value) (key : Key) :
    reference.flush.get key = reference.get key := by
  rw [get, lookup_durable_flush]
  rfl

/-- After a write the key reads as its mark, and every other key as before. -/
theorem get_write (reference : Reference Key Value) (key other : Key) (mark : Option Value) :
    (reference.write key mark).get other = if other = key then mark else reference.get other := by
  have hinsert : ({ reference with volatile := reference.volatile.insert key mark } :
      Reference Key Value).get other = if other = key then mark else reference.get other := by
    split_ifs with hkey
    · rw [hkey, get, Finmap.lookup_insert]
      rfl
    · rw [get, Finmap.lookup_insert_of_ne _ hkey]
      rfl
  unfold write
  dsimp only
  split_ifs at hinsert ⊢ with hcard
  · rw [get_flush, hinsert]
  · rw [get_flush, hinsert]
  · exact hinsert
  · exact hinsert

end Reference

/-- The reference on an operation of the store. -/
def Reference.step (reference : Reference Library.Bytes Library.Bytes) :
    Op → Reference Library.Bytes Library.Bytes
  | .put key value => reference.write key (some value)
  | .del key => reference.write key none
  | .restart => reference.restart

/-- The reference after a history. -/
def referenceAfter (history : List Op) : Reference Library.Bytes Library.Bytes :=
  history.foldl Reference.step .empty

theorem referenceAfter_append (history : List Op) (op : Op) :
    referenceAfter (history ++ [op]) = (referenceAfter history).step op := by
  rw [referenceAfter, referenceAfter, List.foldl_append]
  rfl

end DailyChallenge.Lsm
