import Mathlib

/-!
# Sets of keys summarised by probe positions

Every key has a set of probe positions. A set of keys is summarised by the positions it marks, and a
set of positions covers the keys whose probes all lie in it. The two are adjoint
(`marked_subset_iff`), so the keys that a summary reports are a closure of the summarised keys: the
keys themselves are among them, more keys report more, and adding a reported key marks nothing new.
-/

set_option autoImplicit false
set_option relaxedAutoImplicit false

namespace DailyChallenge.Library

section

variable {Key Position : Type*} (probes : Key → Set Position)

/-- The positions that some key of a set probes. -/
def marked (keys : Set Key) : Set Position := ⋃ key ∈ keys, probes key

/-- The keys that probe nothing outside some positions. -/
def covered (positions : Set Position) : Set Key := {key | probes key ⊆ positions}

/-- The keys that the positions marked for a set of keys report. -/
def reported (keys : Set Key) : Set Key := covered probes (marked probes keys)

variable {probes}

theorem mem_marked {keys : Set Key} {position : Position} :
    position ∈ marked probes keys ↔ ∃ key ∈ keys, position ∈ probes key := by
  simp only [marked, Set.mem_iUnion, exists_prop]

theorem mem_reported {keys : Set Key} {query : Key} :
    query ∈ reported probes keys ↔ probes query ⊆ marked probes keys := Iff.rfl

/-- Marking is adjoint to covering. -/
theorem marked_subset_iff {keys : Set Key} {positions : Set Position} :
    marked probes keys ⊆ positions ↔ keys ⊆ covered probes positions := by
  unfold marked
  exact Set.iUnion₂_subset_iff

/-- Every key of the set is reported. -/
theorem subset_reported (keys : Set Key) : keys ⊆ reported probes keys :=
  marked_subset_iff.mp Set.Subset.rfl

/-- Marking one more key adds its probes. -/
theorem marked_insert (key : Key) (keys : Set Key) :
    marked probes (insert key keys) = marked probes keys ∪ probes key := by
  unfold marked
  rw [Set.biUnion_insert, Set.union_comm]

/-- A key that is reported marks nothing new. -/
theorem marked_insert_of_mem_reported {key : Key} {keys : Set Key}
    (h : key ∈ reported probes keys) :
    marked probes (insert key keys) = marked probes keys := by
  rw [marked_insert]
  exact Set.union_eq_left.mpr h

end

end DailyChallenge.Library
