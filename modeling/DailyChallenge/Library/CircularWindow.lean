import Mathlib

/-!
# A window of a circular array

`window cells capacity start count` reads `count` cells one after the other from `start`, where the
index wraps to zero at `capacity`. A window grows at its end by the next cell (`window_succ_end`)
and shrinks at its start by the first (`window_succ_start`), and a write to the cell after its end
leaves it alone as long as it does not fill the array (`window_update_end`). `windowIndices` are the
indices it reads: different ones for different cells as long as the window fits the array
(`index_injOn`), so the end of a window that is not full is new to it and its start is not in the
rest.
-/

set_option autoImplicit false
set_option relaxedAutoImplicit false

namespace DailyChallenge.Library

variable {α : Type*}

/-- The cells read one after the other from `start`, with indices modulo `capacity`. -/
def window (cells : ℕ → α) (capacity start count : ℕ) : List α :=
  (List.range count).map fun i ↦ cells ((start + i) % capacity)

/-- One more cell at the end. -/
theorem window_succ_end (cells : ℕ → α) (capacity start count : ℕ) :
    window cells capacity start (count + 1) =
      window cells capacity start count ++ [cells ((start + count) % capacity)] := by
  rw [window, List.range_succ, List.map_append]
  rfl

/-- One cell fewer at the start. -/
theorem window_succ_start (cells : ℕ → α) (capacity start count : ℕ) :
    window cells capacity start (count + 1) =
      cells (start % capacity) :: window cells capacity ((start + 1) % capacity) count := by
  rw [window, List.range_succ_eq_map, List.map_cons, List.map_map, window]
  congr 1
  apply List.map_congr_left
  intro i _
  show cells ((start + (i + 1)) % capacity) = _
  rw [Nat.mod_add_mod, add_assoc, add_comm 1 i]

/-- Fewer cells than there are have different indices, wherever they start. -/
theorem index_injOn (capacity start : ℕ) :
    Set.InjOn (fun i ↦ (start + i) % capacity) (Set.Iio capacity) := by
  intro i hi j hj hsame
  have hmod : i % capacity = j % capacity := Nat.ModEq.add_left_cancel' start hsame
  rwa [Nat.mod_eq_of_lt hi, Nat.mod_eq_of_lt hj] at hmod

/-- The cell after the end is none of the window's as long as the window is not full. -/
theorem window_update_end (cells : ℕ → α) {capacity start count : ℕ} (h : count < capacity)
    (cell : α) :
    window (Function.update cells ((start + count) % capacity) cell) capacity start count =
      window cells capacity start count := by
  apply List.map_congr_left
  intro i hi
  have hlt : i < count := List.mem_range.mp hi
  apply Function.update_of_ne
  intro hsame
  exact hlt.ne (index_injOn capacity start (hlt.trans h) h hsame)

/-! ### Indices -/

/-- The indices of the cells of a window. -/
def windowIndices (capacity start count : ℕ) : Finset ℕ :=
  (Finset.range count).image fun i ↦ (start + i) % capacity

theorem mem_windowIndices {capacity start count index : ℕ} :
    index ∈ windowIndices capacity start count ↔ ∃ i < count, (start + i) % capacity = index := by
  simp [windowIndices]

/-- One more index at the end. -/
theorem windowIndices_succ_end (capacity start count : ℕ) :
    windowIndices capacity start (count + 1) =
      insert ((start + count) % capacity) (windowIndices capacity start count) := by
  rw [windowIndices, Finset.range_add_one, Finset.image_insert]
  rfl

/-- The end of a window that is not full is none of its indices. -/
theorem end_notMem_windowIndices {capacity start count : ℕ} (h : count < capacity) :
    (start + count) % capacity ∉ windowIndices capacity start count := by
  intro hmem
  obtain ⟨i, hi, hsame⟩ := mem_windowIndices.mp hmem
  exact hi.ne (index_injOn capacity start (hi.trans h) h hsame)

/-- One index fewer at the start. -/
theorem windowIndices_succ_start {capacity start count : ℕ} (hstart : start < capacity)
    (h : count < capacity) :
    (windowIndices capacity start (count + 1)).erase start =
      windowIndices capacity ((start + 1) % capacity) count := by
  ext index
  rw [Finset.mem_erase, mem_windowIndices, mem_windowIndices, Nat.exists_lt_succ_left]
  have hshift : ∀ i, ((start + 1) % capacity + i) % capacity = (start + (i + 1)) % capacity := by
    intro i
    rw [Nat.mod_add_mod, add_assoc, add_comm 1 i]
  simp only [hshift, add_zero, Nat.mod_eq_of_lt hstart]
  constructor
  · rintro ⟨hne, hfirst | hrest⟩
    · exact absurd hfirst.symm hne
    · exact hrest
  · rintro ⟨i, hi, rfl⟩
    refine ⟨fun hsame ↦ ?_, Or.inr ⟨i, hi, rfl⟩⟩
    have hzero : (start + (i + 1)) % capacity = (start + 0) % capacity := by
      rw [hsame, add_zero, Nat.mod_eq_of_lt hstart]
    have hinj := index_injOn capacity start (show i + 1 < capacity by omega)
      (Nat.zero_lt_of_lt h) hzero
    exact absurd hinj (Nat.succ_ne_zero i)

end DailyChallenge.Library
