import Mathlib
import DailyChallenge.HeapRingBuffer.Refinement

/-!
# What becomes of the values

`Accounted` says that after a history of calls and the drop of the buffer, every value a push
accepted was returned by a pop or destroyed by the drop, exactly once. The loop of `drop` visits
every live slot once, in order (`dropElements_value`), but it drops through a pointer to
`MaybeUninit<T>`, so it destroys nothing (`Holds.drop`), and the values still held are leaked:
`accounted_iff`.
-/

set_option autoImplicit false
set_option relaxedAutoImplicit false

namespace DailyChallenge.HeapRingBuffer

open Library

variable {T : Type*} {capacity : ℕ} {buffer : RingBuffer T} {items : List T}

/-- The values accepted along a history are, each as often, those returned by pops and those
destroyed by the drop of the buffer at its end. -/
def Accounted (element : Layout) (buffer : RingBuffer T) (history : List (Op T)) : Prop :=
  ∃ last answers destroyed layout, (ringBuffer T).run buffer history = some (last, answers) ∧
    last.drop element = some (destroyed, layout) ∧
    (accepted history answers).Perm (returned answers ++ destroyed)

/-- A loop of drops that are all defined. -/
theorem mapM_dropInPlace {indices : List ℕ} {drop : ℕ → Option (List T)} {destroyed : ℕ → List T}
    (h : ∀ i ∈ indices, drop i = some (destroyed i)) :
    indices.mapM drop = some (indices.map destroyed) := by
  induction indices with
  | nil => rfl
  | cons index indices ih =>
    rw [List.mapM_cons, h index List.mem_cons_self,
      ih fun i hi ↦ h i (List.mem_cons_of_mem _ hi)]
    rfl

/-- The elements of a list, visited by index. -/
theorem flatten_range_map (items : List T) :
    ((List.range items.length).map fun i ↦ items[i]?.toList).flatten = items := by
  induction items with
  | nil => rfl
  | cons item items ih =>
    rw [List.length_cons, List.range_succ_eq_map, List.map_cons, List.map_map, List.flatten_cons]
    exact congrArg (item :: ·) ih

/-- Dropped through pointers to `MaybeUninit<T>`, the live elements are left as they are. -/
theorem Holds.dropElements_maybeUninit (h : Holds capacity buffer items) :
    buffer.dropElements .maybeUninit = some [] := by
  have hdrop : ∀ i ∈ List.range buffer.len, RingBuffer.dropInPlace buffer.buf
      (usize (buffer.tail + i) % buffer.cap) .maybeUninit = some [] := by
    intro i _
    apply if_pos
    rw [h.length_eq, h.cap_eq]
    exact Nat.mod_lt _ (Nat.zero_lt_of_lt h.tail_lt)
  rw [RingBuffer.dropElements, mapM_dropInPlace hdrop]
  simp

/-- Dropped through pointers to `T`, every live element would be destroyed once, in order. -/
theorem Holds.dropElements_value (h : Holds capacity buffer items) (hfits : items.length ≤ capacity)
    (hcapacity : 2 * capacity ≤ usizeRange) : buffer.dropElements .value = some items := by
  have hindex : ∀ i, i < items.length →
      usize (buffer.tail + i) % buffer.cap = (buffer.tail + i) % capacity := by
    intro i hi
    have htail := h.tail_lt
    rw [h.cap_eq, usize_of_lt (by omega)]
  have hcell : ∀ i (hi : i < items.length),
      buffer.buf[(buffer.tail + i) % capacity]? = some (some items[i]) := by
    intro i hi
    have hlive := congrArg (·[i]?) h.live
    simpa [window, hi] using hlive
  have hdrop : ∀ i ∈ List.range buffer.len, RingBuffer.dropInPlace buffer.buf
      (usize (buffer.tail + i) % buffer.cap) .value = some (items[i]?.toList) := by
    intro i hi
    rw [List.mem_range, h.len_eq] at hi
    rw [hindex i hi, RingBuffer.dropInPlace, RingBuffer.read, hcell i hi,
      List.getElem?_eq_getElem hi]
    rfl
  rw [RingBuffer.dropElements, mapM_dropInPlace hdrop, h.len_eq, Option.map_some,
    flatten_range_map]

/-- The drop destroys nothing and hands the allocator the layout the buffer was allocated with. -/
theorem Holds.drop {element layout : Layout} (h : Holds capacity buffer items)
    (hlayout : element.array capacity = some layout) :
    buffer.drop element = some ([], layout) := by
  rw [RingBuffer.drop, h.dropElements_maybeUninit, h.cap_eq, hlayout]
  rfl

/-- The values are accounted for exactly when the queue is empty at the drop: the drop leaks every
value still held. -/
theorem accounted_iff {element : Layout} {alloc : Layout → Bool}
    (hcapacity : capacity < usizeRange) (hnew : new element alloc capacity = .ok buffer)
    (history : List (Op T)) :
    Accounted element buffer history ↔
      ((BoundedQueue.empty capacity T).after history).1.items = [] := by
  obtain ⟨-, hlayout, -⟩ := eq_of_new_eq_ok hnew
  obtain ⟨layout, hlayout⟩ := Option.isSome_iff_exists.mp hlayout
  have hstart : Holds capacity buffer (BoundedQueue.empty capacity T).items := holds_new hnew
  obtain ⟨last, hrun, hholds⟩ := hstart.run hcapacity history
  have hlaw : accepted history ((BoundedQueue.empty capacity T).after history).2 = _ :=
    accepted_eq_returned_append history
  constructor
  · rintro ⟨last', answers, destroyed, layout', hrun', hdrop, hperm⟩
    rw [hrun] at hrun'
    cases hrun'
    rw [hholds.drop hlayout] at hdrop
    cases hdrop
    rw [hlaw, List.append_nil] at hperm
    have hlength := hperm.length_eq
    rw [List.length_append] at hlength
    exact List.eq_nil_of_length_eq_zero (by omega)
  · intro hempty
    refine ⟨last, _, [], layout, hrun, hholds.drop hlayout, ?_⟩
    rw [hlaw, hempty]

/-- The theorem at a history that wraps around and ends with an empty buffer. -/
theorem accounted_iff_wrapAround :
    Accounted ⟨8, 8⟩ ⟨List.replicate 2 none, 2, 0, 0, 0⟩ wrapAround ↔
      ((BoundedQueue.empty 2 ℕ).after wrapAround).1.items = [] :=
  accounted_iff (by decide)
    (show new ⟨8, 8⟩ (fun _ ↦ true) 2 = .ok ⟨List.replicate 2 none, 2, 0, 0, 0⟩ from rfl) wrapAround

/-- One value pushed into a buffer of one slot is leaked by the drop. -/
theorem not_accounted_push :
    ∃ buffer, new ⟨8, 8⟩ (fun _ ↦ true) 1 = .ok buffer ∧ ¬ Accounted ⟨8, 8⟩ buffer [.push 7] := by
  refine ⟨⟨List.replicate 1 none, 1, 0, 0, 0⟩, rfl, ?_⟩
  rintro ⟨last, answers, destroyed, layout, hrun, hdrop, hperm⟩
  cases hrun
  cases hdrop
  exact absurd hperm.length_eq (by decide)

/-- With a pointer to `T` in the loop of `drop` every value would be accounted for: after any
history the live elements are destroyed, each once. -/
theorem dropElements_value_run {element : Layout} {alloc : Layout → Bool}
    (hcapacity : 2 * capacity ≤ usizeRange) (hnew : new element alloc capacity = .ok buffer)
    (history : List (Op T)) :
    ∃ last answers destroyed, (ringBuffer T).run buffer history = some (last, answers) ∧
      last.dropElements .value = some destroyed ∧
      accepted history answers = returned answers ++ destroyed := by
  have hpos : 0 < capacity := (eq_of_new_eq_ok hnew).1
  have hstart : Holds capacity buffer (BoundedQueue.empty capacity T).items := holds_new hnew
  obtain ⟨last, hrun, hholds⟩ := hstart.run (by omega) history
  exact ⟨last, _, _, hrun, hholds.dropElements_value (BoundedQueue.fits _) hcapacity,
    accepted_eq_returned_append history⟩

end DailyChallenge.HeapRingBuffer
