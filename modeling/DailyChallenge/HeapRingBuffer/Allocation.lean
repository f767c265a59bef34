import Mathlib
import DailyChallenge.HeapRingBuffer.Slots

/-!
# The allocator's contract

A slot starts at its index times the size of an element, which `MaybeUninit<T>` shares with `T`.
Every slot that `push`, `pop` and `drop` access lies inside the allocation, and `drop` hands back
the layout it was made with, whatever the elements are (`staysInside_new`). But `alloc` also asks
for a size that is not zero, and `new` takes that for granted (`keepsContract_iff`).
-/

set_option autoImplicit false
set_option relaxedAutoImplicit false

namespace DailyChallenge.HeapRingBuffer

open Library

variable {T : Type*}

/-- The slots that a call accesses. -/
def slotsAccessed (buffer : RingBuffer T) : Op T → List ℕ
  | .push _ => if buffer.isFull then [] else [buffer.head]
  | .pop => if buffer.isEmpty then [] else [buffer.tail]
  | .len | .isEmpty | .isFull => []

/-- The bytes of a slot are bytes of an allocation. -/
def InAllocation (element layout : Layout) (slot : ℕ) : Prop :=
  slot * element.size + element.size ≤ layout.size

/-- After any calls on a buffer the next one and a drop access bytes of its allocation, and the drop
hands the layout of the allocation back. -/
structure StaysInside (element layout : Layout) (buffer : RingBuffer T) : Prop where
  calls : ∀ history last answers, (ringBuffer T).run buffer history = some (last, answers) →
    ∀ op, ∀ slot ∈ slotsAccessed last op, InAllocation element layout slot
  drop : ∀ history last answers, (ringBuffer T).run buffer history = some (last, answers) →
    ∀ slot ∈ last.dropIndices, InAllocation element layout slot
  dealloc : ∀ history last answers, (ringBuffer T).run buffer history = some (last, answers) →
    ∃ destroyed, last.drop element = some (destroyed, layout)

/-- The contract of the allocator over the life of a buffer: the layout that `new` passes to `alloc`
has bytes, and the buffer stays inside its allocation. -/
def KeepsContract (element : Layout) (capacity : ℕ) (buffer : RingBuffer T) : Prop :=
  ∃ layout, element.array capacity = some layout ∧ layout.size ≠ 0 ∧
    StaysInside element layout buffer

variable {capacity : ℕ} {buffer : RingBuffer T} {items : List T} {element layout : Layout}

/-! ### Slots and bytes -/

theorem size_of_array_eq (h : element.array capacity = some layout) :
    layout.size = element.size * capacity := by
  unfold Layout.array at h
  split_ifs at h
  cases h
  rfl

/-- Every slot below the capacity is inside the allocation. -/
theorem inAllocation_of_lt {slot : ℕ} (hlayout : element.array capacity = some layout)
    (hslot : slot < capacity) : InAllocation element layout slot := by
  rw [InAllocation, size_of_array_eq hlayout, ← Nat.succ_mul, mul_comm]
  exact Nat.mul_le_mul_left element.size hslot

/-- The calls access slots below the capacity. -/
theorem Holds.slotsAccessed_lt (h : Holds capacity buffer items) (op : Op T) :
    ∀ slot ∈ slotsAccessed buffer op, slot < capacity := by
  intro slot hslot
  cases op with
  | push val =>
    rw [slotsAccessed] at hslot
    split_ifs at hslot
    · cases hslot
    · rw [List.mem_singleton.mp hslot, h.head_eq]
      exact Nat.mod_lt _ (Nat.zero_lt_of_lt h.tail_lt)
  | pop =>
    rw [slotsAccessed] at hslot
    split_ifs at hslot
    · cases hslot
    · rw [List.mem_singleton.mp hslot]
      exact h.tail_lt
  | len | isEmpty | isFull => cases hslot

/-- So does the loop of `drop`. -/
theorem Holds.dropIndices_lt (h : Holds capacity buffer items) :
    ∀ slot ∈ buffer.dropIndices, slot < capacity := by
  intro slot hslot
  obtain ⟨i, -, rfl⟩ := List.mem_map.mp hslot
  rw [h.cap_eq]
  exact Nat.mod_lt _ (Nat.zero_lt_of_lt h.tail_lt)

/-! ### The life of a buffer -/

/-- Whatever the size of its elements, a new buffer stays inside its allocation. -/
theorem staysInside_new {alloc : Layout → Bool} (hcapacity : capacity < usizeRange)
    (hnew : new element alloc capacity = .ok buffer)
    (hlayout : element.array capacity = some layout) : StaysInside element layout buffer := by
  have hholds : ∀ history last answers,
      (ringBuffer T).run buffer history = some (last, answers) →
        ∃ items, Holds capacity last items := by
    intro history last answers hrun
    have hstart : Holds capacity buffer (BoundedQueue.empty capacity T).items := holds_new hnew
    obtain ⟨last', hrun', hlast⟩ := hstart.run hcapacity history
    obtain ⟨rfl, -⟩ := Prod.mk.inj (Option.some_inj.mp (hrun.symm.trans hrun'))
    exact ⟨_, hlast⟩
  constructor
  case calls =>
    intro history last answers hrun op slot hslot
    obtain ⟨items, hlast⟩ := hholds history last answers hrun
    exact inAllocation_of_lt hlayout (hlast.slotsAccessed_lt op slot hslot)
  case drop =>
    intro history last answers hrun slot hslot
    obtain ⟨items, hlast⟩ := hholds history last answers hrun
    exact inAllocation_of_lt hlayout (hlast.dropIndices_lt slot hslot)
  case dealloc =>
    intro history last answers hrun
    obtain ⟨items, hlast⟩ := hholds history last answers hrun
    exact ⟨[], hlast.drop hlayout⟩

/-- A new buffer keeps the contract exactly when its elements have a size. -/
theorem keepsContract_iff {alloc : Layout → Bool}
    (hnew : new element alloc capacity = .ok buffer) :
    KeepsContract element capacity buffer ↔ element.size ≠ 0 := by
  obtain ⟨hpos, hsome, -⟩ := eq_of_new_eq_ok hnew
  constructor
  · rintro ⟨layout, hlayout, hbytes, -⟩ hzero
    apply hbytes
    rw [size_of_array_eq hlayout, hzero, zero_mul]
  · intro hsize
    obtain ⟨layout, hlayout⟩ := Option.isSome_iff_exists.mp hsome
    have hcapacity : capacity < usizeRange := by
      have hle := le_of_array_isSome hsize hsome
      rw [usizeRange]
      omega
    refine ⟨layout, hlayout, ?_, staysInside_new hcapacity hnew hlayout⟩
    rw [size_of_array_eq hlayout]
    exact Nat.mul_ne_zero hsize hpos.ne'

/-- Two slots of eight bytes. -/
theorem keepsContract_twoSlots :
    KeepsContract ⟨8, 8⟩ 2 (⟨List.replicate 2 none, 2, 0, 0, 0⟩ : RingBuffer ℕ) ↔
      (⟨8, 8⟩ : Layout).size ≠ 0 :=
  keepsContract_iff
    (show new ⟨8, 8⟩ (fun _ ↦ true) 2 = .ok ⟨List.replicate 2 none, 2, 0, 0, 0⟩ from rfl)

/-- A buffer of one unit is allocated with no bytes. -/
theorem not_keepsContract_unit : ¬ ∀ (element : Layout) (alloc : Layout → Bool) (capacity : ℕ)
    (buffer : RingBuffer Unit), 1 ≤ capacity → new element alloc capacity = .ok buffer →
      KeepsContract element capacity buffer := by
  intro h
  obtain ⟨layout, hlayout, hbytes, -⟩ := h ⟨0, 1⟩ (fun _ ↦ true) 1
    ⟨List.replicate 1 none, 1, 0, 0, 0⟩ le_rfl rfl
  exact hbytes (size_of_array_eq hlayout)

end DailyChallenge.HeapRingBuffer
