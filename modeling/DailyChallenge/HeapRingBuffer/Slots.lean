import Mathlib
import DailyChallenge.HeapRingBuffer.Drop
import DailyChallenge.Library.Runs

/-!
# The slots that hold a live value

A push initialises the slot it writes, and a pop moves the value out of the slot it reads.
`initialisedAfter` keeps the set of initialised slots beside a buffer, and `slotCalls` is the buffer
under any calls with this set. The safety invariant of the `unsafe` blocks is that the initialised
slots are the window of `len` slots from `tail` (`SlotInvariant`). It holds in every state that can
be reached, and there every access is to the right kind of slot and the loop of `drop` visits every
live slot once (`safe_run`).
-/

set_option autoImplicit false
set_option relaxedAutoImplicit false

namespace DailyChallenge.HeapRingBuffer

open Library

variable {T : Type*}

/-- A buffer and its initialised slots. -/
structure Slots (T : Type*) where
  buffer : RingBuffer T
  initialised : Finset ℕ

/-- The initialised slots after a call: `push` writes at `head` unless the buffer is full, and `pop`
moves out of `tail` unless it is empty. -/
def initialisedAfter (slots : Slots T) : Op T → Finset ℕ
  | .push _ =>
    if slots.buffer.isFull then slots.initialised else insert slots.buffer.head slots.initialised
  | .pop =>
    if slots.buffer.isEmpty then slots.initialised else slots.initialised.erase slots.buffer.tail
  | .len | .isEmpty | .isFull => slots.initialised

/-- A buffer just constructed under any calls. -/
def slotCalls (buffer : RingBuffer T) : TransitionSystem (Slots T) (Op T) where
  Start slots := slots = ⟨buffer, ∅⟩
  Step slots op next := ∃ answer, (ringBuffer T).step slots.buffer op = some (next.buffer, answer) ∧
    next.initialised = initialisedAfter slots op

/-- The slots that the loop of `drop` visits, in order. -/
def RingBuffer.dropIndices (buffer : RingBuffer T) : List ℕ :=
  (List.range buffer.len).map fun i ↦ usize (buffer.tail + i) % buffer.cap

/-- The safety invariant of the buffer. -/
structure SlotInvariant (capacity : ℕ) (slots : Slots T) : Prop where
  cap_eq : slots.buffer.cap = capacity
  head_lt : slots.buffer.head < slots.buffer.cap
  tail_lt : slots.buffer.tail < slots.buffer.cap
  len_le : slots.buffer.len ≤ slots.buffer.cap
  head_eq : slots.buffer.head = (slots.buffer.tail + slots.buffer.len) % slots.buffer.cap
  initialised_iff : ∀ slot, slot ∈ slots.initialised ↔
    ∃ i < slots.buffer.len, (slots.buffer.tail + i) % slots.buffer.cap = slot

/-- What the accesses of a buffer need of its slots: `push` writes to a slot without a live value,
`pop` reads an initialised one, `drop` visits every live slot once with no overflow in `tail + i`,
and no call does anything undefined. -/
structure SafeAccesses (slots : Slots T) : Prop where
  push : ∀ val next, slots.buffer.push val = some (next, .ok ()) →
    next.buf = slots.buffer.buf.set slots.buffer.head (some val) ∧
      slots.buffer.head < slots.buffer.buf.length ∧ slots.buffer.head ∉ slots.initialised
  pop : ∀ val next, slots.buffer.pop = some (next, some val) →
    slots.buffer.buf[slots.buffer.tail]? = some (some val) ∧
      slots.buffer.tail ∈ slots.initialised
  drop_nodup : slots.buffer.dropIndices.Nodup
  drop_visits : ∀ slot, slot ∈ slots.buffer.dropIndices ↔ slot ∈ slots.initialised
  drop_sum : ∀ i < slots.buffer.len, slots.buffer.tail + i < usizeRange
  defined : ∀ op, ((ringBuffer T).step slots.buffer op).isSome

variable {capacity : ℕ} {buffer next : RingBuffer T}

/-! ### What a call changes -/

theorem push_cases {val : T} {result : Except T Unit}
    (h : buffer.push val = some (next, result)) :
    (buffer.isFull ∧ next = buffer ∧ result = .error val) ∨
      (¬ buffer.isFull ∧ buffer.head < buffer.buf.length ∧ result = .ok () ∧
        next = ⟨buffer.buf.set buffer.head (some val), buffer.cap,
          usize (buffer.head + 1) % buffer.cap, buffer.tail, usize (buffer.len + 1)⟩) := by
  unfold RingBuffer.push at h
  by_cases hfull : buffer.isFull
  · rw [if_pos hfull] at h
    cases h
    exact Or.inl ⟨hfull, rfl, rfl⟩
  · rw [if_neg hfull] at h
    unfold RingBuffer.write at h
    by_cases hlt : buffer.head < buffer.buf.length
    · rw [if_pos hlt] at h
      cases h
      exact Or.inr ⟨hfull, hlt, rfl, rfl⟩
    · rw [if_neg hlt] at h
      cases h

theorem pop_cases {result : Option T} (h : buffer.pop = some (next, result)) :
    (buffer.isEmpty ∧ next = buffer ∧ result = none) ∨
      (¬ buffer.isEmpty ∧ RingBuffer.read buffer.buf buffer.tail = result ∧ result.isSome ∧
        next = ⟨buffer.buf, buffer.cap, buffer.head, usize (buffer.tail + 1) % buffer.cap,
          buffer.len - 1⟩) := by
  unfold RingBuffer.pop at h
  by_cases hempty : buffer.isEmpty
  · rw [if_pos hempty] at h
    cases h
    exact Or.inl ⟨hempty, rfl, rfl⟩
  · rw [if_neg hempty] at h
    cases hread : RingBuffer.read buffer.buf buffer.tail with
    | none =>
      rw [hread] at h
      cases h
    | some val =>
      rw [hread] at h
      cases h
      exact Or.inr ⟨hempty, rfl, rfl, rfl⟩

/-! ### The invariant -/

/-- The buffer holds what a queue holds, and the initialised slots are those of its window. -/
structure Window (capacity : ℕ) (slots : Slots T) : Prop where
  holds : ∃ queue : BoundedQueue capacity T, Holds capacity slots.buffer queue.items
  initialised_eq : slots.initialised =
    windowIndices capacity slots.buffer.tail slots.buffer.len

theorem window_new {element : Layout} {alloc : Layout → Bool}
    (hnew : new element alloc capacity = .ok buffer) : Window capacity ⟨buffer, ∅⟩ := by
  refine ⟨⟨BoundedQueue.empty capacity T, holds_new hnew⟩, ?_⟩
  obtain ⟨-, -, rfl⟩ := eq_of_new_eq_ok hnew
  rfl

/-- The initialised slots after a call are those of the window after it. -/
theorem Window.initialisedAfter_eq {slots : Slots T} (h : Window capacity slots)
    (hcapacity : capacity < usizeRange) {op : Op T} {answer : Answer T}
    (hstep : (ringBuffer T).step slots.buffer op = some (next, answer)) :
    initialisedAfter slots op = windowIndices capacity next.tail next.len := by
  obtain ⟨⟨queue, hholds⟩, hinitialised⟩ := h
  have hlen_le : slots.buffer.len ≤ capacity := hholds.len_eq.trans_le queue.fits
  cases op with
  | push val =>
    obtain ⟨⟨last, result⟩, hpush, hlast⟩ := Option.map_eq_some_iff.mp hstep
    obtain rfl : last = next := (Prod.mk.inj hlast).1
    rcases push_cases hpush with ⟨hfull, rfl, -⟩ | ⟨hroom, -, -, rfl⟩
    · rw [initialisedAfter, if_pos hfull, hinitialised]
    · have hlt : slots.buffer.len < capacity := by
        rw [RingBuffer.isFull, beq_iff_eq, hholds.cap_eq] at hroom
        exact lt_of_le_of_ne hlen_le hroom
      have hlen : usize (slots.buffer.len + 1) = slots.buffer.len + 1 :=
        usize_of_lt (Nat.lt_of_le_of_lt hlt hcapacity)
      rw [initialisedAfter, if_neg hroom, hlen, windowIndices_succ_end, hinitialised,
        hholds.head_eq, hholds.len_eq]
  | pop =>
    obtain ⟨⟨last, result⟩, hpop, hlast⟩ := Option.map_eq_some_iff.mp hstep
    obtain rfl : last = next := (Prod.mk.inj hlast).1
    rcases pop_cases hpop with ⟨hempty, rfl, -⟩ | ⟨hsome, -, -, rfl⟩
    · rw [initialisedAfter, if_pos hempty, hinitialised]
    · have hpos : slots.buffer.len ≠ 0 := by
        rwa [RingBuffer.isEmpty, beq_iff_eq] at hsome
      obtain ⟨count, hcount⟩ := Nat.exists_eq_succ_of_ne_zero hpos
      rw [initialisedAfter, if_neg hsome, hinitialised, hholds.cap_eq,
        usize_succ_mod hcapacity hholds.tail_lt, hcount]
      exact windowIndices_succ_start hholds.tail_lt (by omega)
  | len =>
    cases hstep
    exact hinitialised
  | isEmpty =>
    cases hstep
    exact hinitialised
  | isFull =>
    cases hstep
    exact hinitialised

/-- Every call keeps the invariant. -/
theorem Window.step {slots next : Slots T} (h : Window capacity slots)
    (hcapacity : capacity < usizeRange) {op : Op T}
    (hstep : (slotCalls buffer).Step slots op next) : Window capacity next := by
  obtain ⟨answer, hcall, hinitialised⟩ := hstep
  refine ⟨?_, hinitialised.trans (h.initialisedAfter_eq hcapacity hcall)⟩
  obtain ⟨queue, hholds⟩ := h.holds
  obtain ⟨last, hlast, hnext⟩ := hholds.call hcapacity op
  rw [hcall] at hlast
  obtain rfl : next.buffer = last := (Prod.mk.inj (Option.some.inj hlast)).1
  exact ⟨_, hnext⟩

/-- A buffer with its window meets the safety invariant. -/
theorem Window.slotInvariant {slots : Slots T} (h : Window capacity slots) :
    SlotInvariant capacity slots := by
  obtain ⟨⟨queue, hholds⟩, hinitialised⟩ := h
  have hpos : 0 < capacity := Nat.zero_lt_of_lt hholds.tail_lt
  constructor
  case cap_eq => exact hholds.cap_eq
  case head_lt =>
    rw [hholds.head_eq, hholds.cap_eq]
    exact Nat.mod_lt _ hpos
  case tail_lt =>
    rw [hholds.cap_eq]
    exact hholds.tail_lt
  case len_le =>
    rw [hholds.len_eq, hholds.cap_eq]
    exact queue.fits
  case head_eq => rw [hholds.head_eq, hholds.len_eq, hholds.cap_eq]
  case initialised_iff =>
    intro slot
    rw [hinitialised, hholds.cap_eq]
    exact mem_windowIndices

/-! ### The accesses -/

/-- `dropElements` drops at the indices of `dropIndices`, one after the other. -/
theorem RingBuffer.dropElements_eq (pointee : Pointee) (buffer : RingBuffer T) :
    buffer.dropElements pointee =
      (buffer.dropIndices.mapM fun index ↦
        RingBuffer.dropInPlace buffer.buf index pointee).map List.flatten := by
  rw [RingBuffer.dropElements, RingBuffer.dropIndices, List.mapM_map]
  rfl

/-- Without overflow the loop of `drop` visits the indices of the window. -/
theorem SlotInvariant.dropIndices_eq {slots : Slots T} (h : SlotInvariant capacity slots)
    (hcapacity : 2 * capacity ≤ usizeRange) :
    slots.buffer.dropIndices =
      (List.range slots.buffer.len).map fun i ↦ (slots.buffer.tail + i) % slots.buffer.cap := by
  apply List.map_congr_left
  intro i hi
  have hlt : i < slots.buffer.len := List.mem_range.mp hi
  have htail := h.tail_lt
  have hlen := h.len_le
  rw [h.cap_eq] at htail hlen
  rw [usize_of_lt (by omega)]

/-- A buffer with its window is accessed safely. -/
theorem Window.safeAccesses {slots : Slots T} (h : Window capacity slots)
    (hcapacity : 2 * capacity ≤ usizeRange) : SafeAccesses slots := by
  have hinvariant := h.slotInvariant
  obtain ⟨⟨queue, hholds⟩, hinitialised⟩ := h
  have hpos : 0 < capacity := Nat.zero_lt_of_lt hholds.tail_lt
  constructor
  case push =>
    intro val next hpush
    rcases push_cases hpush with ⟨-, -, herror⟩ | ⟨hroom, hlt, -, rfl⟩
    · cases herror
    · refine ⟨rfl, hlt, ?_⟩
      have hcount : slots.buffer.len < capacity := by
        rw [RingBuffer.isFull, beq_iff_eq, hholds.cap_eq] at hroom
        exact lt_of_le_of_ne (hholds.len_eq.trans_le queue.fits) hroom
      rw [hinitialised, hinvariant.head_eq, hholds.cap_eq]
      exact end_notMem_windowIndices hcount
  case pop =>
    intro val next hpop
    rcases pop_cases hpop with ⟨-, -, hnone⟩ | ⟨hsome, hread, -, -⟩
    · cases hnone
    · refine ⟨?_, ?_⟩
      · exact Option.join_eq_some_iff.mp hread
      · have hcount : 0 < slots.buffer.len := by
          rw [RingBuffer.isEmpty, beq_iff_eq] at hsome
          exact Nat.pos_of_ne_zero hsome
        refine (hinvariant.initialised_iff _).mpr ⟨0, hcount, ?_⟩
        exact Nat.mod_eq_of_lt hinvariant.tail_lt
  case drop_nodup =>
    rw [hinvariant.dropIndices_eq hcapacity]
    apply List.Nodup.map_on _ List.nodup_range
    intro i hi j hj hsame
    rw [List.mem_range] at hi hj
    exact index_injOn _ _ (hi.trans_le hinvariant.len_le) (hj.trans_le hinvariant.len_le) hsame
  case drop_visits =>
    intro slot
    rw [hinvariant.dropIndices_eq hcapacity, hinvariant.initialised_iff]
    simp
  case drop_sum =>
    intro i hi
    have htail := hinvariant.tail_lt
    have hlen := hinvariant.len_le
    rw [hinvariant.cap_eq] at htail hlen
    omega
  case defined =>
    intro op
    obtain ⟨next, hstep, -⟩ := hholds.call (by omega) op
    rw [hstep]
    rfl

/-! ### Every state that can be reached -/

/-- An allocation holds fewer elements than `isize::MAX + 1`, unless their size is zero. -/
theorem le_of_array_isSome {element : Layout} (hsize : element.size ≠ 0)
    (h : (element.array capacity).isSome) : capacity ≤ 2 ^ 63 := by
  have hle : capacity ≤ (2 ^ 63 - element.align) / element.size := by
    by_contra hgt
    rw [Layout.array, if_pos ⟨hsize, not_le.mp hgt⟩] at h
    cases h
  exact hle.trans ((Nat.div_le_self ..).trans (Nat.sub_le ..))

/-- The safety invariant holds in every state a new buffer can reach, for every capacity it can be
constructed with and elements of any size but zero, and every access there is safe. -/
theorem safe_run {element : Layout} {alloc : Layout → Bool} (hsize : element.size ≠ 0)
    (hnew : new element alloc capacity = .ok buffer) {trace : List (Op T)} {slots : Slots T}
    (hrun : (slotCalls buffer).Run trace slots) :
    SlotInvariant capacity slots ∧ SafeAccesses slots := by
  have hcapacity : 2 * capacity ≤ usizeRange := by
    have hle := le_of_array_isSome hsize (eq_of_new_eq_ok hnew).2.1
    rw [usizeRange]
    omega
  have hpos : 0 < capacity := (eq_of_new_eq_ok hnew).1
  have hwindow : Window capacity slots := by
    refine hrun.invariant ?_ ?_
    · rintro slots rfl
      exact window_new hnew
    · intro _ _ _ _ _ hbefore hstep
      exact hbefore.step (by omega) hstep
  exact ⟨hwindow.slotInvariant, hwindow.safeAccesses hcapacity⟩

/-- A new buffer of two slots under any calls. -/
abbrev twoSlots : TransitionSystem (Slots ℕ) (Op ℕ) :=
  slotCalls ⟨List.replicate 2 none, 2, 0, 0, 0⟩

/-- The theorem at such a buffer that was filled and then popped once. -/
theorem safe_run_afterPop :
    ∃ slots, twoSlots.Run [.push 7, .push 8, .pop] slots ∧ SlotInvariant 2 slots ∧
      SafeAccesses slots ∧ slots.initialised = {1} := by
  have hempty : twoSlots.Run [] ⟨⟨[none, none], 2, 0, 0, 0⟩, ∅⟩ := .start rfl
  have hfirst : twoSlots.Run [.push 7] ⟨⟨[some 7, none], 2, 1, 0, 1⟩, {0}⟩ :=
    hempty.step ⟨.pushed (.ok ()), rfl, rfl⟩
  have hfull : twoSlots.Run [.push 7, .push 8] ⟨⟨[some 7, some 8], 2, 0, 0, 2⟩, {1, 0}⟩ :=
    hfirst.step ⟨.pushed (.ok ()), rfl, rfl⟩
  have hpopped : twoSlots.Run [.push 7, .push 8, .pop] ⟨⟨[some 7, some 8], 2, 0, 1, 1⟩, {1}⟩ :=
    hfull.step ⟨.popped (some 7), rfl, rfl⟩
  have hsafe := safe_run (by decide)
    (show new ⟨8, 8⟩ (fun _ ↦ true) 2 = .ok ⟨List.replicate 2 none, 2, 0, 0, 0⟩ from rfl) hpopped
  exact ⟨_, hpopped, hsafe.1, hsafe.2, rfl⟩

end DailyChallenge.HeapRingBuffer
