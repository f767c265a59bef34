import Mathlib
import DailyChallenge.HeapRingBuffer.Queue
import DailyChallenge.Library.CircularWindow

/-!
# The ring buffer refines the bounded queue

`Holds` ties the counters and the slots of a buffer to the values it holds: the live slots are the
window of `len` cells from `tail`, and `head` is the cell after its end. `Holds.push` and
`Holds.pop` are the two operations, and `answers_eq_queue` the result: every history of calls is
answered as the bounded queue answers it, for every capacity for which the buffer can be
constructed.
-/

set_option autoImplicit false
set_option relaxedAutoImplicit false

namespace DailyChallenge.HeapRingBuffer

open Library

variable {T : Type*} {capacity : ℕ}

/-- The buffer holds the listed values, the oldest first. -/
structure Holds (capacity : ℕ) (buffer : RingBuffer T) (items : List T) : Prop where
  cap_eq : buffer.cap = capacity
  length_eq : buffer.buf.length = capacity
  len_eq : buffer.len = items.length
  tail_lt : buffer.tail < capacity
  head_eq : buffer.head = (buffer.tail + items.length) % capacity
  live : window (fun i ↦ buffer.buf[i]?) capacity buffer.tail items.length =
    items.map fun val ↦ some (some val)

/-- A buffer just constructed holds nothing. -/
theorem holds_new {element : Layout} {alloc : Layout → Bool} {buffer : RingBuffer T}
    (h : new element alloc capacity = .ok buffer) : Holds capacity buffer [] := by
  obtain ⟨hpos, -, rfl⟩ := eq_of_new_eq_ok h
  constructor
  case cap_eq => rfl
  case length_eq => exact List.length_replicate
  case len_eq => rfl
  case tail_lt => exact hpos
  case head_eq => exact (Nat.zero_mod capacity).symm
  case live => rfl

variable {buffer : RingBuffer T} {items : List T}

/-- The cells after a write to one of them. -/
theorem getElem?_set_eq_update {buf : List (Option T)} {index : ℕ} (h : index < buf.length)
    (cell : Option T) :
    (fun i ↦ (buf.set index cell)[i]?) = Function.update (fun i ↦ buf[i]?) index (some cell) := by
  ext1 i
  by_cases hi : i = index
  · rw [hi, Function.update_self, List.getElem?_set_self h]
  · rw [Function.update_of_ne hi, List.getElem?_set_ne (Ne.symm hi)]

/-- The next index, computed in a `usize`, does not overflow. -/
theorem usize_succ_mod {index : ℕ} (hcapacity : capacity < usizeRange) (h : index < capacity) :
    usize (index + 1) % capacity = (index + 1) % capacity := by
  rw [usize_of_lt (Nat.lt_of_le_of_lt h hcapacity)]

/-- A push on a buffer that is not full appends its value. -/
theorem Holds.push (h : Holds capacity buffer items) (hcapacity : capacity < usizeRange)
    (hroom : items.length < capacity) (val : T) :
    ∃ next, buffer.push val = some (next, .ok ()) ∧ Holds capacity next (items ++ [val]) := by
  have hpos : 0 < capacity := Nat.zero_lt_of_lt hroom
  have hhead : buffer.head < capacity := by
    rw [h.head_eq]
    exact Nat.mod_lt _ hpos
  have hfull : ¬ buffer.isFull := by
    rw [RingBuffer.isFull, beq_iff_eq, h.len_eq, h.cap_eq]
    exact hroom.ne
  have hlt : buffer.head < buffer.buf.length := by rwa [h.length_eq]
  have hwrite : RingBuffer.write buffer.buf buffer.head val =
      some (buffer.buf.set buffer.head (some val)) := if_pos hlt
  have hlen : usize (buffer.len + 1) = items.length + 1 := by
    rw [h.len_eq, usize_of_lt (Nat.lt_of_le_of_lt hroom hcapacity)]
  refine ⟨⟨buffer.buf.set buffer.head (some val), buffer.cap,
    usize (buffer.head + 1) % buffer.cap, buffer.tail, usize (buffer.len + 1)⟩, ?_, ?_⟩
  · rw [RingBuffer.push, if_neg hfull, hwrite]
    rfl
  constructor
  case cap_eq => exact h.cap_eq
  case length_eq => exact (List.length_set ..).trans h.length_eq
  case len_eq => rw [hlen, List.length_append, List.length_singleton]
  case tail_lt => exact h.tail_lt
  case head_eq =>
    show usize (buffer.head + 1) % buffer.cap = _
    rw [h.cap_eq, usize_succ_mod hcapacity hhead, h.head_eq, Nat.mod_add_mod, List.length_append,
      List.length_singleton, add_assoc]
  case live =>
    show window (fun i ↦ (buffer.buf.set buffer.head (some val))[i]?) capacity buffer.tail _ = _
    rw [getElem?_set_eq_update hlt, h.head_eq, List.length_append, List.length_singleton,
      window_succ_end, window_update_end _ hroom, h.live, Function.update_self, List.map_append,
      List.map_singleton]

/-- A push on a full buffer returns its value and changes nothing. -/
theorem Holds.push_full (h : Holds capacity buffer items) (hfull : items.length = capacity)
    (val : T) : buffer.push val = some (buffer, .error val) := by
  have hyes : buffer.isFull := by
    rw [RingBuffer.isFull, beq_iff_eq, h.len_eq, h.cap_eq]
    exact hfull
  rw [RingBuffer.push, if_pos hyes]

/-- A pop on a buffer that holds something takes the oldest value. -/
theorem Holds.pop {val : T} (h : Holds capacity buffer (val :: items))
    (hcapacity : capacity < usizeRange) :
    ∃ next, buffer.pop = some (next, some val) ∧ Holds capacity next items := by
  have hempty : ¬ buffer.isEmpty := by
    rw [RingBuffer.isEmpty, beq_iff_eq, h.len_eq]
    exact Nat.succ_ne_zero _
  have hlive := h.live
  rw [List.length_cons, window_succ_start, List.map_cons] at hlive
  obtain ⟨hfirst, hrest⟩ := List.cons.inj hlive
  rw [Nat.mod_eq_of_lt h.tail_lt] at hfirst
  have hread : RingBuffer.read buffer.buf buffer.tail = some val := by
    rw [RingBuffer.read, hfirst]
    rfl
  refine ⟨⟨buffer.buf, buffer.cap, buffer.head, usize (buffer.tail + 1) % buffer.cap,
    buffer.len - 1⟩, ?_, ?_⟩
  · rw [RingBuffer.pop, if_neg hempty, hread]
    rfl
  have htail : usize (buffer.tail + 1) % buffer.cap = (buffer.tail + 1) % capacity := by
    rw [h.cap_eq, usize_succ_mod hcapacity h.tail_lt]
  constructor
  case cap_eq => exact h.cap_eq
  case length_eq => exact h.length_eq
  case len_eq =>
    show buffer.len - 1 = _
    rw [h.len_eq, List.length_cons, Nat.add_sub_cancel]
  case tail_lt =>
    show usize (buffer.tail + 1) % buffer.cap < capacity
    rw [htail]
    exact Nat.mod_lt _ (Nat.zero_lt_of_lt h.tail_lt)
  case head_eq =>
    show buffer.head = (usize (buffer.tail + 1) % buffer.cap + items.length) % capacity
    rw [htail, h.head_eq, Nat.mod_add_mod, List.length_cons, add_assoc, add_comm 1]
  case live =>
    show window (fun i ↦ buffer.buf[i]?) capacity (usize (buffer.tail + 1) % buffer.cap) _ = _
    rw [htail]
    exact hrest

/-- A pop on an empty buffer finds nothing and changes nothing. -/
theorem Holds.pop_empty (h : Holds capacity buffer []) : buffer.pop = some (buffer, none) := by
  have hyes : buffer.isEmpty := by
    rw [RingBuffer.isEmpty, beq_iff_eq]
    exact h.len_eq
  rw [RingBuffer.pop, if_pos hyes]

/-- Every call on the buffer is answered as the bounded queue answers it. -/
theorem Holds.call {queue : BoundedQueue capacity T} (h : Holds capacity buffer queue.items)
    (hcapacity : capacity < usizeRange) (op : Op T) :
    ∃ next, (ringBuffer T).step buffer op = some (next, (queue.call op).2) ∧
      Holds capacity next (queue.call op).1.items := by
  cases op with
  | push val =>
    by_cases hroom : queue.items.length < capacity
    · obtain ⟨next, hpush, hnext⟩ := h.push hcapacity hroom val
      refine ⟨next, ?_, ?_⟩
      · show (buffer.push val).map _ = _
        rw [hpush]
        simp [BoundedQueue.call, BoundedQueue.push, hroom]
      · simpa [BoundedQueue.call, BoundedQueue.push, hroom] using hnext
    · have hpush := h.push_full (le_antisymm queue.fits (not_lt.mp hroom)) val
      refine ⟨buffer, ?_, ?_⟩
      · show (buffer.push val).map _ = _
        rw [hpush]
        simp [BoundedQueue.call, BoundedQueue.push, hroom]
      · simpa [BoundedQueue.call, BoundedQueue.push, hroom] using h
  | pop =>
    obtain ⟨items, fits⟩ := queue
    cases items with
    | nil =>
      refine ⟨buffer, ?_, h⟩
      show buffer.pop.map _ = _
      rw [h.pop_empty]
      rfl
    | cons val rest =>
      obtain ⟨next, hpop, hnext⟩ := h.pop hcapacity
      refine ⟨next, ?_, hnext⟩
      show buffer.pop.map _ = _
      rw [hpop]
      rfl
  | len =>
    refine ⟨buffer, ?_, h⟩
    show some (buffer, Answer.length buffer.len) = _
    rw [h.len_eq]
    rfl
  | isEmpty =>
    refine ⟨buffer, ?_, h⟩
    show some (buffer, Answer.flag buffer.isEmpty) = _
    rw [RingBuffer.isEmpty, h.len_eq]
    rfl
  | isFull =>
    refine ⟨buffer, ?_, h⟩
    show some (buffer, Answer.flag buffer.isFull) = _
    rw [RingBuffer.isFull, h.len_eq, h.cap_eq]
    rfl

/-- The buffer does what the bounded queue does. -/
def queueRefinement (T : Type*) (hcapacity : capacity < usizeRange) :
    Refinement (ringBuffer T) (boundedQueue capacity T) where
  Related buffer queue := Holds capacity buffer queue.items
  step buffer queue op queueNext answer hholds hstep := by
    have hcall : queue.call op = (queueNext, answer) := Option.some.inj hstep
    have hnext := hholds.call hcapacity op
    rw [hcall] at hnext
    exact hnext

/-- A buffer that holds what a queue holds answers every history of calls as the queue does, and
then holds what the queue holds. -/
theorem Holds.run {queue : BoundedQueue capacity T} (h : Holds capacity buffer queue.items)
    (hcapacity : capacity < usizeRange) (history : List (Op T)) :
    ∃ last, (ringBuffer T).run buffer history = some (last, (queue.after history).2) ∧
      Holds capacity last (queue.after history).1.items :=
  (queueRefinement T hcapacity).run h (run_boundedQueue queue history)

/-- Every history of calls on a buffer that was constructed with some capacity is answered as the
bounded queue of that capacity answers it, and the buffer then holds what the queue holds. -/
theorem answers_eq_queue {element : Layout} {alloc : Layout → Bool} {buffer : RingBuffer T}
    (hcapacity : capacity < usizeRange) (hnew : new element alloc capacity = .ok buffer)
    (history : List (Op T)) :
    ∃ last, (ringBuffer T).run buffer history =
        some (last, ((BoundedQueue.empty capacity T).after history).2) ∧
      Holds capacity last ((BoundedQueue.empty capacity T).after history).1.items := by
  have hstart : Holds capacity buffer (BoundedQueue.empty capacity T).items := holds_new hnew
  exact hstart.run hcapacity history

/-- A history that fills a buffer of two slots, wraps around and empties it. -/
def wrapAround : List (Op ℕ) :=
  [.push 7, .push 8, .push 9, .isFull, .pop, .push 10, .pop, .pop, .pop, .isEmpty, .len]

/-- The theorem at that history. -/
theorem answers_eq_queue_wrapAround :
    ∃ last, (ringBuffer ℕ).run ⟨List.replicate 2 none, 2, 0, 0, 0⟩ wrapAround =
        some (last, ((BoundedQueue.empty 2 ℕ).after wrapAround).2) ∧
      Holds 2 last ((BoundedQueue.empty 2 ℕ).after wrapAround).1.items :=
  answers_eq_queue (by decide)
    (show new ⟨8, 8⟩ (fun _ ↦ true) 2 = .ok ⟨List.replicate 2 none, 2, 0, 0, 0⟩ from rfl) wrapAround

end DailyChallenge.HeapRingBuffer
