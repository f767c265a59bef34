import Mathlib
import DailyChallenge.Library.Machine

/-!
# The heap-allocated ring buffer

`13-heap_ring_buffer/src/lib.rs`. A slot of the buffer holds a value once one was written, and the
bits of the value stay in it when the value is read out. An access that is outside the allocation,
or that assumes a value in a slot never written, has no result here. `usize` arithmetic is reduced
modulo `2 ^ 64`.

What `ptr.drop_in_place()` does depends on the type the pointer has: the drop glue of `T` runs the
destructor of the value, and `MaybeUninit<T>` has none.
-/

set_option autoImplicit false
set_option relaxedAutoImplicit false

namespace DailyChallenge.HeapRingBuffer

open Library

/-- The numbers a `usize` can hold. -/
def usizeRange : ℕ := 2 ^ 64

/-- The value of a sum in a `usize`. -/
def usize (n : ℕ) : ℕ := n % usizeRange

theorem usize_of_lt {n : ℕ} (h : n < usizeRange) : usize n = n := Nat.mod_eq_of_lt h

/-! ### Construction -/

/-- `Layout`: the size and alignment of a type or an allocation. -/
structure Layout where
  size : ℕ
  align : ℕ

/-- `Layout::array` for elements of a given layout, or nothing where it returns an error: the size
rounded up to the alignment may not exceed `isize::MAX`. -/
def Layout.array (element : Layout) (n : ℕ) : Option Layout :=
  if element.size ≠ 0 ∧ (2 ^ 63 - element.align) / element.size < n then none
  else some ⟨element.size * n, element.align⟩

/-- `RingBuffer<T>`: the slots behind `buf`, and the four counters. -/
structure RingBuffer (T : Type*) where
  buf : List (Option T)
  cap : ℕ
  head : ℕ
  tail : ℕ
  len : ℕ

/-- The panics of `RingBuffer::new`: "Capacity cannot be zero", "launch overflow" and "NotNull new
allocation failed". -/
inductive Panic
  | zeroCapacity
  | launchOverflow
  | allocationFailed

section

variable {T : Type*}

/-- `RingBuffer::new`, for elements of a given layout and an allocator that may return null. -/
def new (element : Layout) (alloc : Layout → Bool) (capacity : ℕ) : Except Panic (RingBuffer T) :=
  if capacity = 0 then .error .zeroCapacity
  else
    match element.array capacity with
    | none => .error .launchOverflow
    | some layout =>
      if alloc layout then
        .ok { buf := List.replicate capacity none, cap := capacity, head := 0, tail := 0, len := 0 }
      else .error .allocationFailed

/-- A buffer that was constructed has a positive capacity and nothing in it. -/
theorem eq_of_new_eq_ok {element : Layout} {alloc : Layout → Bool} {capacity : ℕ}
    {buffer : RingBuffer T} (h : new element alloc capacity = .ok buffer) :
    0 < capacity ∧ (element.array capacity).isSome ∧
      buffer = ⟨List.replicate capacity none, capacity, 0, 0, 0⟩ := by
  unfold new at h
  split_ifs at h with hzero
  cases hlayout : element.array capacity with
  | none =>
    rw [hlayout] at h
    cases h
  | some layout =>
    rw [hlayout] at h
    dsimp only at h
    split_ifs at h
    cases h
    exact ⟨Nat.pos_of_ne_zero hzero, rfl, rfl⟩

/-! ### Push and pop -/

namespace RingBuffer

/-- `buf.as_ptr().add(index).write(MaybeUninit::new(val))`. -/
def write (buf : List (Option T)) (index : ℕ) (val : T) : Option (List (Option T)) :=
  if index < buf.length then some (buf.set index (some val)) else none

/-- `buf.as_ptr().add(index).read().assume_init()`. -/
def read (buf : List (Option T)) (index : ℕ) : Option T :=
  buf[index]?.join

def isEmpty (buffer : RingBuffer T) : Bool := buffer.len == 0

def isFull (buffer : RingBuffer T) : Bool := buffer.len == buffer.cap

/-- `push`, with its result. -/
def push (buffer : RingBuffer T) (val : T) : Option (RingBuffer T × Except T Unit) :=
  if buffer.isFull then some (buffer, .error val)
  else do
    let buf ← write buffer.buf buffer.head val
    return ({ buffer with
      buf := buf
      head := usize (buffer.head + 1) % buffer.cap
      len := usize (buffer.len + 1) }, .ok ())

/-- `pop`, with its result. -/
def pop (buffer : RingBuffer T) : Option (RingBuffer T × Option T) :=
  if buffer.isEmpty then some (buffer, none)
  else do
    let val ← read buffer.buf buffer.tail
    return ({ buffer with
      tail := usize (buffer.tail + 1) % buffer.cap
      len := buffer.len - 1 }, some val)

end RingBuffer

/-- A call on the buffer. -/
inductive Op (T : Type*)
  | push (val : T)
  | pop
  | len
  | isEmpty
  | isFull

/-- What a call returns. -/
inductive Answer (T : Type*)
  | pushed (result : Except T Unit)
  | popped (result : Option T)
  | length (len : ℕ)
  | flag (value : Bool)

/-- The buffer as a machine that is called and answers. -/
def ringBuffer (T : Type*) : Machine (RingBuffer T) (Op T) (Answer T) where
  step buffer
    | .push val => (buffer.push val).map fun next ↦ (next.1, .pushed next.2)
    | .pop => buffer.pop.map fun next ↦ (next.1, .popped next.2)
    | .len => some (buffer, .length buffer.len)
    | .isEmpty => some (buffer, .flag buffer.isEmpty)
    | .isFull => some (buffer, .flag buffer.isFull)

/-! ### Drop -/

/-- The type a pointer to a slot has: `*mut MaybeUninit<T>` or `*mut T`. -/
inductive Pointee
  | maybeUninit
  | value

namespace RingBuffer

/-- `buf.as_ptr().add(index).drop_in_place()`: the values whose destructor runs. -/
def dropInPlace (buf : List (Option T)) (index : ℕ) : Pointee → Option (List T)
  | .maybeUninit => if index < buf.length then some [] else none
  | .value => (read buf index).map fun val ↦ [val]

/-- The loop of `drop` over the live elements, with the values whose destructor runs. -/
def dropElements (pointee : Pointee) (buffer : RingBuffer T) : Option (List T) :=
  ((List.range buffer.len).mapM fun i ↦
    dropInPlace buffer.buf (usize (buffer.tail + i) % buffer.cap) pointee).map List.flatten

/-- `Drop for RingBuffer`: the values whose destructor runs and the layout handed to `dealloc`. The
pointer the loop drops through is `buf.as_ptr().add(idx)`, of type `*mut MaybeUninit<T>`. -/
def drop (element : Layout) (buffer : RingBuffer T) : Option (List T × Layout) :=
  (buffer.dropElements .maybeUninit).bind fun destroyed ↦
    (element.array buffer.cap).map fun layout ↦ (destroyed, layout)

end RingBuffer

end

end DailyChallenge.HeapRingBuffer
