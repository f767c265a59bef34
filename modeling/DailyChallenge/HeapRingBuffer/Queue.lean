import Mathlib
import DailyChallenge.HeapRingBuffer.Buffer

/-!
# The bounded queue

What the ring buffer is for: a list of at most `capacity` values, the oldest first. A push appends
while there is room, a pop takes the oldest value. `accepted_eq_returned_append` is the law of the
queue: the values pushes accepted are, in order, the values pops returned and then the values still
held.
-/

set_option autoImplicit false
set_option relaxedAutoImplicit false

namespace DailyChallenge.HeapRingBuffer

open Library

/-- A list of at most `capacity` values, the oldest first. -/
structure BoundedQueue (capacity : ℕ) (T : Type*) where
  items : List T
  fits : items.length ≤ capacity

section

variable {capacity : ℕ} {T : Type*}

namespace BoundedQueue

def empty (capacity : ℕ) (T : Type*) : BoundedQueue capacity T := ⟨[], Nat.zero_le _⟩

/-- Append a value while fewer than `capacity` are held, else return it. -/
def push (queue : BoundedQueue capacity T) (val : T) : BoundedQueue capacity T × Except T Unit :=
  if h : queue.items.length < capacity then
    (⟨queue.items ++ [val], by simpa using h⟩, .ok ())
  else (queue, .error val)

/-- Take the oldest value, if there is one. -/
def pop : BoundedQueue capacity T → BoundedQueue capacity T × Option T
  | ⟨[], fits⟩ => (⟨[], fits⟩, none)
  | ⟨val :: rest, fits⟩ => (⟨rest, (Nat.le_succ _).trans fits⟩, some val)

/-- One call on the queue. -/
def call (queue : BoundedQueue capacity T) : Op T → BoundedQueue capacity T × Answer T
  | .push val => ((queue.push val).1, .pushed (queue.push val).2)
  | .pop => (queue.pop.1, .popped queue.pop.2)
  | .len => (queue, .length queue.items.length)
  | .isEmpty => (queue, .flag (queue.items.length == 0))
  | .isFull => (queue, .flag (queue.items.length == capacity))

/-- The queue after a history of calls, and the answers. -/
def after (queue : BoundedQueue capacity T) :
    List (Op T) → BoundedQueue capacity T × List (Answer T)
  | [] => (queue, [])
  | op :: history =>
    let next := queue.call op
    ((next.1.after history).1, next.2 :: (next.1.after history).2)

end BoundedQueue

/-- The bounded queue as a machine; every call is defined. -/
def boundedQueue (capacity : ℕ) (T : Type*) :
    Machine (BoundedQueue capacity T) (Op T) (Answer T) where
  step queue op := some (queue.call op)

theorem run_boundedQueue (queue : BoundedQueue capacity T) (history : List (Op T)) :
    (boundedQueue capacity T).run queue history = some (queue.after history) := by
  induction history generalizing queue with
  | nil => rfl
  | cons op history ih =>
    have hstep : (boundedQueue capacity T).step queue op =
        some ((queue.call op).1, (queue.call op).2) := rfl
    rw [Machine.run_cons hstep, ih]
    rfl

/-! ### Conservation -/

/-- The value a call handed over for good. -/
def Answer.accepted : Op T → Answer T → Option T
  | .push val, .pushed (.ok ()) => some val
  | _, _ => none

/-- The value an answer hands back from a pop. -/
def Answer.returned : Answer T → Option T
  | .popped result => result
  | _ => none

/-- The values pushes accepted, in order. -/
def accepted (history : List (Op T)) (answers : List (Answer T)) : List T :=
  (history.zip answers).filterMap fun call ↦ Answer.accepted call.1 call.2

/-- The values pops returned, in order. -/
def returned (answers : List (Answer T)) : List T :=
  answers.filterMap Answer.returned

/-- The law of one call. -/
theorem BoundedQueue.items_call (queue : BoundedQueue capacity T) (op : Op T) :
    queue.items ++ (Answer.accepted op (queue.call op).2).toList =
      (queue.call op).2.returned.toList ++ (queue.call op).1.items := by
  cases op with
  | push val =>
    by_cases h : queue.items.length < capacity
    · simp [call, push, h, Answer.accepted, Answer.returned]
    · simp [call, push, h, Answer.accepted, Answer.returned]
  | pop =>
    obtain ⟨items, fits⟩ := queue
    cases items with
    | nil => rfl
    | cons val rest => simp [call, pop, Answer.accepted, Answer.returned]
  | len => simp [call, Answer.accepted, Answer.returned]
  | isEmpty => simp [call, Answer.accepted, Answer.returned]
  | isFull => simp [call, Answer.accepted, Answer.returned]

/-- First in, first out: what was held and accepted is what was returned and is still held, in
order. -/
theorem BoundedQueue.items_after (queue : BoundedQueue capacity T) (history : List (Op T)) :
    queue.items ++ accepted history (queue.after history).2 =
      returned (queue.after history).2 ++ (queue.after history).1.items := by
  induction history generalizing queue with
  | nil => simp [after, accepted, returned]
  | cons op history ih =>
    have hcall := queue.items_call op
    have haccepted : accepted (op :: history) (queue.after (op :: history)).2 =
        (Answer.accepted op (queue.call op).2).toList ++
          accepted history ((queue.call op).1.after history).2 := by
      rw [after, accepted, List.zip_cons_cons, List.filterMap_cons]
      cases Answer.accepted op (queue.call op).2 <;> rfl
    have hreturned : returned (queue.after (op :: history)).2 =
        (queue.call op).2.returned.toList ++
          returned ((queue.call op).1.after history).2 := by
      rw [after, returned, List.filterMap_cons]
      cases (queue.call op).2.returned <;> rfl
    calc queue.items ++ accepted (op :: history) (queue.after (op :: history)).2
        = (queue.call op).2.returned.toList ++ ((queue.call op).1.items ++
            accepted history ((queue.call op).1.after history).2) := by
          rw [haccepted, ← List.append_assoc, hcall, List.append_assoc]
      _ = returned (queue.after (op :: history)).2 ++ (queue.after (op :: history)).1.items := by
          rw [ih, hreturned, List.append_assoc]
          rfl

/-- The law for a queue that starts empty. -/
theorem accepted_eq_returned_append (history : List (Op T)) :
    accepted history ((BoundedQueue.empty capacity T).after history).2 =
      returned ((BoundedQueue.empty capacity T).after history).2 ++
        ((BoundedQueue.empty capacity T).after history).1.items :=
  (BoundedQueue.empty capacity T).items_after history

end

end DailyChallenge.HeapRingBuffer
