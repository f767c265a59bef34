import Mathlib
import DailyChallenge.Library.AlignUp
import DailyChallenge.Library.Runs

/-!
# The arena allocator

`01-arena_allocator/arena.c` in words of 64 bits: `size_t` and `uintptr_t` arithmetic wraps, and the
null pointer is the word 0. `VirtualAlloc` may fail or return any base. `arenaCalls` is an arena
under use: any sequence of resets and of allocations with a power of two as alignment and a size of
at most the capacity.
-/

set_option autoImplicit false
set_option relaxedAutoImplicit false

namespace DailyChallenge.ArenaAllocator

open Library

/-- `size_t` and `uintptr_t`. -/
abbrev Word := BitVec 64

/-- `NULL`. -/
def null : Word := 0

/-- `Arena`; the structure itself lies at the base of its region. -/
structure Arena where
  base : Word
  capacity : Word
  offset : Word

/-- `sizeof(Arena)`: a pointer and two sizes. -/
def sizeofArena : Word := 24

/-- `arena_create`, given the result of `VirtualAlloc`. -/
def arenaCreate (lpvResult capacity : Word) : Option Arena :=
  if lpvResult ≠ null then
    some { base := lpvResult, capacity := capacity, offset := sizeofArena }
  else none

/-- `arena_alloc`, with the pointer it returns. -/
def arenaAlloc (a : Arena) (size align : Word) : Arena × Word :=
  let bump := a.base + a.offset
  let bump := (bump + align - 1) &&& ~~~(align - 1)
  let newOffset := (bump - a.base) + size
  if newOffset > a.capacity then (a, null) else ({ a with offset := newOffset }, bump)

/-- `arena_reset`. -/
def arenaReset (a : Arena) : Arena := { a with offset := sizeofArena }

/-- A call on an arena, with the pointer an allocation returned. -/
inductive Call
  | alloc (size align result : Word)
  | reset

/-- A call that a caller may make, and what it does. -/
def Step (a : Arena) : Call → Arena → Prop
  | .alloc size align result, next =>
    align.toNat.isPowerOfTwo ∧ size ≤ a.capacity ∧ arenaAlloc a size align = (next, result)
  | .reset, next => arenaReset a = next

/-- An arena made by `arena_create` on the region that `VirtualAlloc` returned, under any sequence
of calls. -/
def arenaCalls (lpvResult capacity : Word) : TransitionSystem Arena Call where
  Start a := arenaCreate lpvResult capacity = some a
  Step := Step

/-- A run goes on with any allocation a caller may make. -/
theorem run_alloc {lpvResult capacity : Word} {trace : List Call} {a : Arena}
    (hrun : (arenaCalls lpvResult capacity).Run trace a) (size align : Word)
    (halign : align.toNat.isPowerOfTwo) (hsize : size ≤ a.capacity) :
    (arenaCalls lpvResult capacity).Run (trace ++ [.alloc size align (arenaAlloc a size align).2])
      (arenaAlloc a size align).1 :=
  hrun.step ⟨halign, hsize, rfl⟩

/-- A run goes on with a reset. -/
theorem run_reset {lpvResult capacity : Word} {trace : List Call} {a : Arena}
    (hrun : (arenaCalls lpvResult capacity).Run trace a) :
    (arenaCalls lpvResult capacity).Run (trace ++ [.reset]) (arenaReset a) :=
  hrun.step rfl

/-! ### What an allocation does -/

/-- An allocation computes the next aligned address, and the offset after the block modulo
`2 ^ 64`. It returns null and leaves the arena as it is when that offset is beyond the capacity. -/
theorem arenaAlloc_wrapped (a : Arena) (size : Word) {align : Word}
    (halign : align.toNat.isPowerOfTwo)
    (hbump : a.base.toNat + a.offset.toNat + align.toNat < 2 ^ 64) :
    ∃ address newOffset : Word,
      address.toNat = alignUp (a.base.toNat + a.offset.toNat) align.toNat ∧
      newOffset.toNat = (address.toNat - a.base.toNat + size.toNat) % 2 ^ 64 ∧
      newOffset = address - a.base + size ∧
      arenaAlloc a size align =
        if a.capacity.toNat < newOffset.toNat then (a, null)
        else ({ a with offset := newOffset }, address) := by
  have hpos : 0 < align.toNat := Nat.pos_of_isPowerOfTwo halign
  have hsum : (a.base + a.offset).toNat = a.base.toNat + a.offset.toNat :=
    BitVec.toNat_add_of_lt (by omega)
  have haddress := toNat_maskUp halign
    (show (a.base + a.offset).toNat + align.toNat < 2 ^ 64 by omega)
  rw [hsum] at haddress
  have hle := le_alignUp hpos (a.base.toNat + a.offset.toNat)
  generalize hword : (a.base + a.offset + align - 1) &&& ~~~(align - 1) = address at haddress
  refine ⟨address, address - a.base + size, haddress, ?_, rfl, ?_⟩
  · have hsub : (address - a.base).toNat = address.toNat - a.base.toNat :=
      BitVec.toNat_sub_of_le (by rw [BitVec.le_def]; omega)
    rw [BitVec.toNat_add, hsub]
  · rw [arenaAlloc]
    rw [hword]
    exact if_congr BitVec.lt_def rfl rfl

/-- Where nothing wraps, an allocation returns the next aligned address if the block ends within the
region, and else null and leaves the arena as it is. -/
theorem arenaAlloc_eq (a : Arena) (size : Word) {align : Word} (halign : align.toNat.isPowerOfTwo)
    (hbump : a.base.toNat + a.offset.toNat + align.toNat < 2 ^ 64)
    (hend : alignUp (a.base.toNat + a.offset.toNat) align.toNat - a.base.toNat + size.toNat <
      2 ^ 64) :
    ∃ address : Word,
      address.toNat = alignUp (a.base.toNat + a.offset.toNat) align.toNat ∧
      arenaAlloc a size align =
        if a.base.toNat + a.capacity.toNat < address.toNat + size.toNat then (a, null)
        else ({ a with offset := address - a.base + size }, address) := by
  obtain ⟨address, newOffset, haddress, hoffset, rfl, halloc⟩ :=
    arenaAlloc_wrapped a size halign hbump
  have hle := le_alignUp (Nat.pos_of_isPowerOfTwo halign) (a.base.toNat + a.offset.toNat)
  refine ⟨address, haddress, halloc.trans (if_congr ?_ rfl rfl)⟩
  rw [hoffset, Nat.mod_eq_of_lt (by rwa [haddress])]
  omega

end DailyChallenge.ArenaAllocator
