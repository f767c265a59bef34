import Mathlib
import DailyChallenge.ArenaAllocator.Arena

/-!
# When an arena refuses a request

`arena.h` asks of a caller only that the alignment is a power of two. `anyCalls` is an arena under
use with requests of any size. The exhaustion test compares a sum in words with the capacity:
`refusesExactly_iff` shows that it is right as long as the sum does not wrap to an offset within the
capacity. There the arena hands out the next address although the request does not fit, and its
offset moves to wherever the sum ends up.
-/

set_option autoImplicit false
set_option relaxedAutoImplicit false

namespace DailyChallenge.ArenaAllocator

open Library

/-- A call as the contract of `arena.h` permits it, and what it does. -/
def AnyStep (a : Arena) : Call → Arena → Prop
  | .alloc size align result, next =>
    align.toNat.isPowerOfTwo ∧ arenaAlloc a size align = (next, result)
  | .reset, next => arenaReset a = next

/-- An arena made by `arena_create` on the region that `VirtualAlloc` returned, under any sequence
of calls with requests of any size. -/
def anyCalls (lpvResult capacity : Word) : TransitionSystem Arena Call where
  Start a := arenaCreate lpvResult capacity = some a
  Step := AnyStep

/-- What every arena keeps, whatever is requested from it. -/
structure WithinRegion (base capacity : Word) (a : Arena) : Prop where
  base_eq : a.base = base
  base_ne : base ≠ null
  capacity_eq : a.capacity = capacity
  offset_le : a.offset.toNat ≤ max sizeofArena.toNat capacity.toNat

variable {base capacity : Word} {a next : Arena}

theorem WithinRegion.step (h : WithinRegion base capacity a) {call : Call}
    (hstep : AnyStep a call next) : WithinRegion base capacity next := by
  cases call with
  | alloc size align result =>
    obtain ⟨-, halloc⟩ := hstep
    rw [arenaAlloc] at halloc
    split_ifs at halloc with hfull
    · cases halloc
      exact h
    · cases halloc
      rw [gt_iff_lt, BitVec.lt_def, not_lt, h.capacity_eq] at hfull
      exact ⟨h.base_eq, h.base_ne, h.capacity_eq, le_max_of_le_right hfull⟩
  | reset =>
    obtain rfl : arenaReset a = next := hstep
    exact ⟨h.base_eq, h.base_ne, h.capacity_eq, le_max_left _ _⟩

theorem withinRegion_run {trace : List Call} (hrun : (anyCalls base capacity).Run trace a) :
    WithinRegion base capacity a := by
  refine hrun.invariant ?_ ?_
  · intro a hstart
    replace hstart : arenaCreate base capacity = some a := hstart
    unfold arenaCreate at hstart
    split_ifs at hstart with hnull
    cases hstart
    exact ⟨rfl, hnull, rfl, le_max_left _ _⟩
  · intro _ a call next _ h hstep
    exact h.step hstep

/-- Where the next block with an alignment would start, counted from the base. -/
def alignedOffset (a : Arena) (align : Word) : ℕ :=
  alignUp (a.base.toNat + a.offset.toNat) align.toNat - a.base.toNat

/-- The request is refused exactly when it does not fit, and granted without moving the offset
back. -/
def RefusesExactly (a : Arena) (size align : Word) : Prop :=
  ((arenaAlloc a size align).2 = null ↔
    a.base.toNat + a.capacity.toNat <
      alignUp (a.base.toNat + a.offset.toNat) align.toNat + size.toNat) ∧
  ((arenaAlloc a size align).2 ≠ null →
    a.offset.toNat ≤ (arenaAlloc a size align).1.offset.toNat)

/-- In every state that an arena can reach, a request is refused exactly when it does not fit, and
else granted without moving the offset back, if and only if the sum of its size and the place of its
block stays below `2 ^ 64` or wraps to an offset beyond the capacity. -/
theorem refusesExactly_iff (hspace : base.toNat + capacity.toNat ≤ 2 ^ 47) {trace : List Call}
    (hrun : (anyCalls base capacity).Run trace a) (size align : Word)
    (halign : align.toNat.isPowerOfTwo) :
    RefusesExactly a size align ↔
      alignedOffset a align + size.toNat < 2 ^ 64 ∨
        a.capacity.toNat < alignedOffset a align + size.toNat - 2 ^ 64 := by
  have h := withinRegion_run hrun
  have hpos : 0 < align.toNat := Nat.pos_of_isPowerOfTwo halign
  have hbound : align.toNat ≤ 2 ^ 63 := toNat_le_of_isPowerOfTwo halign
  have hoffset := h.offset_le
  have hheader : sizeofArena.toNat = 24 := rfl
  have hbase : a.base.toNat = base.toNat := by rw [h.base_eq]
  have hcapacity : a.capacity.toNat = capacity.toNat := by rw [h.capacity_eq]
  have hbase_pos : 0 < base.toNat := by
    by_contra hzero
    exact h.base_ne (BitVec.eq_of_toNat_eq (Nat.eq_zero_of_not_pos hzero))
  have hle := le_alignUp hpos (a.base.toNat + a.offset.toNat)
  have hlt := alignUp_lt hpos (a.base.toNat + a.offset.toNat)
  obtain ⟨address, newOffset, haddress, hnew, -, halloc⟩ :=
    arenaAlloc_wrapped a size halign (by omega)
  have hnull : address ≠ null := by
    rintro rfl
    have hzero : (null : Word).toNat = 0 := rfl
    omega
  have hsize := size.isLt
  have haligned : alignedOffset a align = address.toNat - a.base.toNat := by
    rw [alignedOffset, haddress]
  rw [haligned]
  unfold RefusesExactly
  rw [halloc, ← haddress]
  by_cases hfull : a.capacity.toNat < newOffset.toNat
  · rw [if_pos hfull]
    have hexceeds : a.base.toNat + a.capacity.toNat < address.toNat + size.toNat := by omega
    refine iff_of_true ⟨iff_of_true rfl hexceeds, fun hsome ↦ absurd rfl hsome⟩ ?_
    omega
  · rw [if_neg hfull]
    show (address = null ↔ _) ∧ (address ≠ null → a.offset.toNat ≤ newOffset.toNat) ↔ _
    rw [iff_false_left hnull, imp_iff_right hnull]
    omega

/-- A fresh arena of one page that is asked for 64 bytes. -/
theorem refusesExactly_iff_fresh :
    RefusesExactly ⟨0x10000, 4096, 24⟩ 64 8 ↔
      alignedOffset ⟨0x10000, 4096, 24⟩ 8 + (64 : Word).toNat < 2 ^ 64 ∨
        (4096 : Word).toNat < alignedOffset ⟨0x10000, 4096, 24⟩ 8 + (64 : Word).toNat - 2 ^ 64 :=
  @refusesExactly_iff 0x10000 4096 _ (by decide) [] (.start rfl) 64 8 ⟨3, rfl⟩

/-- The same arena grants a request of `2 ^ 64 - 8` bytes and moves its offset back to 16, inside
its own header. -/
theorem not_refusesExactly_fresh :
    (anyCalls 0x10000 4096).Run [] ⟨0x10000, 4096, 24⟩ ∧
      arenaAlloc ⟨0x10000, 4096, 24⟩ (-8) 8 = (⟨0x10000, 4096, 16⟩, 0x10018) ∧
      ¬ RefusesExactly ⟨0x10000, 4096, 24⟩ (-8) 8 := by
  have halloc : arenaAlloc ⟨0x10000, 4096, 24⟩ (-8) 8 = (⟨0x10000, 4096, 16⟩, 0x10018) := by rfl
  refine ⟨.start rfl, halloc, fun h ↦ ?_⟩
  have hmoved := h.2
  rw [halloc] at hmoved
  exact absurd (hmoved (by decide)) (by decide)

end DailyChallenge.ArenaAllocator
