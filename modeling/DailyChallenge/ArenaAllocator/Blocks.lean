import Mathlib
import DailyChallenge.ArenaAllocator.Arena

/-!
# The blocks of an arena

`blocks` are the blocks handed out since the last reset of a trace. `Holds` is the invariant of an
arena under use: base and capacity are those of the region, every block is aligned and ends before
the offset, and each ends before the next begins. `Holds.step` is the step lemma; `blocks_run` the
result along every run.
-/

set_option autoImplicit false
set_option relaxedAutoImplicit false

namespace DailyChallenge.ArenaAllocator

open Library

/-- A block that was handed out. -/
structure Block where
  address : Word
  size : Word
  align : Word

/-- The first address after a block, as a number. -/
def Block.last (block : Block) : ℕ := block.address.toNat + block.size.toNat

/-- No byte is in both blocks. -/
def Block.Disjoint (first second : Block) : Prop :=
  first.last ≤ second.address.toNat ∨ second.last ≤ first.address.toNat

/-- The block of a call is added, and a reset takes all blocks back. -/
def addCall (blocks : List Block) : Call → List Block
  | .alloc size align result => if result = null then blocks else blocks ++ [⟨result, size, align⟩]
  | .reset => []

/-- The blocks handed out since the last reset. -/
def blocks (trace : List Call) : List Block := trace.foldl addCall []

theorem blocks_append (trace : List Call) (call : Call) :
    blocks (trace ++ [call]) = addCall (blocks trace) call := by
  rw [blocks, List.foldl_append]
  rfl

/-- A block is aligned and lies in the region after the header. -/
structure Block.InRegion (base capacity : Word) (block : Block) : Prop where
  aligned : block.align.toNat ∣ block.address.toNat
  after_header : base.toNat + sizeofArena.toNat ≤ block.address.toNat
  before_end : block.last ≤ base.toNat + capacity.toNat

/-- The invariant of an arena with the listed blocks. -/
structure Holds (base capacity : Word) (listed : List Block) (a : Arena) : Prop where
  base_eq : a.base = base
  capacity_eq : a.capacity = capacity
  header_le : sizeofArena.toNat ≤ a.offset.toNat
  offset_le : a.offset.toNat ≤ max sizeofArena.toNat capacity.toNat
  inRegion : ∀ block ∈ listed, block.InRegion base capacity
  last_le : ∀ block ∈ listed, block.last ≤ base.toNat + a.offset.toNat
  ordered : listed.Pairwise fun earlier later ↦ earlier.last ≤ later.address.toNat

variable {base capacity : Word} {listed : List Block} {a next : Arena}

/-- An arena just created has no blocks. -/
theorem holds_arenaCreate (h : arenaCreate base capacity = some a) : Holds base capacity [] a := by
  unfold arenaCreate at h
  split_ifs at h
  cases h
  constructor
  case base_eq => rfl
  case capacity_eq => rfl
  case header_le => exact le_rfl
  case offset_le => exact le_max_left _ _
  case inRegion => exact fun block hblock ↦ absurd hblock List.not_mem_nil
  case last_le => exact fun block hblock ↦ absurd hblock List.not_mem_nil
  case ordered => exact .nil

/-- A reset takes all blocks back. -/
theorem Holds.reset (h : Holds base capacity listed a) : Holds base capacity [] (arenaReset a) where
  base_eq := h.base_eq
  capacity_eq := h.capacity_eq
  header_le := le_rfl
  offset_le := le_max_left _ _
  inRegion _ hblock := absurd hblock List.not_mem_nil
  last_le _ hblock := absurd hblock List.not_mem_nil
  ordered := .nil

/-- A block between the offset of an arena and the end of its region is added to the others, with
the offset moved to its end. -/
theorem Holds.extend (h : Holds base capacity listed a) {block : Block} {offset : Word}
    (haligned : block.align.toNat ∣ block.address.toNat)
    (hstart : base.toNat + a.offset.toNat ≤ block.address.toNat)
    (hend : block.last ≤ base.toNat + capacity.toNat)
    (hoffset : base.toNat + offset.toNat = block.last) :
    Holds base capacity (listed ++ [block]) { a with offset := offset } := by
  have hlast : block.address.toNat ≤ block.last := Nat.le_add_right _ _
  have hheader := h.header_le
  constructor
  case base_eq => exact h.base_eq
  case capacity_eq => exact h.capacity_eq
  case header_le =>
    show sizeofArena.toNat ≤ offset.toNat
    omega
  case offset_le =>
    show offset.toNat ≤ _
    apply le_max_of_le_right
    omega
  case inRegion =>
    intro other hother
    rcases List.mem_append.mp hother with hold | hnew
    · exact h.inRegion other hold
    · obtain rfl := List.mem_singleton.mp hnew
      exact ⟨haligned, by omega, hend⟩
  case last_le =>
    intro other hother
    show other.last ≤ base.toNat + offset.toNat
    rcases List.mem_append.mp hother with hold | hnew
    · have hother := h.last_le other hold
      omega
    · obtain rfl := List.mem_singleton.mp hnew
      omega
  case ordered =>
    rw [List.pairwise_append]
    refine ⟨h.ordered, List.pairwise_singleton _ _, fun earlier hearlier later hlater ↦ ?_⟩
    obtain rfl := List.mem_singleton.mp hlater
    exact (h.last_le earlier hearlier).trans hstart

/-- An allocation either returns null and leaves the arena as it is, or adds an aligned block. -/
theorem Holds.alloc (h : Holds base capacity listed a)
    (hspace : base.toNat + capacity.toNat ≤ 2 ^ 47) {size align result : Word}
    (halign : align.toNat.isPowerOfTwo) (hsize : size ≤ capacity)
    (halloc : arenaAlloc a size align = (next, result)) :
    (result = null ∧ next = a) ∨
      (result ≠ null ∧ Holds base capacity (listed ++ [⟨result, size, align⟩]) next) := by
  have hpos : 0 < align.toNat := Nat.pos_of_isPowerOfTwo halign
  have hheader : sizeofArena.toNat = 24 := rfl
  have hstart := h.header_le
  have hoffset := h.offset_le
  have hsize' : size.toNat ≤ capacity.toNat := hsize
  have hbound : align.toNat ≤ 2 ^ 63 := toNat_le_of_isPowerOfTwo halign
  have hle := le_alignUp hpos (a.base.toNat + a.offset.toNat)
  have hlt := alignUp_lt hpos (a.base.toNat + a.offset.toNat)
  have hbase : a.base.toNat = base.toNat := by rw [h.base_eq]
  obtain ⟨address, haddress, heq⟩ := arenaAlloc_eq a size halign (by omega) (by omega)
  rw [heq, h.capacity_eq] at halloc
  by_cases hfull : a.base.toNat + capacity.toNat < address.toNat + size.toNat
  · rw [if_pos hfull] at halloc
    cases halloc
    exact Or.inl ⟨rfl, rfl⟩
  · rw [if_neg hfull] at halloc
    cases halloc
    have hnull : result ≠ null := by
      rintro rfl
      have hzero : (null : Word).toNat = 0 := rfl
      omega
    have haligned : align.toNat ∣ result.toNat := by
      rw [haddress]
      exact alignUp_dvd _ _
    have hend : base.toNat + (result - a.base + size).toNat = result.toNat + size.toNat := by
      have hsub : (result - a.base).toNat = result.toNat - a.base.toNat :=
        BitVec.toNat_sub_of_le (by rw [BitVec.le_def]; omega)
      rw [BitVec.toNat_add_of_lt (by omega), hsub]
      omega
    have hextend := @Holds.extend base capacity listed a h ⟨result, size, align⟩ _ haligned
      (show base.toNat + a.offset.toNat ≤ result.toNat by omega)
      (show result.toNat + size.toNat ≤ base.toNat + capacity.toNat by omega) hend
    exact Or.inr ⟨hnull, by simpa only [h.capacity_eq] using hextend⟩

/-- Every call keeps the invariant, for the blocks after it. -/
theorem Holds.step (h : Holds base capacity listed a)
    (hspace : base.toNat + capacity.toNat ≤ 2 ^ 47) {call : Call} (hstep : Step a call next) :
    Holds base capacity (addCall listed call) next := by
  cases call with
  | alloc size align result =>
    obtain ⟨halign, hsize, halloc⟩ := hstep
    rw [h.capacity_eq] at hsize
    rcases h.alloc hspace halign hsize halloc with ⟨hnull, rfl⟩ | ⟨hsome, hnext⟩
    · rwa [addCall, if_pos hnull]
    · rwa [addCall, if_neg hsome]
  | reset =>
    obtain rfl : arenaReset a = next := hstep
    exact h.reset

/-- Along every run the arena keeps the invariant for the blocks since the last reset. -/
theorem holds_run (hspace : base.toNat + capacity.toNat ≤ 2 ^ 47) {trace : List Call}
    (hrun : (arenaCalls base capacity).Run trace a) : Holds base capacity (blocks trace) a := by
  apply hrun.traceInvariant
  · intro a hstart
    exact holds_arenaCreate hstart
  · intro trace a call next _ hholds hstep
    rw [blocks_append]
    exact hholds.step hspace hstep

/-- Along every run the blocks since the last reset are aligned, lie in the region after the header
and are pairwise disjoint, an allocation that returns null leaves the arena as it is, and base and
capacity stay what they were. -/
theorem blocks_run (hspace : base.toNat + capacity.toNat ≤ 2 ^ 47) {trace : List Call}
    (hrun : (arenaCalls base capacity).Run trace a) :
    a.base = base ∧ a.capacity = capacity ∧
      (∀ block ∈ blocks trace, block.InRegion base capacity) ∧
      (blocks trace).Pairwise Block.Disjoint ∧
      ∀ size align next, Step a (.alloc size align null) next → next = a := by
  have h := holds_run hspace hrun
  refine ⟨h.base_eq, h.capacity_eq, h.inRegion, h.ordered.imp Or.inl, ?_⟩
  rintro size align next ⟨halign, hsize, halloc⟩
  rw [h.capacity_eq] at hsize
  rcases h.alloc hspace halign hsize halloc with ⟨-, hsame⟩ | ⟨hsome, -⟩
  · exact hsame
  · exact absurd rfl hsome

/-- Two small allocations, a reset, two aligned ones and one that does not fit, in a page at
0x10000. -/
def cycle : List Call :=
  [.alloc 1 1 0x10018, .alloc 3 4 0x1001C, .reset, .alloc 33 64 0x10040, .alloc 5 8 0x10068,
    .alloc 4096 1 null]

theorem cycle_run : (arenaCalls 0x10000 4096).Run cycle ⟨0x10000, 4096, 0x6D⟩ := by
  have h : (arenaCalls 0x10000 4096).Run [] ⟨0x10000, 4096, 24⟩ := .start rfl
  have h := run_alloc h 1 1 ⟨0, rfl⟩ (by decide)
  have h := run_alloc h 3 4 ⟨2, rfl⟩ (by decide)
  have h := run_reset h
  have h := run_alloc h 33 64 ⟨6, rfl⟩ (by decide)
  have h := run_alloc h 5 8 ⟨3, rfl⟩ (by decide)
  exact run_alloc h 4096 1 ⟨0, rfl⟩ (by decide)

/-- The theorem at that run, with two blocks since the reset. -/
theorem blocks_run_cycle :
    (0x10000 : Word) = 0x10000 ∧ (4096 : Word) = 4096 ∧
      (∀ block ∈ blocks cycle, block.InRegion 0x10000 4096) ∧
      (blocks cycle).Pairwise Block.Disjoint ∧
      ∀ size align next, Step ⟨0x10000, 4096, 0x6D⟩ (.alloc size align null) next →
        next = ⟨0x10000, 4096, 0x6D⟩ :=
  blocks_run (by decide) cycle_run

end DailyChallenge.ArenaAllocator
