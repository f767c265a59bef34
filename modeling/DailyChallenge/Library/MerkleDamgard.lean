import Mathlib

/-!
# Merkle–Damgård streams

A compression function takes a chaining value and a block of fixed size. `hashBlocks` cuts a message
into blocks from its start and leaves the symbols after the last full one. A stream holds a chaining
value and the symbols that wait for their block to fill; absorbing a symbol compresses the block it
completes. The stream computes what cutting the whole message computes (`absorb_eq_hashBlocks`), so
that absorbing in pieces is absorbing at once (`absorb_append`). After a whole number of blocks
nothing waits, and the chaining value alone resumes the stream (`absorb_eq_chain`), which is what a
length extension uses.
-/

set_option autoImplicit false
set_option relaxedAutoImplicit false

namespace DailyChallenge.Library

/-- A compression function and the size of its blocks. -/
structure Compression (Chain Symbol : Type*) where
  blockSize : ℕ
  blockSize_pos : 0 < blockSize
  compress : Chain → List Symbol → Chain

/-- A chaining value and the symbols that wait for their block. -/
structure ChainStream (Chain Symbol : Type*) where
  chain : Chain
  pending : List Symbol

namespace Compression

variable {Chain Symbol : Type*} (compression : Compression Chain Symbol)

/-- The blocks of a message from its start; what does not fill a block waits. -/
def hashBlocks (chain : Chain) (message : List Symbol) : ChainStream Chain Symbol :=
  if _h : compression.blockSize ≤ message.length then
    hashBlocks (compression.compress chain (message.take compression.blockSize))
      (message.drop compression.blockSize)
  else ⟨chain, message⟩
termination_by message.length
decreasing_by
  have hpos := compression.blockSize_pos
  rw [List.length_drop]
  omega

/-- One symbol more; a block that is full is compressed. -/
def absorbOne (stream : ChainStream Chain Symbol) (symbol : Symbol) : ChainStream Chain Symbol :=
  if stream.pending.length + 1 = compression.blockSize then
    ⟨compression.compress stream.chain (stream.pending ++ [symbol]), []⟩
  else ⟨stream.chain, stream.pending ++ [symbol]⟩

/-- The symbols of a message, one after the other. -/
def absorb (stream : ChainStream Chain Symbol) (symbols : List Symbol) : ChainStream Chain Symbol :=
  symbols.foldl compression.absorbOne stream

@[simp] theorem absorb_nil (stream : ChainStream Chain Symbol) :
    compression.absorb stream [] = stream := rfl

/-- Absorbing in two calls is absorbing at once. -/
theorem absorb_append (stream : ChainStream Chain Symbol) (first second : List Symbol) :
    compression.absorb stream (first ++ second) =
      compression.absorb (compression.absorb stream first) second :=
  List.foldl_append

/-- The stream compresses the blocks that the whole message is cut into. -/
theorem absorb_eq_hashBlocks (chain : Chain) {pending : List Symbol} (symbols : List Symbol)
    (h : pending.length < compression.blockSize) :
    compression.absorb ⟨chain, pending⟩ symbols =
      compression.hashBlocks chain (pending ++ symbols) := by
  induction symbols generalizing chain pending with
  | nil =>
    rw [absorb_nil, List.append_nil, hashBlocks, dif_neg (not_le.mpr h)]
  | cons symbol rest ih =>
    show compression.absorb (compression.absorbOne ⟨chain, pending⟩ symbol) rest = _
    have hlength : (pending ++ [symbol]).length = pending.length + 1 := by
      rw [List.length_append, List.length_singleton]
    rw [List.append_cons]
    unfold absorbOne
    split_ifs with hfull
    · dsimp only at hfull ⊢
      have hlong : compression.blockSize ≤ (pending ++ [symbol] ++ rest).length := by
        rw [List.length_append]
        omega
      have hempty : ([] : List Symbol).length < compression.blockSize := compression.blockSize_pos
      rw [ih _ hempty, hashBlocks.eq_def compression chain, dif_pos hlong,
        List.take_left' (by omega), List.drop_left' (by omega), List.nil_append]
    · dsimp only at hfull ⊢
      exact ih chain (by omega)

/-- The symbols that wait are those after the last full block. -/
theorem length_pending_absorb {stream : ChainStream Chain Symbol} (symbols : List Symbol)
    (h : stream.pending.length < compression.blockSize) :
    (compression.absorb stream symbols).pending.length =
      (stream.pending.length + symbols.length) % compression.blockSize := by
  induction symbols generalizing stream with
  | nil => exact (Nat.mod_eq_of_lt h).symm
  | cons symbol rest ih =>
    show (compression.absorb (compression.absorbOne stream symbol) rest).pending.length = _
    unfold absorbOne
    rw [List.length_cons, ← add_assoc, add_right_comm]
    split_ifs with hfull
    · have hempty : ([] : List Symbol).length < compression.blockSize := compression.blockSize_pos
      refine Eq.trans (ih hempty) ?_
      rw [hfull, List.length_nil, zero_add, Nat.add_mod_left]
    · have hlength : (stream.pending ++ [symbol]).length = stream.pending.length + 1 := by
        rw [List.length_append, List.length_singleton]
      refine (ih (hlength.trans_lt (by omega))).trans ?_
      rw [hlength]

theorem length_pending_absorb_lt {stream : ChainStream Chain Symbol} (symbols : List Symbol)
    (h : stream.pending.length < compression.blockSize) :
    (compression.absorb stream symbols).pending.length < compression.blockSize := by
  rw [length_pending_absorb compression symbols h]
  exact Nat.mod_lt _ compression.blockSize_pos

/-- After a whole number of blocks the chaining value is all there is. -/
theorem absorb_eq_chain {stream : ChainStream Chain Symbol} {symbols : List Symbol}
    (h : stream.pending.length < compression.blockSize)
    (hblocks : compression.blockSize ∣ stream.pending.length + symbols.length) :
    compression.absorb stream symbols = ⟨(compression.absorb stream symbols).chain, []⟩ := by
  have hlength := compression.length_pending_absorb symbols h
  rw [Nat.mod_eq_zero_of_dvd hblocks] at hlength
  rw [← List.eq_nil_of_length_eq_zero hlength]

end Compression

end DailyChallenge.Library
