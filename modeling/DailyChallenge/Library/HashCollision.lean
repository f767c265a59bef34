import Mathlib
import DailyChallenge.Library.MerkleDamgard

/-!
# Collisions of a Merkle–Damgård hash are collisions of its compression function

`blocksFromEnd` cuts a message into blocks, last block first, and `chainAfter` is the chaining value
they lead to (`chain_absorb`). `collide` walks two messages back from their ends to the first block
where the compression function is called on different inputs. Where two different messages lead to
one chaining value and have the same length, or differ in their last blocks, it finds a pair of
inputs with one output (`exists_collision`).
-/

set_option autoImplicit false
set_option relaxedAutoImplicit false

namespace DailyChallenge.Library.Compression

variable {Chain Symbol : Type*} (compression : Compression Chain Symbol)

/-- An input of the compression function. -/
abbrev Input (Chain Symbol : Type*) := Chain × List Symbol

/-- Two inputs of the compression function with one output. -/
def IsCollision (first second : Input Chain Symbol) : Prop :=
  first ≠ second ∧
    compression.compress first.1 first.2 = compression.compress second.1 second.2

instance [DecidableEq Chain] [DecidableEq Symbol] (first second : Input Chain Symbol) :
    Decidable (compression.IsCollision first second) :=
  inferInstanceAs (Decidable (_ ∧ _))

/-- The blocks of a message, last block first. -/
def blocksFromEnd (message : List Symbol) : List (List Symbol) :=
  if _h : compression.blockSize ≤ message.length then
    message.drop (message.length - compression.blockSize) ::
      blocksFromEnd (message.take (message.length - compression.blockSize))
  else []
termination_by message.length
decreasing_by
  have hpos := compression.blockSize_pos
  rw [List.length_take]
  omega

/-- The chaining value after some blocks, the last of which comes first. -/
def chainAfter (chain : Chain) : List (List Symbol) → Chain
  | [] => chain
  | block :: before => compression.compress (chainAfter chain before) block

/-- The last inputs of the compression function in which two hashes differ. -/
def collide [DecidableEq Chain] [DecidableEq Symbol] (chain : Chain) :
    List (List Symbol) → List (List Symbol) → Option (Input Chain Symbol × Input Chain Symbol)
  | block :: before, block' :: before' =>
    if (compression.chainAfter chain before, block) =
        (compression.chainAfter chain before', block') then
      collide chain before before'
    else
      some ((compression.chainAfter chain before, block),
        (compression.chainAfter chain before', block'))
  | _, _ => none

/-- Absorbing one block. -/
theorem absorb_block (chain : Chain) {block : List Symbol}
    (h : block.length = compression.blockSize) :
    compression.absorb ⟨chain, []⟩ block = ⟨compression.compress chain block, []⟩ := by
  have hempty : ([] : List Symbol).length < compression.blockSize := compression.blockSize_pos
  rw [compression.absorb_eq_hashBlocks chain block hempty, List.nil_append, hashBlocks.eq_def,
    dif_pos h.ge, ← h, List.take_length, List.drop_length, hashBlocks.eq_def,
    dif_neg (not_le.mpr hempty)]

/-- A message of whole blocks is hashed block by block. -/
theorem chain_absorb (chain : Chain) {message : List Symbol}
    (h : compression.blockSize ∣ message.length) :
    (compression.absorb ⟨chain, []⟩ message).chain =
      compression.chainAfter chain (compression.blocksFromEnd message) := by
  have hempty : ([] : List Symbol).length < compression.blockSize := compression.blockSize_pos
  fun_induction blocksFromEnd compression message with
  | case1 message hle ih =>
    set before := message.take (message.length - compression.blockSize) with hbefore
    set block := message.drop (message.length - compression.blockSize) with hblock
    have hlengthBefore : before.length = message.length - compression.blockSize := by
      rw [hbefore, List.length_take]
      omega
    have hlengthBlock : block.length = compression.blockSize := by
      rw [hblock, List.length_drop]
      omega
    have hwhole : compression.blockSize ∣ before.length := by
      rw [hlengthBefore]
      exact Nat.dvd_sub h dvd_rfl
    have hstream := @absorb_eq_chain _ _ compression ⟨chain, []⟩ before hempty
      (by rwa [List.length_nil, zero_add])
    have hmessage : compression.absorb ⟨chain, []⟩ message =
        compression.absorb (compression.absorb ⟨chain, []⟩ before) block := by
      rw [← absorb_append, hbefore, hblock, List.take_append_drop]
    rw [hmessage, hstream, ih hwhole, compression.absorb_block _ hlengthBlock]
    rfl
  | case2 message hlt =>
    have hnil : message = [] := by
      rw [← List.length_eq_zero_iff]
      exact Nat.eq_zero_of_dvd_of_lt h (not_le.mp hlt)
    rw [hnil]
    rfl

/-- The blocks make up the message again. -/
theorem flatten_blocksFromEnd {message : List Symbol}
    (h : compression.blockSize ∣ message.length) :
    (compression.blocksFromEnd message).reverse.flatten = message := by
  fun_induction blocksFromEnd compression message with
  | case1 message hle ih =>
    have hwhole : compression.blockSize ∣
        (message.take (message.length - compression.blockSize)).length := by
      rw [List.length_take, min_eq_left (Nat.sub_le _ _)]
      exact Nat.dvd_sub h dvd_rfl
    rw [List.reverse_cons, List.flatten_append, ih hwhole, List.flatten_singleton,
      List.take_append_drop]
  | case2 message hlt =>
    rw [List.length_eq_zero_iff.mp (Nat.eq_zero_of_dvd_of_lt h (not_le.mp hlt))]
    rfl

theorem length_blocksFromEnd (message : List Symbol) :
    (compression.blocksFromEnd message).length = message.length / compression.blockSize := by
  fun_induction blocksFromEnd compression message with
  | case1 message hle ih =>
    rw [List.length_cons, ih, List.length_take, min_eq_left (Nat.sub_le _ _),
      ← Nat.div_eq_sub_div compression.blockSize_pos hle]
  | case2 message hlt => rw [Nat.div_eq_of_lt (not_le.mp hlt), List.length_nil]

section

variable [DecidableEq Chain] [DecidableEq Symbol] {chain : Chain}

/-- Where the last inputs differ they are a collision. -/
theorem collide_of_ne {block block' : List Symbol} {before before' : List (List Symbol)}
    (hchain : compression.chainAfter chain (block :: before) =
      compression.chainAfter chain (block' :: before'))
    (hne : (compression.chainAfter chain before, block) ≠
      (compression.chainAfter chain before', block')) :
    ∃ first second, compression.collide chain (block :: before) (block' :: before') =
      some (first, second) ∧ compression.IsCollision first second := by
  refine ⟨_, _, ?_, hne, hchain⟩
  rw [collide, if_neg hne]

/-- Two different lists of blocks of one length that lead to one chaining value. -/
theorem collide_of_length_eq {blocks blocks' : List (List Symbol)}
    (hlength : blocks.length = blocks'.length) (hne : blocks ≠ blocks')
    (hchain : compression.chainAfter chain blocks = compression.chainAfter chain blocks') :
    ∃ first second, compression.collide chain blocks blocks' = some (first, second) ∧
      compression.IsCollision first second := by
  induction blocks generalizing blocks' with
  | nil => exact absurd (List.length_eq_zero_iff.mp hlength.symm).symm hne
  | cons block before ih =>
    cases blocks' with
    | nil => simp at hlength
    | cons block' before' =>
      by_cases hinput : (compression.chainAfter chain before, block) =
          (compression.chainAfter chain before', block')
      · obtain ⟨hbefore, rfl⟩ := Prod.mk.inj hinput
        rw [collide, if_pos hinput]
        exact ih (Nat.succ.inj hlength) (fun h ↦ hne (by rw [h])) hbefore
      · exact compression.collide_of_ne hchain hinput

/-- Two messages of whole blocks that lead to one chaining value, and differ although they have one
length, or differ in their last blocks, yield a collision of the compression function. -/
theorem exists_collision {message message' : List Symbol}
    (hwhole : compression.blockSize ∣ message.length)
    (hwhole' : compression.blockSize ∣ message'.length) (hne : message ≠ message')
    (hpos : 0 < message.length) (hpos' : 0 < message'.length)
    (hlast : message.length = message'.length ∨
      message.drop (message.length - compression.blockSize) ≠
        message'.drop (message'.length - compression.blockSize))
    (hchain : (compression.absorb ⟨chain, []⟩ message).chain =
      (compression.absorb ⟨chain, []⟩ message').chain) :
    ∃ first second, compression.collide chain (compression.blocksFromEnd message)
        (compression.blocksFromEnd message') = some (first, second) ∧
      compression.IsCollision first second := by
  rw [compression.chain_absorb chain hwhole, compression.chain_absorb chain hwhole'] at hchain
  rcases hlast with hlength | hlast
  · refine compression.collide_of_length_eq ?_ (fun h ↦ hne ?_) hchain
    · rw [length_blocksFromEnd, length_blocksFromEnd, hlength]
    · rw [← compression.flatten_blocksFromEnd hwhole, h,
        compression.flatten_blocksFromEnd hwhole']
  · have hle := Nat.le_of_dvd hpos hwhole
    have hle' := Nat.le_of_dvd hpos' hwhole'
    rw [blocksFromEnd.eq_def compression message, dif_pos hle,
      blocksFromEnd.eq_def compression message', dif_pos hle'] at hchain ⊢
    exact compression.collide_of_ne hchain fun h ↦ hlast (Prod.mk.inj h).2

end

end DailyChallenge.Library.Compression
