import Mathlib
import DailyChallenge.Library.ByteCodec

/-!
# Machine code and its execution

An `InstructionSet` writes instructions as bytes and reads one from what can be fetched; the reader
sees no byte behind the instruction it returns, so it reads it from any surroundings. A `Processor`
executes the instruction at its counter. `steps_assemble` is the rule for straight-line code: where
the bytes of a program can be fetched from the counter on, the processor does what the instructions
of the program do one after the other. Only the last one may jump.
-/

set_option autoImplicit false
set_option relaxedAutoImplicit false

namespace DailyChallenge.Library

/-- The bytes can be fetched one after the other from an address. -/
def FetchedAt (fetch : ℕ → Option UInt8) (address : ℕ) (bytes : Bytes) : Prop :=
  ∀ i byte, bytes[i]? = some byte → fetch (address + i) = some byte

theorem fetchedAt_append {fetch : ℕ → Option UInt8} {address : ℕ} {first second : Bytes} :
    FetchedAt fetch address (first ++ second) ↔
      FetchedAt fetch address first ∧ FetchedAt fetch (address + first.length) second := by
  constructor
  · intro h
    refine ⟨fun i byte hbyte ↦ h i byte ?_, fun i byte hbyte ↦ ?_⟩
    · rw [List.getElem?_append_left (List.getElem?_eq_some_iff.mp hbyte).1, hbyte]
    · rw [add_assoc]
      refine h (first.length + i) byte ?_
      rw [List.getElem?_append_right (Nat.le_add_right _ _), Nat.add_sub_cancel_left, hbyte]
  · rintro ⟨hfirst, hsecond⟩ i byte hbyte
    rcases lt_or_ge i first.length with hlt | hge
    · rw [List.getElem?_append_left hlt] at hbyte
      exact hfirst i byte hbyte
    · rw [List.getElem?_append_right hge] at hbyte
      have hfetch := hsecond (i - first.length) byte hbyte
      rwa [add_assoc, Nat.add_sub_cancel' hge] at hfetch

/-- Instructions as bytes, and the instruction that is read from the bytes that can be fetched, with
its size. -/
structure InstructionSet (Instruction : Type*) where
  encode : Instruction → Bytes
  decode : (ℕ → Option UInt8) → Option (Instruction × ℕ)
  decode_encode : ∀ instruction fetch, FetchedAt fetch 0 (encode instruction) →
    decode fetch = some (instruction, (encode instruction).length)

/-- A processor: its instruction counter, the bytes it can fetch, and the effect of an instruction
once the counter stands behind it. -/
structure Processor (Instruction State : Type*) extends InstructionSet Instruction where
  counter : State → ℕ
  fetch : State → ℕ → Option UInt8
  advance : ℕ → State → State
  execute : Instruction → State → Option State
  counter_advance : ∀ size state, counter (advance size state) = counter state + size
  fetch_advance : ∀ size state, fetch (advance size state) = fetch state

namespace Processor

variable {Instruction State : Type*} (processor : Processor Instruction State)

/-- The bytes of a program. -/
def assemble (program : List Instruction) : Bytes := program.flatMap processor.encode

/-- The instruction at the counter. -/
def step (state : State) : Option State :=
  (processor.decode fun i ↦ processor.fetch state (processor.counter state + i)).bind
    fun (instruction, size) ↦ processor.execute instruction (processor.advance size state)

/-- So many instructions, one after the other. -/
def steps : ℕ → State → Option State
  | 0, state => some state
  | count + 1, state => (processor.step state).bind (steps count)

/-- The instructions of a list, wherever the counter stands. -/
def executeAll : List Instruction → State → Option State
  | [], state => some state
  | instruction :: rest, state =>
    (processor.execute instruction
      (processor.advance (processor.encode instruction).length state)).bind (executeAll rest)

/-- An instruction that goes on with the one behind it and leaves the code alone. -/
def Sequential (instruction : Instruction) : Prop :=
  ∀ state next, processor.execute instruction state = some next →
    processor.counter next = processor.counter state ∧
      processor.fetch next = processor.fetch state

variable {processor}

/-- A step executes the instruction whose bytes stand at the counter. -/
theorem step_of_fetched {instruction : Instruction} {state : State}
    (h : FetchedAt (processor.fetch state) (processor.counter state)
      (processor.encode instruction)) :
    processor.step state = processor.execute instruction
      (processor.advance (processor.encode instruction).length state) := by
  have hdecode := processor.decode_encode instruction
    (fun i ↦ processor.fetch state (processor.counter state + i))
    fun i byte hbyte ↦ by simpa only [zero_add] using h i byte hbyte
  rw [step, hdecode, Option.bind_some]

/-- Straight-line code does what its instructions do. -/
theorem steps_assemble {program : List Instruction} {last : Instruction} {state : State}
    (hprogram : ∀ instruction ∈ program, processor.Sequential instruction)
    (h : FetchedAt (processor.fetch state) (processor.counter state)
      (processor.assemble (program ++ [last]))) :
    processor.steps (program.length + 1) state =
      processor.executeAll (program ++ [last]) state := by
  induction program generalizing state with
  | nil =>
    rw [assemble, List.nil_append, List.flatMap_singleton] at h
    rw [List.length_nil, steps, step_of_fetched h]
    rfl
  | cons instruction rest ih =>
    rw [assemble, List.cons_append, List.flatMap_cons, fetchedAt_append] at h
    obtain ⟨hfirst, hrest⟩ := h
    rw [List.length_cons, steps, step_of_fetched hfirst, List.cons_append, executeAll]
    cases hnext : processor.execute instruction
      (processor.advance (processor.encode instruction).length state) with
    | none => rfl
    | some next =>
      obtain ⟨hcounter, hfetch⟩ := hprogram instruction List.mem_cons_self _ next hnext
      rw [processor.counter_advance] at hcounter
      rw [processor.fetch_advance] at hfetch
      refine ih (fun other hother ↦ hprogram other (List.mem_cons_of_mem _ hother)) ?_
      rw [hcounter, hfetch]
      exact hrest

end Processor

end DailyChallenge.Library
