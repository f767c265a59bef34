import Mathlib
import DailyChallenge.Jit.CodeBuffer

/-!
# What the emitted functions compute

The bytes of a function are those of a short program: a move of the first argument, an operation
with the second, a return. `Generated` says that both functions stand in an executable page, and
then a call computes the operation and keeps to the calling convention (`Generated.implements_add`,
`Generated.implements_mul`), whatever the registers hold apart from the arguments. `Working` is the
state of a call in progress: the rest of the program stands at the instruction pointer and finishes
with the result.
-/

set_option autoImplicit false
set_option relaxedAutoImplicit false

namespace DailyChallenge.Jit

open Library Library.X86

/-! ### Programs -/

/-- A function of two arguments by one operation. -/
def binary (operation : Instruction) : List Instruction := [.mov .eax .edi, operation, .ret]

/-- The bytes stored for `add` are a program. -/
theorem assemble_add : x86.assemble (binary (.add .eax .esi)) = addCode := by decide

/-- The bytes stored for `mul` are a program. -/
theorem assemble_mul : x86.assemble (binary (.imul .eax .esi)) = mulCode := by decide

/-- The function has returned: the result is in `eax`, the stack pointer above the return address,
and everything else as it was. -/
structure Returns (cpu : Cpu) (stop : ℕ) (result : BitVec 32) (after : Cpu) : Prop where
  rip_eq : after.rip = stop
  result_eq : after.low .eax = result
  stack_eq : after.registers .esp = cpu.registers .esp + 8
  saved : ∀ register, register ≠ .eax → register ≠ .esp →
    after.registers register = cpu.registers register
  space_eq : after.space = cpu.space

/-- The instruction combines `eax` and `esi` in `eax`. -/
def Combines (operation : Instruction) (combine : BitVec 32 → BitVec 32 → BitVec 32) : Prop :=
  ∀ cpu : Cpu, execute operation cpu =
    some (cpu.setLow .eax (combine (cpu.low .eax) (cpu.low .esi)))

theorem combines_add : Combines (.add .eax .esi) (· + ·) := fun _ ↦ rfl

theorem combines_imul : Combines (.imul .eax .esi) (· * ·) := fun _ ↦ rfl

section

variable {operation : Instruction} {combine : BitVec 32 → BitVec 32 → BitVec 32}

theorem Combines.ne_ret (h : Combines operation combine) : operation ≠ .ret := by
  rintro rfl
  have hexecute := h ⟨fun _ ↦ 0, 0, ⟨fun _ ↦ 0, fun _ ↦ ⟨false, false, false⟩⟩⟩
  simp [execute, AddressSpace.load64, List.range'] at hexecute

/-- The instructions of a function, one after the other. -/
theorem executeAll_binary (h : Combines operation combine) {cpu : Cpu} {stop : ℕ}
    (hload : cpu.space.load64 (cpu.registers .esp).toNat = some stop) :
    ∃ after, x86.executeAll (binary operation) cpu = some after ∧
      Returns cpu stop (combine (cpu.low .edi) (cpu.low .esi)) after := by
  set moved := (cpu.advance (encode (.mov .eax .edi)).length).setLow .eax (cpu.low .edi) with hmoved
  set combined := (moved.advance (encode operation).length).setLow .eax
    (combine (cpu.low .edi) (cpu.low .esi)) with hcombined
  have hfirst : moved.low .eax = cpu.low .edi := Cpu.low_setLow _ _ _
  have hsecond : moved.low .esi = cpu.low .esi := Cpu.low_setLow_of_ne _ (by decide) _
  have hoperation :
      execute operation (moved.advance (encode operation).length) = some combined := by
    rw [h, Cpu.low_advance, Cpu.low_advance, hfirst, hsecond]
  have hregister : ∀ register, register ≠ .eax →
      combined.registers register = cpu.registers register := by
    intro register hne
    rw [hcombined, Cpu.registers_setLow_of_ne _ hne]
    exact Cpu.registers_setLow_of_ne _ hne _
  have hstack := hregister .esp (by decide)
  refine ⟨combined.returnTo stop, ?_, ?_⟩
  · show (execute operation (moved.advance (encode operation).length)).bind
      (x86.executeAll [.ret]) = _
    rw [hoperation]
    show ((cpu.space.load64 (combined.registers .esp).toNat).map _).bind _ = _
    rw [hstack, hload]
    rfl
  · constructor
    case rip_eq => rfl
    case result_eq =>
      rw [Cpu.low, Cpu.registers_returnTo_of_ne _ (by decide)]
      exact Cpu.low_setLow _ _ _
    case stack_eq => rw [Cpu.registers_returnTo_esp, hstack]
    case saved =>
      intro register heax hesp
      rw [Cpu.registers_returnTo_of_ne _ hesp, hregister register heax]
    case space_eq => rfl

end

/-! ### Calls -/

/-- What the emission leaves behind: both functions in an executable page that cannot be written,
and a stack that can be read. -/
structure Generated (environment : Environment) (space : AddressSpace) (code mulOff : ℕ) :
    Prop where
  mulOff_eq : mulOff = addCode.length
  code_at : BytesAt space.memory code (addCode ++ mulCode)
  protection_eq : ∀ address, InPage code address → space.protection address = readExecute
  stack : ∀ address, environment.stackLow ≤ address → address < environment.stackHigh →
    (space.protection address).read = true
  exclusive : space.WriteXorExecute

/-- Every call of the function returns with the result. -/
def Implements (environment : Environment) (space : AddressSpace) (code entry : ℕ)
    (combine : BitVec 32 → BitVec 32 → BitVec 32) : Prop :=
  ∀ first second stop cpu, Enters environment space code entry first second stop cpu →
    ∃ count after, x86.steps count cpu = some after ∧
      Returns cpu stop (combine first second) after

/-- A call in progress, by the part of the program that is left. -/
structure Working (code stop : ℕ) (result : BitVec 32) (program : List Instruction) (cpu : Cpu) :
    Prop where
  last : ∃ body, program = body ++ [.ret] ∧ ∀ instruction ∈ body, instruction ≠ .ret
  fetched : FetchedAt cpu.space.fetch cpu.rip (x86.assemble program)
  rip_ge : code ≤ cpu.rip
  rip_le : cpu.rip + (x86.assemble program).length ≤ code + jitSize
  stop_outside : ¬ InPage code stop
  finishes : ∃ after, x86.executeAll program cpu = some after ∧ after.rip = stop ∧
    after.low .eax = result

section

variable {environment : Environment} {space : AddressSpace} {code entry stop mulOff : ℕ}
  {first second : BitVec 32} {cpu : Cpu}

/-- The return address is read from the stack. -/
theorem Enters.load64_eq (h : Enters environment space code entry first second stop cpu)
    (hstack : ∀ address, environment.stackLow ≤ address → address < environment.stackHigh →
      (space.protection address).read = true) :
    cpu.space.load64 (cpu.registers .esp).toNat = some stop := by
  refine AddressSpace.load64_of_bytesAt h.return_address h.stop_lt fun i hi ↦ ?_
  have hle := h.stack_le
  have hge := h.stack_ge
  rw [h.protection_eq]
  exact hstack _ (by omega) (by omega)

/-- Bytes of the page are still there once a function is entered. -/
theorem Enters.fetchedAt (h : Enters environment space code entry first second stop cpu)
    {bytes : Bytes} {offset : ℕ} (hbytes : BytesAt space.memory (code + offset) bytes)
    (hsize : offset + bytes.length ≤ jitSize)
    (hprotection : ∀ address, InPage code address → space.protection address = readExecute) :
    FetchedAt cpu.space.fetch (code + offset) bytes := by
  have hinside : ∀ i < bytes.length, InPage code (code + offset + i) :=
    fun i hi ↦ ⟨by omega, by omega⟩
  refine AddressSpace.fetchedAt_of_bytesAt ?_ fun i hi ↦ ?_
  · exact hbytes.congr fun i hi ↦ h.memory_eq _ (hinside i hi)
  · rw [h.protection_eq, hprotection _ (hinside i hi)]
    rfl

/-- Bytes of a function emitted at an offset make the function. -/
theorem implements_binary {operation : Instruction}
    {combine : BitVec 32 → BitVec 32 → BitVec 32} (hoperation : Combines operation combine)
    {offset : ℕ} (hcode : BytesAt space.memory (code + offset) (x86.assemble (binary operation)))
    (hsize : offset + (x86.assemble (binary operation)).length ≤ jitSize)
    (hprotection : ∀ address, InPage code address → space.protection address = readExecute)
    (hstack : ∀ address, environment.stackLow ≤ address → address < environment.stackHigh →
      (space.protection address).read = true) :
    Implements environment space code (code + offset) combine := by
  intro first second stop cpu h
  obtain ⟨after, hexecute, hreturns⟩ := executeAll_binary hoperation (h.load64_eq hstack)
  rw [h.first_eq, h.second_eq] at hreturns
  have hsequential : ∀ instruction ∈ [.mov .eax .edi, operation], x86.Sequential instruction := by
    intro instruction hmem
    refine sequential_of_ne_ret ?_
    rcases List.mem_pair.mp hmem with rfl | rfl
    · nofun
    · exact hoperation.ne_ret
  have hfetched := h.fetchedAt hcode hsize hprotection
  rw [← h.rip_eq] at hfetched
  exact ⟨3, after, (Processor.steps_assemble hsequential hfetched).trans hexecute, hreturns⟩

/-- The function at `add_off` adds. -/
theorem Generated.implements_add (h : Generated environment space code mulOff) :
    Implements environment space code (code + addOff) (· + ·) := by
  have hcode := ((bytesAt_append _ _ _).mp h.code_at).1
  rw [← assemble_add] at hcode
  exact implements_binary combines_add hcode (by decide) h.protection_eq h.stack

/-- The function at `mul_off` multiplies. -/
theorem Generated.implements_mul (h : Generated environment space code mulOff) :
    Implements environment space code (code + mulOff) (· * ·) := by
  have hcode := ((bytesAt_append _ _ _).mp h.code_at).2
  rw [← assemble_mul, ← h.mulOff_eq] at hcode
  refine implements_binary combines_imul hcode ?_ h.protection_eq h.stack
  rw [h.mulOff_eq]
  decide

/-- The start of a call. -/
theorem Enters.working {operation : Instruction}
    {combine : BitVec 32 → BitVec 32 → BitVec 32} (hoperation : Combines operation combine)
    {offset : ℕ} (h : Enters environment space code (code + offset) first second stop cpu)
    (hcode : BytesAt space.memory (code + offset) (x86.assemble (binary operation)))
    (hsize : offset + (x86.assemble (binary operation)).length ≤ jitSize)
    (hprotection : ∀ address, InPage code address → space.protection address = readExecute)
    (hstack : ∀ address, environment.stackLow ≤ address → address < environment.stackHigh →
      (space.protection address).read = true) :
    Working code stop (combine first second) (binary operation) cpu := by
  have hrip := h.rip_eq
  obtain ⟨after, hexecute, hreturns⟩ := executeAll_binary hoperation (h.load64_eq hstack)
  rw [h.first_eq, h.second_eq] at hreturns
  constructor
  case last => exact ⟨[.mov .eax .edi, operation], rfl, by simp [hoperation.ne_ret]⟩
  case fetched =>
    rw [hrip]
    exact h.fetchedAt hcode hsize hprotection
  case rip_ge => omega
  case rip_le => omega
  case stop_outside => exact h.stop_outside
  case finishes => exact ⟨after, hexecute, hreturns.rip_eq, hreturns.result_eq⟩

/-- A call in progress is at an instruction of the page. -/
theorem Working.rip_ne {result : BitVec 32} {program : List Instruction}
    (h : Working code stop result program cpu) : cpu.rip ≠ stop := by
  rintro rfl
  obtain ⟨body, rfl, -⟩ := h.last
  refine h.stop_outside ⟨h.rip_ge, ?_⟩
  have hle := h.rip_le
  rw [Processor.assemble, List.flatMap_append, List.length_append] at hle
  have hret : 0 < (x86.encode .ret).length := by decide
  rw [List.flatMap_singleton] at hle
  omega

theorem Working.length_pos {result : BitVec 32} {program : List Instruction}
    (h : Working code stop result program cpu) : 0 < program.length := by
  obtain ⟨body, rfl, -⟩ := h.last
  simp

/-- One instruction of a call: it returns with the result, or goes on with the rest. -/
theorem Working.step {result : BitVec 32} {program : List Instruction}
    (h : Working code stop result program cpu) :
    ∃ next, x86.step cpu = some next ∧ next.space = cpu.space ∧
      ((next.rip = stop ∧ next.low .eax = result) ∨
        ∃ rest, rest.length < program.length ∧ Working code stop result rest next) := by
  obtain ⟨body, rfl, hbody⟩ := h.last
  obtain ⟨after, hexecute, hrip, hresult⟩ := h.finishes
  cases body with
  | nil =>
    have hfetched : FetchedAt (x86.fetch cpu) (x86.counter cpu) (x86.encode .ret) := by
      have hassemble : x86.assemble [.ret] = x86.encode .ret := List.flatMap_singleton _ _
      exact hassemble ▸ h.fetched
    obtain ⟨next, hnext, hlast⟩ := Option.bind_eq_some_iff.mp hexecute
    obtain rfl : next = after := Option.some.inj hlast
    have hspace := space_execute hnext
    exact ⟨next, (Processor.step_of_fetched hfetched).trans hnext, hspace, .inl ⟨hrip, hresult⟩⟩
  | cons instruction rest =>
    obtain ⟨next, hnext, hrest⟩ := Option.bind_eq_some_iff.mp hexecute
    have hne := hbody instruction List.mem_cons_self
    have hsplit : x86.assemble (instruction :: rest ++ [.ret]) =
        x86.encode instruction ++ x86.assemble (rest ++ [.ret]) := by
      rw [Processor.assemble, List.cons_append, List.flatMap_cons]
      rfl
    obtain ⟨hfirst, hsecond⟩ := fetchedAt_append.mp (hsplit ▸ h.fetched)
    obtain ⟨hcounter, -⟩ := sequential_of_ne_ret hne _ _ hnext
    have hspace := space_execute hnext
    have hge := h.rip_ge
    have hle := h.rip_le
    rw [hsplit, List.length_append] at hle
    have hnextRip : next.rip = cpu.rip + (x86.encode instruction).length := hcounter
    refine ⟨next, (Processor.step_of_fetched hfirst).trans hnext, hspace, .inr
      ⟨rest ++ [.ret], by simp, ?_⟩⟩
    constructor
    case last =>
      exact ⟨rest, rfl, fun other hother ↦ hbody other (List.mem_cons_of_mem _ hother)⟩
    case fetched =>
      rw [hnextRip, hspace]
      exact hsecond
    case rip_ge => omega
    case rip_le => omega
    case stop_outside => exact h.stop_outside
    case finishes => exact ⟨after, hrest, hrip, hresult⟩

/-- What an instruction of a call leaves behind. -/
theorem Working.next {result : BitVec 32} {program : List Instruction}
    (h : Working code stop result program cpu) {registers : Register → BitVec 64} {rip : ℕ}
    {after : AddressSpace} (hstep : x86.step cpu = some ⟨registers, rip, after⟩) :
    after = cpu.space ∧
      ((rip = stop ∧ Cpu.low ⟨registers, stop, after⟩ .eax = result) ∨
        ∃ rest, rest.length < program.length ∧
          Working code stop result rest ⟨registers, rip, after⟩) := by
  obtain ⟨next, hnext, hspace, hdone⟩ := h.step
  obtain rfl : next = ⟨registers, rip, after⟩ := Option.some.inj (hnext.symm.trans hstep)
  rcases hdone with ⟨hrip, hresult⟩ | hrest
  · obtain rfl : rip = stop := hrip
    exact ⟨hspace, .inl ⟨rfl, hresult⟩⟩
  · exact ⟨hspace, .inr hrest⟩

end

end DailyChallenge.Jit
