import Mathlib
import DailyChallenge.Library.ByteMemory
import DailyChallenge.Library.MachineCode

/-!
# A fragment of x86-64

Moves, additions and multiplications between 32-bit registers, and returns, over an address space
whose bytes carry a protection. Without a REX prefix a ModRM byte names eight registers; an
instruction that writes the low half of one clears its high half. Flags are left out, since none of
these instructions reads one. `x86` is the processor; every instruction but `ret` is sequential
(`sequential_of_ne_ret`).
-/

set_option autoImplicit false
set_option relaxedAutoImplicit false

namespace DailyChallenge.Library.X86

/-! ### Address spaces -/

/-- What a program may do with a byte of its address space. -/
structure Protection where
  read : Bool
  write : Bool
  execute : Bool
deriving DecidableEq

/-- An address space: its bytes and their protections. -/
structure AddressSpace where
  memory : ℕ → UInt8
  protection : ℕ → Protection

namespace AddressSpace

variable (space : AddressSpace)

/-- Fetching a byte of code. -/
def fetch (address : ℕ) : Option UInt8 :=
  if (space.protection address).execute then some (space.memory address) else none

/-- Writing a byte. -/
def store (address : ℕ) (byte : UInt8) : Option AddressSpace :=
  if (space.protection address).write then
    some { space with memory := Function.update space.memory address byte }
  else none

/-- Reading a number of eight bytes. -/
def load64 (address : ℕ) : Option ℕ :=
  if (List.range' address 8).all fun other ↦ (space.protection other).read then
    some (ofLittleEndian ((List.range' address 8).map space.memory))
  else none

/-- No byte may be both written and executed. -/
def WriteXorExecute : Prop :=
  ∀ address, ¬ ((space.protection address).write = true ∧
    (space.protection address).execute = true)

variable {space}

/-- The bytes that stand in an executable range can be fetched. -/
theorem fetchedAt_of_bytesAt {address : ℕ} {bytes : Bytes} (h : BytesAt space.memory address bytes)
    (hexecute : ∀ i < bytes.length, (space.protection (address + i)).execute = true) :
    FetchedAt space.fetch address bytes := by
  induction bytes generalizing address with
  | nil =>
    intro i byte hbyte
    simp at hbyte
  | cons first rest ih =>
    intro i byte hbyte
    cases i with
    | zero =>
      have hfirst : space.memory address = byte := by
        rw [h.1]
        simpa using hbyte
      have hfetch := hexecute 0 (by simp)
      rw [add_zero] at hfetch ⊢
      rw [fetch, if_pos hfetch, hfirst]
    | succ i =>
      rw [← add_assoc, add_right_comm]
      refine ih h.2 (fun j hj ↦ ?_) i byte (by simpa using hbyte)
      rw [add_assoc, add_comm 1]
      exact hexecute (j + 1) (by simpa using hj)

/-- A number is read from its bytes, where they may be read. -/
theorem load64_of_bytesAt {address value : ℕ}
    (h : BytesAt space.memory address (littleEndian 8 value)) (hvalue : value < 2 ^ 64)
    (hread : ∀ i < 8, (space.protection (address + i)).read = true) :
    space.load64 address = some value := by
  have hbytes := h.read
  rw [length_littleEndian] at hbytes
  have hall : (List.range' address 8).all fun other ↦ (space.protection other).read := by
    rw [List.all_eq_true]
    intro other hother
    obtain ⟨i, hi, rfl⟩ := List.mem_range'.mp hother
    rw [one_mul]
    exact hread i hi
  rw [load64, if_pos hall, hbytes,
    ofLittleEndian_littleEndian_of_lt (show value < 256 ^ 8 from hvalue)]

end AddressSpace

/-! ### Instructions -/

/-- The registers that three bits name. -/
inductive Register
  | eax | ecx | edx | ebx | esp | ebp | esi | edi
deriving DecidableEq

/-- The number of a register. -/
def Register.number : Register → UInt8
  | .eax => 0
  | .ecx => 1
  | .edx => 2
  | .ebx => 3
  | .esp => 4
  | .ebp => 5
  | .esi => 6
  | .edi => 7

/-- The register that the three low bits of a byte name. -/
def Register.ofBits (byte : UInt8) : Register :=
  match (byte &&& 7).toNat with
  | 0 => .eax
  | 1 => .ecx
  | 2 => .edx
  | 3 => .ebx
  | 4 => .esp
  | 5 => .ebp
  | 6 => .esi
  | _ => .edi

/-- The instructions of the fragment. -/
inductive Instruction
  | mov (destination source : Register)
  | add (destination source : Register)
  | imul (destination source : Register)
  | ret
deriving DecidableEq

/-- The ModRM byte of two registers. -/
def modRM (reg rm : Register) : UInt8 := (3 : UInt8) <<< 6 ||| reg.number <<< 3 ||| rm.number

/-- The two registers of a ModRM byte; other addressing modes are not in the fragment. -/
def operands (byte : UInt8) : Option (Register × Register) :=
  if byte >>> 6 = 3 then some (.ofBits (byte >>> 3), .ofBits byte) else none

/-- `MOV r/m32, r32`, `ADD r/m32, r32`, `IMUL r32, r/m32` and `RET`. -/
def encode : Instruction → Bytes
  | .mov destination source => [0x89, modRM source destination]
  | .add destination source => [0x01, modRM source destination]
  | .imul destination source => [0x0F, 0xAF, modRM destination source]
  | .ret => [0xC3]

/-- The instruction that is fetched, and its size. -/
def decode (fetch : ℕ → Option UInt8) : Option (Instruction × ℕ) := do
  let opcode ← fetch 0
  if opcode = 0x89 then
    let (reg, rm) ← operands (← fetch 1)
    return (.mov rm reg, 2)
  else if opcode = 0x01 then
    let (reg, rm) ← operands (← fetch 1)
    return (.add rm reg, 2)
  else if opcode = 0x0F then
    let second ← fetch 1
    if second = 0xAF then
      let (reg, rm) ← operands (← fetch 2)
      return (.imul reg rm, 3)
    else none
  else if opcode = 0xC3 then
    return (.ret, 1)
  else none

theorem operands_modRM (reg rm : Register) : operands (modRM reg rm) = some (reg, rm) := by
  cases reg <;> cases rm <;> rfl

theorem decode_encode (instruction : Instruction) (fetch : ℕ → Option UInt8)
    (h : FetchedAt fetch 0 (encode instruction)) :
    decode fetch = some (instruction, (encode instruction).length) := by
  have hbyte : ∀ i byte, (encode instruction)[i]? = some byte → fetch i = some byte :=
    fun i byte hi ↦ by simpa only [zero_add] using h i byte hi
  cases instruction with
  | mov destination source =>
    simp [decode, hbyte 0 0x89 rfl, hbyte 1 _ rfl, operands_modRM, encode]
  | add destination source =>
    simp [decode, hbyte 0 0x01 rfl, hbyte 1 _ rfl, operands_modRM, encode]
  | imul destination source =>
    simp [decode, hbyte 0 0x0F rfl, hbyte 1 0xAF rfl, hbyte 2 _ rfl, operands_modRM, encode]
  | ret => simp [decode, hbyte 0 0xC3 rfl, encode]

/-! ### Execution -/

/-- The registers, the instruction pointer and the address space. -/
structure Cpu where
  registers : Register → BitVec 64
  rip : ℕ
  space : AddressSpace

namespace Cpu

variable (cpu : Cpu)

/-- The 32-bit register. -/
def low (register : Register) : BitVec 32 := (cpu.registers register).setWidth 32

/-- Writing a 32-bit register clears the high half of the 64-bit one. -/
def setLow (register : Register) (value : BitVec 32) : Cpu :=
  { cpu with registers := Function.update cpu.registers register (value.setWidth 64) }

/-- Popping the return address and going there. -/
def returnTo (target : ℕ) : Cpu :=
  { cpu with
    registers := Function.update cpu.registers .esp (cpu.registers .esp + 8)
    rip := target }

/-- Behind an instruction. -/
def advance (size : ℕ) : Cpu := { cpu with rip := cpu.rip + size }

@[simp] theorem low_setLow (register : Register) (value : BitVec 32) :
    (cpu.setLow register value).low register = value := by
  simp [low, setLow, BitVec.setWidth_setWidth_of_le]

theorem low_setLow_of_ne {register other : Register} (h : other ≠ register) (value : BitVec 32) :
    (cpu.setLow register value).low other = cpu.low other := by
  simp [low, setLow, Function.update_of_ne h]

theorem registers_setLow_of_ne {register other : Register} (h : other ≠ register)
    (value : BitVec 32) : (cpu.setLow register value).registers other = cpu.registers other :=
  Function.update_of_ne h _ _

theorem registers_returnTo_of_ne {register : Register} (h : register ≠ .esp) (target : ℕ) :
    (cpu.returnTo target).registers register = cpu.registers register :=
  Function.update_of_ne h _ _

theorem registers_returnTo_esp (target : ℕ) :
    (cpu.returnTo target).registers .esp = cpu.registers .esp + 8 := by
  simp [returnTo]

@[simp] theorem low_advance (size : ℕ) (register : Register) :
    (cpu.advance size).low register = cpu.low register := rfl

end Cpu

/-- The effect of an instruction. -/
def execute : Instruction → Cpu → Option Cpu
  | .mov destination source, cpu => some (cpu.setLow destination (cpu.low source))
  | .add destination source, cpu =>
    some (cpu.setLow destination (cpu.low destination + cpu.low source))
  | .imul destination source, cpu =>
    some (cpu.setLow destination (cpu.low destination * cpu.low source))
  | .ret, cpu => (cpu.space.load64 (cpu.registers .esp).toNat).map cpu.returnTo

/-- The processor of the fragment. -/
def x86 : Processor Instruction Cpu where
  encode := encode
  decode := decode
  decode_encode := decode_encode
  counter := Cpu.rip
  fetch cpu := cpu.space.fetch
  advance size cpu := cpu.advance size
  execute := execute
  counter_advance _ _ := rfl
  fetch_advance _ _ := rfl

/-- No instruction of the fragment writes memory. -/
theorem space_execute {instruction : Instruction} {cpu next : Cpu}
    (h : x86.execute instruction cpu = some next) : next.space = cpu.space := by
  cases instruction with
  | mov => cases h; rfl
  | add => cases h; rfl
  | imul => cases h; rfl
  | ret =>
    obtain ⟨target, -, rfl⟩ := Option.map_eq_some_iff.mp h
    rfl

/-- Only a return jumps. -/
theorem sequential_of_ne_ret {instruction : Instruction} (h : instruction ≠ .ret) :
    x86.Sequential instruction := by
  intro cpu next hnext
  cases instruction with
  | mov => cases hnext; exact ⟨rfl, rfl⟩
  | add => cases hnext; exact ⟨rfl, rfl⟩
  | imul => cases hnext; exact ⟨rfl, rfl⟩
  | ret => exact absurd rfl h

end DailyChallenge.Library.X86
