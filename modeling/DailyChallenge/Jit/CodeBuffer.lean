import Mathlib
import DailyChallenge.Library.Runs
import DailyChallenge.Library.X86

/-!
# Emitting machine code and calling it

`main` of `07-JIT/main.c` as a transition system. Each store to the mapped page, each system call
and each instruction that the processor executes in the page is a step. The kernel chooses where the
page is, whether `mmap` and `mprotect` succeed, and what the error is if not. At a call the
registers and the memory outside the page are as the compiled `main` leaves them, so that only the
calling convention is known of them (`Enters`): the arguments in the low halves of `rdi` and `rsi`,
the return address at `rsp`.
-/

set_option autoImplicit false
set_option relaxedAutoImplicit false

namespace DailyChallenge.Jit

open Library Library.X86

/-- `JIT_SIZE`. -/
def jitSize : ℕ := 4096

/-- `add_off`, the offset of the first function. -/
def addOff : ℕ := 0

/-- The bytes stored for `add`. -/
def addCode : Bytes := [0x89, 0xF8, 0x01, 0xF0, 0xC3]

/-- The bytes stored for `mul`. -/
def mulCode : Bytes := [0x89, 0xF8, 0x0F, 0xAF, 0xC6, 0xC3]

/-- The address lies in the mapped page. -/
def InPage (code address : ℕ) : Prop := code ≤ address ∧ address < code + jitSize

instance (code address : ℕ) : Decidable (InPage code address) :=
  inferInstanceAs (Decidable (_ ∧ _))

/-- `PROT_READ | PROT_WRITE`. -/
def readWrite : Protection := ⟨true, true, false⟩

/-- `PROT_READ | PROT_EXEC`. -/
def readExecute : Protection := ⟨true, false, true⟩

/-- The page with another protection. -/
def protect (code : ℕ) (protection : Protection) (space : AddressSpace) : AddressSpace :=
  { space with
    protection := fun address ↦
      if InPage code address then protection else space.protection address }

/-- The page that `mmap` makes: zeros, with the protection that the call asks for. -/
def mapPage (code : ℕ) (space : AddressSpace) : AddressSpace :=
  protect code readWrite
    { space with memory := fun address ↦ if InPage code address then 0 else space.memory address }

/-- Where the stack of the process is. -/
structure Environment where
  stackLow : ℕ
  stackHigh : ℕ
  room : stackLow + 8 ≤ stackHigh
  bounded : stackHigh ≤ 2 ^ 47

/-- A function in the page is entered with two `int` arguments, to return to `stop`. -/
structure Enters (environment : Environment) (space : AddressSpace) (code entry : ℕ)
    (first second : BitVec 32) (stop : ℕ) (cpu : Cpu) : Prop where
  rip_eq : cpu.rip = entry
  first_eq : cpu.low .edi = first
  second_eq : cpu.low .esi = second
  protection_eq : cpu.space.protection = space.protection
  memory_eq : ∀ address, InPage code address → cpu.space.memory address = space.memory address
  stack_ge : environment.stackLow ≤ (cpu.registers .esp).toNat
  stack_le : (cpu.registers .esp).toNat + 8 ≤ environment.stackHigh
  stop_lt : stop < 2 ^ 64
  stop_outside : ¬ InPage code stop
  return_address : BytesAt cpu.space.memory (cpu.registers .esp).toNat (littleEndian 8 stop)

/-- Where `main` is. A call in progress holds the registers, the instruction pointer and the return
address. -/
inductive Point
  | start
  | emitAdd (code off : ℕ) (rest : Bytes)
  | emitMul (code mulOff off : ℕ) (rest : Bytes)
  | callAdd (code mulOff : ℕ)
  | inAdd (code mulOff stop : ℕ) (registers : Register → BitVec 64) (rip : ℕ)
  | callMul (code mulOff : ℕ) (rAdd : BitVec 32)
  | inMul (code : ℕ) (rAdd : BitVec 32) (stop : ℕ) (registers : Register → BitVec 64) (rip : ℕ)
  | cleanUp (code : ℕ) (rAdd rMul : BitVec 32)
  | exited (status : ℕ) (stdout stderr : List String)

/-- The address space and where `main` is. -/
structure State where
  space : AddressSpace
  point : Point

/-- What a step does. -/
inductive Label
  | mmap (result : Except String ℕ)
  | store (address : ℕ) (byte : UInt8)
  | nextFunction
  | mprotect (error : Option String)
  | enter (cpu : Cpu)
  | execute
  | leave
  | munmap

/-- The line that `perror` writes to `stderr`; the system has a text for every error. -/
def perror (call error : String) : String := call ++ ": " ++ error ++ "\n"

/-- The line that `printf` writes for `add`. -/
def reportAdd (rAdd : BitVec 32) : String :=
  "add(3,  4)  = " ++ toString rAdd.toInt ++ "   [" ++ (if rAdd = 7 then "OK" else "FAIL") ++ "]\n"

/-- The line that `printf` writes for `mul`. -/
def reportMul (rMul : BitVec 32) : String :=
  "mul(6,  7)  = " ++ toString rMul.toInt ++ "  [" ++ (if rMul = 42 then "OK" else "FAIL") ++ "]\n"

/-- The result of `main`. -/
def exitStatus (rAdd rMul : BitVec 32) : ℕ := if rAdd = 7 ∧ rMul = 42 then 0 else 1

/-- The steps of `main`. -/
inductive Step (environment : Environment) : State → Label → State → Prop
  | mmapFailed {space : AddressSpace} {error : String} :
    Step environment ⟨space, .start⟩ (.mmap (.error error))
      ⟨space, .exited 1 [] [perror "mmap" error]⟩
  | mmap {space : AddressSpace} {code : ℕ} : code + jitSize ≤ 2 ^ 47 →
    code + jitSize ≤ environment.stackLow ∨ environment.stackHigh ≤ code →
    Step environment ⟨space, .start⟩ (.mmap (.ok code))
      ⟨mapPage code space, .emitAdd code addOff addCode⟩
  | storeAdd {space next : AddressSpace} {code off : ℕ} {byte : UInt8} {rest : Bytes} :
    space.store (code + off) byte = some next →
    Step environment ⟨space, .emitAdd code off (byte :: rest)⟩ (.store (code + off) byte)
      ⟨next, .emitAdd code (off + 1) rest⟩
  | endAdd {space : AddressSpace} {code off : ℕ} :
    Step environment ⟨space, .emitAdd code off []⟩ .nextFunction
      ⟨space, .emitMul code off off mulCode⟩
  | storeMul {space next : AddressSpace} {code mulOff off : ℕ} {byte : UInt8} {rest : Bytes} :
    space.store (code + off) byte = some next →
    Step environment ⟨space, .emitMul code mulOff off (byte :: rest)⟩ (.store (code + off) byte)
      ⟨next, .emitMul code mulOff (off + 1) rest⟩
  | mprotectFailed {space : AddressSpace} {code mulOff off : ℕ} {error : String} :
    Step environment ⟨space, .emitMul code mulOff off []⟩ (.mprotect (some error))
      ⟨space, .exited 1 [] [perror "mprotect" error]⟩
  | mprotect {space : AddressSpace} {code mulOff off : ℕ} :
    Step environment ⟨space, .emitMul code mulOff off []⟩ (.mprotect none)
      ⟨protect code readExecute space, .callAdd code mulOff⟩
  | enterAdd {space : AddressSpace} {code mulOff stop : ℕ} {cpu : Cpu} :
    Enters environment space code (code + addOff) 3 4 stop cpu →
    Step environment ⟨space, .callAdd code mulOff⟩ (.enter cpu)
      ⟨cpu.space, .inAdd code mulOff stop cpu.registers cpu.rip⟩
  | executeAdd {space : AddressSpace} {code mulOff stop rip : ℕ}
    {registers : Register → BitVec 64} {next : Cpu} : rip ≠ stop →
    x86.step ⟨registers, rip, space⟩ = some next →
    Step environment ⟨space, .inAdd code mulOff stop registers rip⟩ .execute
      ⟨next.space, .inAdd code mulOff stop next.registers next.rip⟩
  | leaveAdd {space : AddressSpace} {code mulOff stop : ℕ} {registers : Register → BitVec 64} :
    Step environment ⟨space, .inAdd code mulOff stop registers stop⟩ .leave
      ⟨space, .callMul code mulOff (Cpu.low ⟨registers, stop, space⟩ .eax)⟩
  | enterMul {space : AddressSpace} {code mulOff stop : ℕ} {rAdd : BitVec 32} {cpu : Cpu} :
    Enters environment space code (code + mulOff) 6 7 stop cpu →
    Step environment ⟨space, .callMul code mulOff rAdd⟩ (.enter cpu)
      ⟨cpu.space, .inMul code rAdd stop cpu.registers cpu.rip⟩
  | executeMul {space : AddressSpace} {code stop rip : ℕ} {rAdd : BitVec 32}
    {registers : Register → BitVec 64} {next : Cpu} : rip ≠ stop →
    x86.step ⟨registers, rip, space⟩ = some next →
    Step environment ⟨space, .inMul code rAdd stop registers rip⟩ .execute
      ⟨next.space, .inMul code rAdd stop next.registers next.rip⟩
  | leaveMul {space : AddressSpace} {code stop : ℕ} {rAdd : BitVec 32}
    {registers : Register → BitVec 64} :
    Step environment ⟨space, .inMul code rAdd stop registers stop⟩ .leave
      ⟨space, .cleanUp code rAdd (Cpu.low ⟨registers, stop, space⟩ .eax)⟩
  | munmap {space : AddressSpace} {code : ℕ} {rAdd rMul : BitVec 32} :
    Step environment ⟨space, .cleanUp code rAdd rMul⟩ .munmap
      ⟨protect code ⟨false, false, false⟩ space,
        .exited (exitStatus rAdd rMul) [reportAdd rAdd, reportMul rMul] []⟩

/-- Runs of `main` in a process that has no byte both writable and executable at its start, and a
stack that can be read. -/
def system (environment : Environment) : TransitionSystem State Label where
  Start state := state.point = .start ∧ state.space.WriteXorExecute ∧
    ∀ address, environment.stackLow ≤ address → address < environment.stackHigh →
      (state.space.protection address).read = true
  Step := Step environment

end DailyChallenge.Jit
