import Mathlib
import DailyChallenge.Jit.Functions

/-!
# Runs of the JIT

`Good` says what holds at each point of `main`, with the number of steps that are left at most.
Every step of a run uses up one of them and keeps the invariant (`Good.step`), and no state before
the exit is stuck (`Good.progress`). So every run ends after at most `25` steps, no byte of the
process is ever both writable and executable, and `main` succeeds exactly when both system calls
do, and reports the one that fails (`run_system`). At the point of the calls the page holds the two
functions (`implements_of_run`).
-/

set_option autoImplicit false
set_option relaxedAutoImplicit false

namespace DailyChallenge.Jit

open Library Library.X86

variable {environment : Environment}

/-- Where the kernel may put the page. -/
structure Placed (environment : Environment) (code : ℕ) : Prop where
  fits : code + jitSize ≤ 2 ^ 47
  apart : code + jitSize ≤ environment.stackLow ∨ environment.stackHigh ≤ code

/-- The page while it is written: the bytes so far stand at its start. -/
structure Emitted (environment : Environment) (space : AddressSpace) (code : ℕ) (bytes : Bytes) :
    Prop where
  placed : Placed environment code
  code_at : BytesAt space.memory code bytes
  protection_eq : ∀ address, InPage code address → space.protection address = readWrite
  stack : ∀ address, environment.stackLow ≤ address → address < environment.stackHigh →
    (space.protection address).read = true
  exclusive : space.WriteXorExecute

/-- What holds at the points of `main`, with a bound on the steps that are left. -/
inductive Good (environment : Environment) : ℕ → State → Prop
  | start {space : AddressSpace} : space.WriteXorExecute →
    (∀ address, environment.stackLow ≤ address → address < environment.stackHigh →
      (space.protection address).read = true) →
    Good environment 25 ⟨space, .start⟩
  | emitAdd {space : AddressSpace} {code : ℕ} {bytes rest : Bytes} : bytes ++ rest = addCode →
    Emitted environment space code bytes →
    Good environment (rest.length + 19) ⟨space, .emitAdd code bytes.length rest⟩
  | emitMul {space : AddressSpace} {code : ℕ} {bytes rest : Bytes} : bytes ++ rest = mulCode →
    Emitted environment space code (addCode ++ bytes) →
    Good environment (rest.length + 12)
      ⟨space, .emitMul code addCode.length (addCode ++ bytes).length rest⟩
  | callAdd {space : AddressSpace} {code mulOff : ℕ} : Placed environment code →
    Generated environment space code mulOff → Good environment 11 ⟨space, .callAdd code mulOff⟩
  | inAdd {space : AddressSpace} {code mulOff stop rip : ℕ} {registers : Register → BitVec 64}
    {program : List Instruction} : Placed environment code →
    Generated environment space code mulOff →
    Working code stop (3 + 4) program ⟨registers, rip, space⟩ →
    Good environment (program.length + 7) ⟨space, .inAdd code mulOff stop registers rip⟩
  | endAdd {space : AddressSpace} {code mulOff stop : ℕ} {registers : Register → BitVec 64} :
    Placed environment code → Generated environment space code mulOff →
    Cpu.low ⟨registers, stop, space⟩ .eax = 3 + 4 →
    Good environment 7 ⟨space, .inAdd code mulOff stop registers stop⟩
  | callMul {space : AddressSpace} {code mulOff : ℕ} : Placed environment code →
    Generated environment space code mulOff →
    Good environment 6 ⟨space, .callMul code mulOff (3 + 4)⟩
  | inMul {space : AddressSpace} {code stop rip : ℕ} {registers : Register → BitVec 64}
    {program : List Instruction} : space.WriteXorExecute →
    Working code stop (6 * 7) program ⟨registers, rip, space⟩ →
    Good environment (program.length + 2) ⟨space, .inMul code (3 + 4) stop registers rip⟩
  | endMul {space : AddressSpace} {code stop : ℕ} {registers : Register → BitVec 64} :
    space.WriteXorExecute → Cpu.low ⟨registers, stop, space⟩ .eax = 6 * 7 →
    Good environment 2 ⟨space, .inMul code (3 + 4) stop registers stop⟩
  | cleanUp {space : AddressSpace} {code : ℕ} : space.WriteXorExecute →
    Good environment 1 ⟨space, .cleanUp code (3 + 4) (6 * 7)⟩
  | exited {space : AddressSpace} : space.WriteXorExecute →
    Good environment 0 ⟨space, .exited 0 [reportAdd 7, reportMul 42] []⟩
  | failed {space : AddressSpace} {line : String} : space.WriteXorExecute →
    Good environment 0 ⟨space, .exited 1 [] [line]⟩

/-! ### The address space -/

section

variable {space next : AddressSpace} {code mulOff entry stop : ℕ} {first second : BitVec 32}
  {cpu : Cpu}

/-- A page under a protection that is not both leaves the other bytes as they were. -/
theorem writeXorExecute_protect {protection : Protection}
    (hprotection : ¬ (protection.write = true ∧ protection.execute = true))
    (h : space.WriteXorExecute) : (protect code protection space).WriteXorExecute := by
  intro address
  show ¬ ((if InPage code address then protection else space.protection address).write = true ∧
    (if InPage code address then protection else space.protection address).execute = true)
  split_ifs
  · exact hprotection
  · exact h address

/-- A page that can be read leaves the stack readable. -/
theorem read_protect {protection : Protection} (hprotection : protection.read = true)
    (h : ∀ address, environment.stackLow ≤ address → address < environment.stackHigh →
      (space.protection address).read = true) :
    ∀ address, environment.stackLow ≤ address → address < environment.stackHigh →
      ((protect code protection space).protection address).read = true := by
  intro address hlow hhigh
  show (if InPage code address then protection else space.protection address).read = true
  split_ifs
  · exact hprotection
  · exact h address hlow hhigh

/-- A fresh page. -/
theorem emitted_mapPage (hplaced : Placed environment code) (h : space.WriteXorExecute)
    (hstack : ∀ address, environment.stackLow ≤ address → address < environment.stackHigh →
      (space.protection address).read = true) :
    Emitted environment (mapPage code space) code [] := by
  constructor
  case placed => exact hplaced
  case code_at => trivial
  case protection_eq => exact fun address hinside ↦ if_pos hinside
  case stack => exact read_protect rfl hstack
  case exclusive => exact writeXorExecute_protect (by decide) h

/-- One byte more. -/
theorem Emitted.store {bytes : Bytes} (h : Emitted environment space code bytes)
    (hsize : bytes.length < jitSize) (byte : UInt8) :
    ∃ next, space.store (code + bytes.length) byte = some next ∧
      Emitted environment next code (bytes ++ [byte]) := by
  have hprotection := h.protection_eq (code + bytes.length) ⟨by omega, by omega⟩
  refine ⟨{ space with memory := Function.update space.memory (code + bytes.length) byte },
    ?_, ?_⟩
  · rw [AddressSpace.store, hprotection]
    rfl
  · constructor
    case placed => exact h.placed
    case code_at => exact h.code_at.append_byte byte
    case protection_eq => exact h.protection_eq
    case stack => exact h.stack
    case exclusive => exact h.exclusive

/-- Both functions are there, and the page can be executed. -/
theorem Emitted.generated (h : Emitted environment space code (addCode ++ mulCode)) :
    Generated environment (protect code readExecute space) code addCode.length := by
  constructor
  case mulOff_eq => rfl
  case code_at => exact h.code_at
  case protection_eq => exact fun address hinside ↦ if_pos hinside
  case stack => exact read_protect rfl h.stack
  case exclusive => exact writeXorExecute_protect (by decide) h.exclusive

/-- What was generated is there once a function is entered. -/
theorem Generated.enter (h : Generated environment space code mulOff)
    (henters : Enters environment space code entry first second stop cpu) :
    Generated environment cpu.space code mulOff := by
  have hprotection := henters.protection_eq
  constructor
  case mulOff_eq => exact h.mulOff_eq
  case code_at =>
    refine h.code_at.congr fun i hi ↦ henters.memory_eq _ ⟨by omega, ?_⟩
    have hsize : (addCode ++ mulCode).length < jitSize := by decide
    omega
  case protection_eq =>
    rw [hprotection]
    exact h.protection_eq
  case stack =>
    rw [hprotection]
    exact h.stack
  case exclusive =>
    rw [AddressSpace.WriteXorExecute, hprotection]
    exact h.exclusive

/-- A call of the function at `add_off`. -/
theorem Generated.working_add (h : Generated environment space code mulOff)
    (henters : Enters environment space code (code + addOff) first second stop cpu) :
    Working code stop (first + second) (binary (.add .eax .esi)) cpu := by
  have hcode := ((bytesAt_append _ _ _).mp h.code_at).1
  rw [← assemble_add] at hcode
  exact henters.working combines_add hcode (by decide) h.protection_eq h.stack

/-- A call of the function at `mul_off`. -/
theorem Generated.working_mul (h : Generated environment space code mulOff)
    (henters : Enters environment space code (code + mulOff) first second stop cpu) :
    Working code stop (first * second) (binary (.imul .eax .esi)) cpu := by
  have hcode := ((bytesAt_append _ _ _).mp h.code_at).2
  rw [← assemble_mul, ← h.mulOff_eq] at hcode
  refine henters.working combines_imul hcode ?_ h.protection_eq h.stack
  rw [h.mulOff_eq]
  decide

/-- A function of the page can be entered: there is room on the stack, apart from the page. -/
theorem exists_enters (hplaced : Placed environment code) (space : AddressSpace) (entry : ℕ)
    (first second : BitVec 32) :
    ∃ stop cpu, Enters environment space code entry first second stop cpu := by
  have hroom := environment.room
  have hbounded := environment.bounded
  have hfits := hplaced.fits
  have hesp : (BitVec.ofNat 64 environment.stackLow).toNat = environment.stackLow := by
    rw [BitVec.toNat_ofNat, Nat.mod_eq_of_lt]
    omega
  refine ⟨code + jitSize, ⟨fun register ↦ match register with
    | .edi => first.setWidth 64
    | .esi => second.setWidth 64
    | _ => BitVec.ofNat 64 environment.stackLow, entry,
    { space with
      memory := copyTo space.memory environment.stackLow (littleEndian 8 (code + jitSize)) }⟩, ?_⟩
  constructor
  case rip_eq => rfl
  case first_eq => exact BitVec.setWidth_setWidth_of_le first (by decide)
  case second_eq => exact BitVec.setWidth_setWidth_of_le second (by decide)
  case protection_eq => rfl
  case memory_eq =>
    rintro address ⟨hge, hlt⟩
    refine copyTo_of_outside _ _ ?_
    rw [length_littleEndian]
    have hapart := hplaced.apart
    omega
  case stack_ge => exact hesp.ge
  case stack_le => exact (congrArg (· + 8) hesp).trans_le hroom
  case stop_lt => omega
  case stop_outside => exact fun hinside ↦ absurd hinside.2 (lt_irrefl _)
  case return_address =>
    rw [hesp]
    exact BytesAt.append_copyTo (bytesAt_nil environment.stackLow) (littleEndian 8 (code + jitSize))

end

/-! ### Steps -/

/-- What is emitted is a part of some bytes that fit the page. -/
theorem length_lt_of_append {bytes rest whole : Bytes} (h : bytes ++ rest = whole)
    (hwhole : whole.length < jitSize) : bytes.length < jitSize := by
  rw [← h, List.length_append] at hwhole
  omega

section

variable {space : AddressSpace} {next : State} {label : Label} {code mulOff stop rip : ℕ}
  {registers : Register → BitVec 64} {program : List Instruction}

/-- The call of `mmap`. -/
theorem step_start (hexclusive : space.WriteXorExecute)
    (hstack : ∀ address, environment.stackLow ≤ address → address < environment.stackHigh →
      (space.protection address).read = true)
    (hstep : Step environment ⟨space, .start⟩ label next) :
    ∃ rest < 25, Good environment rest next := by
  cases hstep with
  | mmapFailed => exact ⟨0, by decide, .failed hexclusive⟩
  | mmap hfits hapart =>
    have hemitted := emitted_mapPage ⟨hfits, hapart⟩ hexclusive hstack
    exact ⟨addCode.length + 19, by decide, .emitAdd (List.nil_append addCode) hemitted⟩

/-- A store for `add`, or the end of them. -/
theorem step_emitAdd {bytes rest : Bytes} (hbytes : bytes ++ rest = addCode)
    (hemitted : Emitted environment space code bytes)
    (hstep : Step environment ⟨space, .emitAdd code bytes.length rest⟩ label next) :
    ∃ budget < rest.length + 19, Good environment budget next := by
  cases hstep with
  | @storeAdd _ next _ _ byte rest hstore =>
    have hsize := length_lt_of_append hbytes (by decide)
    obtain ⟨next', hnext', hemitted'⟩ := hemitted.store hsize byte
    obtain rfl : next' = next := Option.some.inj (hnext'.symm.trans hstore)
    have hgood := Good.emitAdd ((List.append_cons bytes byte rest).symm.trans hbytes) hemitted'
    rw [List.length_append, List.length_singleton] at hgood
    exact ⟨rest.length + 19, by simp, hgood⟩
  | endAdd =>
    rw [List.append_nil] at hbytes
    subst hbytes
    rw [← List.append_nil addCode] at hemitted
    exact ⟨mulCode.length + 12, by decide, .emitMul rfl hemitted⟩

/-- A store for `mul`, or the call of `mprotect`. -/
theorem step_emitMul {bytes rest : Bytes} (hbytes : bytes ++ rest = mulCode)
    (hemitted : Emitted environment space code (addCode ++ bytes))
    (hstep : Step environment
      ⟨space, .emitMul code addCode.length (addCode ++ bytes).length rest⟩ label next) :
    ∃ budget < rest.length + 12, Good environment budget next := by
  cases hstep with
  | @storeMul _ next _ _ _ byte rest hstore =>
    have hsize := length_lt_of_append
      ((List.append_assoc _ _ _).trans (congrArg (addCode ++ ·) hbytes)) (by decide)
    obtain ⟨next', hnext', hemitted'⟩ := hemitted.store hsize byte
    obtain rfl : next' = next := Option.some.inj (hnext'.symm.trans hstore)
    rw [List.append_assoc] at hemitted'
    have hoff : (addCode ++ (bytes ++ [byte])).length = (addCode ++ bytes).length + 1 := by
      rw [← List.append_assoc]
      exact List.length_append
    have hgood := Good.emitMul ((List.append_cons bytes byte rest).symm.trans hbytes) hemitted'
    rw [hoff] at hgood
    exact ⟨rest.length + 12, by simp, hgood⟩
  | mprotectFailed => exact ⟨0, by simp, .failed hemitted.exclusive⟩
  | mprotect =>
    rw [List.append_nil] at hbytes
    subst hbytes
    exact ⟨11, by decide, .callAdd hemitted.placed hemitted.generated⟩

/-- An instruction of the call of `add`. -/
theorem step_inAdd (hplaced : Placed environment code)
    (hgenerated : Generated environment space code mulOff)
    (hworking : Working code stop (3 + 4) program ⟨registers, rip, space⟩)
    (hstep : Step environment ⟨space, .inAdd code mulOff stop registers rip⟩ label next) :
    ∃ budget < program.length + 7, Good environment budget next := by
  cases hstep with
  | @executeAdd _ _ _ _ _ _ after _ hnext =>
    obtain ⟨registers', rip', space'⟩ := after
    obtain ⟨rfl, ⟨rfl, hresult⟩ | ⟨rest, hlt, hrest⟩⟩ := hworking.next hnext
    · have hpositive := hworking.length_pos
      exact ⟨7, by omega, .endAdd hplaced hgenerated hresult⟩
    · exact ⟨rest.length + 7, by omega, .inAdd hplaced hgenerated hrest⟩
  | leaveAdd => exact absurd rfl hworking.rip_ne

/-- An instruction of the call of `mul`. -/
theorem step_inMul (hexclusive : space.WriteXorExecute)
    (hworking : Working code stop (6 * 7) program ⟨registers, rip, space⟩)
    (hstep : Step environment ⟨space, .inMul code (3 + 4) stop registers rip⟩ label next) :
    ∃ budget < program.length + 2, Good environment budget next := by
  cases hstep with
  | @executeMul _ _ _ _ _ _ after _ hnext =>
    obtain ⟨registers', rip', space'⟩ := after
    obtain ⟨rfl, ⟨rfl, hresult⟩ | ⟨rest, hlt, hrest⟩⟩ := hworking.next hnext
    · have hpositive := hworking.length_pos
      exact ⟨2, by omega, .endMul hexclusive hresult⟩
    · exact ⟨rest.length + 2, by omega, .inMul hexclusive hrest⟩
  | leaveMul => exact absurd rfl hworking.rip_ne

end

/-- Every step uses up one of the steps that are left. -/
theorem Good.step {budget : ℕ} {state next : State} {label : Label}
    (h : Good environment budget state) (hstep : Step environment state label next) :
    ∃ rest < budget, Good environment rest next := by
  cases h with
  | start hexclusive hstack => exact step_start hexclusive hstack hstep
  | emitAdd hbytes hemitted => exact step_emitAdd hbytes hemitted hstep
  | emitMul hbytes hemitted => exact step_emitMul hbytes hemitted hstep
  | callAdd hplaced hgenerated =>
    cases hstep with
    | enterAdd henters =>
      exact ⟨10, by decide,
        .inAdd hplaced (hgenerated.enter henters) (hgenerated.working_add henters)⟩
  | inAdd hplaced hgenerated hworking => exact step_inAdd hplaced hgenerated hworking hstep
  | endAdd hplaced hgenerated hresult =>
    cases hstep with
    | executeAdd hne => exact absurd rfl hne
    | leaveAdd =>
      rw [hresult]
      exact ⟨6, by decide, .callMul hplaced hgenerated⟩
  | callMul hplaced hgenerated =>
    cases hstep with
    | enterMul henters =>
      exact ⟨5, by decide,
        .inMul (hgenerated.enter henters).exclusive (hgenerated.working_mul henters)⟩
  | inMul hexclusive hworking => exact step_inMul hexclusive hworking hstep
  | endMul hexclusive hresult =>
    cases hstep with
    | executeMul hne => exact absurd rfl hne
    | leaveMul =>
      rw [hresult]
      exact ⟨1, by decide, .cleanUp hexclusive⟩
  | cleanUp hexclusive =>
    cases hstep with
    | munmap => exact ⟨0, by decide, .exited (writeXorExecute_protect (by decide) hexclusive)⟩
  | exited => cases hstep
  | failed => cases hstep

/-- Only the exit has no step. -/
theorem Good.progress {budget : ℕ} {state : State} (h : Good environment budget state) :
    (∃ status stdout stderr, state.point = .exited status stdout stderr) ∨
      ∃ label next, Step environment state label next := by
  cases h with
  | @start space => exact .inr ⟨_, _, @Step.mmapFailed _ space ""⟩
  | @emitAdd space code bytes rest hbytes hemitted =>
    cases rest with
    | nil => exact .inr ⟨_, _, .endAdd⟩
    | cons byte rest =>
      obtain ⟨next, hnext, -⟩ := hemitted.store (length_lt_of_append hbytes (by decide)) byte
      exact .inr ⟨_, _, .storeAdd hnext⟩
  | @emitMul space code bytes rest hbytes hemitted =>
    cases rest with
    | nil => exact .inr ⟨_, _, .mprotect⟩
    | cons byte rest =>
      obtain ⟨next, hnext, -⟩ := hemitted.store (length_lt_of_append
        ((List.append_assoc _ _ _).trans (congrArg (addCode ++ ·) hbytes)) (by decide)) byte
      exact .inr ⟨_, _, .storeMul hnext⟩
  | @callAdd space code _ hplaced =>
    obtain ⟨stop, cpu, henters⟩ := exists_enters hplaced space (code + addOff) 3 4
    exact .inr ⟨_, _, .enterAdd henters⟩
  | inAdd _ _ hworking =>
    obtain ⟨next, hnext, -⟩ := hworking.step
    exact .inr ⟨_, _, .executeAdd hworking.rip_ne hnext⟩
  | endAdd => exact .inr ⟨_, _, .leaveAdd⟩
  | @callMul space code mulOff hplaced =>
    obtain ⟨stop, cpu, henters⟩ := exists_enters hplaced space (code + mulOff) 6 7
    exact .inr ⟨_, _, .enterMul henters⟩
  | inMul _ hworking =>
    obtain ⟨next, hnext, -⟩ := hworking.step
    exact .inr ⟨_, _, .executeMul hworking.rip_ne hnext⟩
  | endMul => exact .inr ⟨_, _, .leaveMul⟩
  | cleanUp => exact .inr ⟨_, _, .munmap⟩
  | exited => exact .inl ⟨_, _, _, rfl⟩
  | failed => exact .inl ⟨_, _, _, rfl⟩

theorem Good.writeXorExecute {budget : ℕ} {state : State} (h : Good environment budget state) :
    state.space.WriteXorExecute := by
  cases h with
  | start hexclusive => exact hexclusive
  | emitAdd _ hemitted => exact hemitted.exclusive
  | emitMul _ hemitted => exact hemitted.exclusive
  | callAdd _ hgenerated => exact hgenerated.exclusive
  | inAdd _ hgenerated => exact hgenerated.exclusive
  | endAdd _ hgenerated => exact hgenerated.exclusive
  | callMul _ hgenerated => exact hgenerated.exclusive
  | inMul hexclusive => exact hexclusive
  | endMul hexclusive => exact hexclusive
  | cleanUp hexclusive => exact hexclusive
  | exited hexclusive => exact hexclusive
  | failed hexclusive => exact hexclusive

/-! ### Runs -/

/-- The line on `stderr` for a system call that fails. -/
def Label.failure : Label → Option String
  | .mmap (.error error) => some (perror "mmap" error)
  | .mprotect (some error) => some (perror "mprotect" error)
  | .mmap (.ok _) | .store _ _ | .nextFunction | .mprotect none | .enter _ | .execute | .leave
  | .munmap => none

/-- What is on `stderr` at a point of `main`. -/
def Point.stderr : Point → List String
  | .exited _ _ stderr => stderr
  | .start | .emitAdd _ _ _ | .emitMul _ _ _ _ | .callAdd _ _ | .inAdd _ _ _ _ _ | .callMul _ _ _
  | .inMul _ _ _ _ _ | .cleanUp _ _ _ => []

/-- Nothing but a failure is written to `stderr`. -/
theorem Step.stderr_eq {state next : State} {label : Label}
    (hstep : Step environment state label next) :
    state.point.stderr = [] ∧ next.point.stderr = label.failure.toList := by
  cases hstep <;> exact ⟨rfl, rfl⟩

variable {trace : List Label} {state : State}

/-- The invariant along a run, with the steps taken and the failures so far. -/
def Along (environment : Environment) (trace : List Label) (state : State) : Prop :=
  ∃ budget, trace.length + budget ≤ 25 ∧ Good environment budget state ∧
    trace.filterMap Label.failure = state.point.stderr

theorem along_of_run (hrun : (system environment).Run trace state) :
    Along environment trace state := by
  refine hrun.traceInvariant ?_ ?_
  · rintro ⟨space, point⟩ ⟨hpoint, hexclusive, hstack⟩
    obtain rfl : point = .start := hpoint
    exact ⟨25, by simp, .start hexclusive hstack, rfl⟩
  · rintro trace state label next - ⟨budget, hlength, hgood, hfailures⟩ hstep
    obtain ⟨rest, hlt, hrest⟩ := hgood.step hstep
    obtain ⟨hbefore, hafter⟩ := Step.stderr_eq hstep
    refine ⟨rest, ?_, hrest, ?_⟩
    · rw [List.length_append, List.length_singleton]
      omega
    · rw [List.filterMap_append, hfailures, hbefore, hafter]
      cases hfailure : label.failure <;> simp [hfailure]

/-- The stores of `add` succeed one after the other. -/
theorem run_emitAdd {code : ℕ} {bytes rest : Bytes} {space : AddressSpace}
    (hbytes : bytes ++ rest = addCode) (hemitted : Emitted environment space code bytes)
    (hrun : (system environment).Run trace ⟨space, .emitAdd code bytes.length rest⟩) :
    ∃ trace last, (system environment).Run trace ⟨last, .emitAdd code addCode.length []⟩ ∧
      Emitted environment last code addCode := by
  induction rest generalizing bytes space trace with
  | nil =>
    rw [List.append_nil] at hbytes
    subst hbytes
    exact ⟨trace, space, hrun, hemitted⟩
  | cons byte rest ih =>
    obtain ⟨next, hnext, hemitted'⟩ :=
      hemitted.store (length_lt_of_append hbytes (by decide)) byte
    have hoff : (bytes ++ [byte]).length = bytes.length + 1 := List.length_append
    have hstep := hrun.step (.storeAdd hnext)
    rw [← hoff] at hstep
    exact ih ((List.append_cons bytes byte rest).symm.trans hbytes) hemitted' hstep

/-- The stores of `mul` succeed one after the other. -/
theorem run_emitMul {code : ℕ} {bytes rest : Bytes} {space : AddressSpace}
    (hbytes : bytes ++ rest = mulCode)
    (hemitted : Emitted environment space code (addCode ++ bytes))
    (hrun : (system environment).Run trace
      ⟨space, .emitMul code addCode.length (addCode ++ bytes).length rest⟩) :
    ∃ trace last off, (system environment).Run trace
      ⟨last, .emitMul code addCode.length off []⟩ := by
  induction rest generalizing bytes space trace with
  | nil => exact ⟨trace, space, _, hrun⟩
  | cons byte rest ih =>
    have hwhole := (List.append_assoc addCode bytes (byte :: rest)).trans
      (congrArg (addCode ++ ·) hbytes)
    obtain ⟨next, hnext, hemitted'⟩ :=
      hemitted.store (length_lt_of_append hwhole (by decide)) byte
    have hoff : (addCode ++ bytes ++ [byte]).length = (addCode ++ bytes).length + 1 :=
      List.length_append
    have hstep := hrun.step (.storeMul hnext)
    rw [← hoff, List.append_assoc] at hstep
    rw [List.append_assoc] at hemitted'
    exact ih ((List.append_cons bytes byte rest).symm.trans hbytes) hemitted' hstep

/-- Where both system calls succeed, the calls are reached. -/
theorem exists_run_callAdd {code : ℕ} (hplaced : Placed environment code) {space : AddressSpace}
    (hexclusive : space.WriteXorExecute)
    (hstack : ∀ address, environment.stackLow ≤ address → address < environment.stackHigh →
      (space.protection address).read = true) :
    ∃ trace last, (system environment).Run trace ⟨last, .callAdd code addCode.length⟩ := by
  have hstart : (system environment).Run [] ⟨space, .start⟩ := .start ⟨rfl, hexclusive, hstack⟩
  have hmapped := hstart.step (.mmap hplaced.fits hplaced.apart)
  have hfresh := emitted_mapPage hplaced hexclusive hstack
  obtain ⟨trace, middle, hadd, hemitted⟩ := run_emitAdd (List.nil_append addCode) hfresh hmapped
  have hnext := hadd.step .endAdd
  rw [← List.append_nil addCode] at hemitted
  obtain ⟨trace', last, off, hmul⟩ := run_emitMul (List.nil_append mulCode) hemitted hnext
  exact ⟨_, _, hmul.step .mprotect⟩

/-- At the calls the page holds both functions: whatever the arguments, the registers and the stack,
a call at `add_off` adds, a call at `mul_off` multiplies, both keep to the calling convention and
write no memory. -/
theorem implements_of_run {space : AddressSpace} {code mulOff : ℕ}
    (hrun : (system environment).Run trace ⟨space, .callAdd code mulOff⟩) :
    Implements environment space code (code + addOff) (· + ·) ∧
      Implements environment space code (code + mulOff) (· * ·) := by
  obtain ⟨budget, -, hgood, -⟩ := along_of_run hrun
  cases hgood with
  | callAdd _ hgenerated => exact ⟨hgenerated.implements_add, hgenerated.implements_mul⟩

/-- A stack of one page. -/
def onePageStack : Environment := ⟨0x70000000, 0x70001000, by decide, by decide⟩

/-- A process with nothing but its stack. -/
def stackOnly : AddressSpace where
  memory _ := 0
  protection address := ⟨decide (0x70000000 ≤ address ∧ address < 0x70001000), false, false⟩

theorem exclusive_stackOnly : stackOnly.WriteXorExecute :=
  fun _ h ↦ absurd h.1 Bool.false_ne_true

theorem read_stackOnly : ∀ address, onePageStack.stackLow ≤ address →
    address < onePageStack.stackHigh → (stackOnly.protection address).read = true :=
  fun _ hlow hhigh ↦ decide_eq_true ⟨hlow, hhigh⟩

/-- A page at address `0x10000`, in a process with nothing but a stack. -/
theorem implements_of_run_page : ∃ space,
    Implements onePageStack space 0x10000 (0x10000 + addOff) (· + ·) ∧
      Implements onePageStack space 0x10000 (0x10000 + addCode.length) (· * ·) := by
  have hplaced : Placed onePageStack 0x10000 := ⟨by decide, by decide⟩
  obtain ⟨trace, last, hrun⟩ := exists_run_callAdd hplaced exclusive_stackOnly read_stackOnly
  exact ⟨last, implements_of_run hrun⟩

/-! ### The end of a run -/

/-- The point is behind both system calls. -/
def Point.Called : Point → Prop
  | .callAdd _ _ | .inAdd _ _ _ _ _ | .callMul _ _ _ | .inMul _ _ _ _ _ | .cleanUp _ _ _ => True
  | .exited _ stdout _ => stdout ≠ []
  | .start | .emitAdd _ _ _ | .emitMul _ _ _ _ => False

theorem Step.called {state next : State} {label : Label} (hstep : Step environment state label next)
    (h : state.point.Called) : next.point.Called := by
  cases hstep with
  | mmapFailed | mmap | storeAdd | endAdd | storeMul | mprotectFailed | mprotect => exact h.elim
  | munmap => exact List.cons_ne_nil _ _
  | enterAdd | executeAdd | leaveAdd | enterMul | executeMul | leaveMul => trivial

/-- From the calls on, a run goes on to the exit with both results. -/
theorem exists_run_exit {budget : ℕ} (hgood : Good environment budget state)
    (hcalled : state.point.Called) (hrun : (system environment).Run trace state) :
    ∃ whole space, (system environment).Run whole
      ⟨space, .exited 0 [reportAdd 7, reportMul 42] []⟩ := by
  induction budget using Nat.strong_induction_on generalizing trace state with
  | _ budget ih =>
    rcases hgood.progress with ⟨status, stdout, stderr, hexit⟩ | ⟨label, next, hstep⟩
    · obtain ⟨space, point⟩ := state
      obtain rfl : point = .exited status stdout stderr := hexit
      cases hgood with
      | exited => exact ⟨trace, space, hrun⟩
      | failed => exact absurd rfl hcalled
    · obtain ⟨rest, hlt, hrest⟩ := hgood.step hstep
      exact ih rest hlt hrest (Step.called hstep hcalled) (hrun.step hstep)

/-- Every run has at most 25 steps; no byte is ever both writable and executable; and the process
has a step to take until it exits: with status `0` after both results if no system call failed, and
otherwise with status `1`, no output, and the failure of the one that did on `stderr`. -/
theorem run_system (hrun : (system environment).Run trace state) :
    trace.length ≤ 25 ∧ state.space.WriteXorExecute ∧
      ((∃ label next, Step environment state label next) ∨
        (state.point = .exited 0 ["add(3,  4)  = 7   [OK]\n", "mul(6,  7)  = 42  [OK]\n"] [] ∧
          trace.filterMap Label.failure = []) ∨
        ∃ line, state.point = .exited 1 [] [line] ∧ trace.filterMap Label.failure = [line]) := by
  obtain ⟨budget, hlength, hgood, hfailures⟩ := along_of_run hrun
  refine ⟨by omega, hgood.writeXorExecute, ?_⟩
  rcases hgood.progress with ⟨status, stdout, stderr, hexit⟩ | hstep
  · obtain ⟨space, point⟩ := state
    obtain rfl : point = .exited status stdout stderr := hexit
    right
    cases hgood with
    | exited =>
      have hadd : reportAdd 7 = "add(3,  4)  = 7   [OK]\n" := by decide
      have hmul : reportMul 42 = "mul(6,  7)  = 42  [OK]\n" := by decide
      exact .inl ⟨by rw [hadd, hmul], hfailures⟩
    | failed => exact .inr ⟨_, rfl, hfailures⟩
  · exact .inl hstep

/-- A run to the exit, through every store, both calls and every instruction, in a process with
nothing but a stack. -/
theorem run_system_exit : ∃ trace space,
    (system onePageStack).Run trace ⟨space, .exited 0 [reportAdd 7, reportMul 42] []⟩ ∧
      trace.length ≤ 25 ∧ space.WriteXorExecute ∧ trace.filterMap Label.failure = [] := by
  have hplaced : Placed onePageStack 0x10000 := ⟨by decide, by decide⟩
  obtain ⟨called, last, hcalled⟩ :=
    exists_run_callAdd hplaced exclusive_stackOnly read_stackOnly
  obtain ⟨budget, -, hgood, -⟩ := along_of_run hcalled
  obtain ⟨trace, space, hrun⟩ := exists_run_exit hgood trivial hcalled
  obtain ⟨hlength, hexclusive, ⟨label, next, hstep⟩ | ⟨-, hnone⟩ | ⟨line, hfailed, -⟩⟩ :=
    run_system hrun
  · cases hstep
  · exact ⟨trace, space, hrun, hlength, hexclusive, hnone⟩
  · cases hfailed

end DailyChallenge.Jit
