import Mathlib
import DailyChallenge.Library.Runs

/-!
# Stackful coroutines and their scheduler

`09-stackful_croutines_ucontext_t/main.c`. A coroutine's code is what it does with the scheduler: it
yields, spawns or returns. A context is the code that is left where it last stopped; `swapcontext`
saves the rest of the running code and goes on with the other context, and a return enters
`done_ctx`, which runs `finish_trampoline` and then goes back to the scheduler. A context that was
entered by a return is consumed until it is made again.

One step of `scheduler_run` is one action of the running coroutine, or one pass of the loop up to
the switch. An access outside the array of coroutines, and an entry of a consumed `done_ctx`, has no
step. What follows the resumption of a coroutine that is done is not the behaviour of the source:
there it enters the last stop of the coroutine on a stack that has been unwound since, and the
process ends, while the step relation goes on from that stop.
-/

set_option autoImplicit false
set_option relaxedAutoImplicit false

namespace DailyChallenge.Coroutines

open Library

/-- `MAX_COROUTINES`. -/
def maxCoroutines : ℕ := 8

/-- What the code of a coroutine does, from some point on. -/
inductive Code
  | ret
  | yield (rest : Code)
  | spawn (fn rest : Code)
deriving DecidableEq

inductive CoroState
  | ready
  | running
  | done
deriving DecidableEq

structure Coroutine where
  ctx : Code
  state : CoroState
  id : ℕ
deriving DecidableEq

/-- The globals: the first `coro_count` entries of `coros`, `current`, and whether `done_ctx` can be
entered. -/
structure Globals where
  coros : List Coroutine
  current : ℤ
  doneCtx : Bool
deriving DecidableEq

namespace Globals

def coroCount (globals : Globals) : ℕ := globals.coros.length

/-- `coros[current]`. -/
def running (globals : Globals) : Option Coroutine :=
  if 0 ≤ globals.current then globals.coros[globals.current.toNat]? else none

/-- A write to a field of `coros[current]`. -/
def modify (globals : Globals) (f : Coroutine → Coroutine) : Globals :=
  { globals with coros := globals.coros.modify globals.current.toNat f }

def setState (globals : Globals) (state : CoroState) : Globals :=
  globals.modify fun coro ↦ { coro with state := state }

def setCtx (globals : Globals) (ctx : Code) : Globals :=
  globals.modify fun coro ↦ { coro with ctx := ctx }

/-- `coros[index].state == CORO_READY`. -/
def isReady (globals : Globals) (index : ℕ) : Bool :=
  match globals.coros[index]? with
  | some coro => coro.state = .ready
  | none => false

end Globals

/-- `coro_spawn`; there is no room for more than `MAX_COROUTINES`. -/
def coroSpawn (globals : Globals) (fn : Code) : Option Globals :=
  if globals.coroCount < maxCoroutines then
    some { globals with coros := globals.coros ++ [⟨fn, .ready, globals.coroCount⟩] }
  else none

/-- `done_spawn(finish_trampoline)`. -/
def doneSpawn (globals : Globals) : Globals := { globals with doneCtx := true }

/-- The return of a coroutine: `done_ctx` is entered and runs `finish_trampoline`. -/
def finish (globals : Globals) : Option Globals :=
  if globals.doneCtx then some { globals.setState .done with doneCtx := false } else none

/-- The `for` loop of `scheduler_run`, over the indices `cr % coro_count`. -/
def select (globals : Globals) : Globals :=
  match ((List.range' (globals.current + 1).toNat globals.coroCount).map
    (· % globals.coroCount)).find? globals.isReady with
  | some index => { globals with current := index }
  | none => globals

/-- Where `scheduler_run` is: at the test of its loop, in the code of a coroutine, or done. -/
inductive Pc
  | test (completed : ℕ)
  | inside (completed : ℕ) (code : Code)
  | returned
deriving DecidableEq

structure State where
  globals : Globals
  pc : Pc
deriving DecidableEq

/-- What a step shows. -/
inductive Event
  | resume (index : ℤ)
  | yield (index : ℤ)
  | spawn (index : ℤ)
  | finish (index : ℤ)
  | exit
deriving DecidableEq

/-- `scheduler_run` after the switch back: a finished coroutine is counted and `done_ctx` made
again, any other is ready. -/
def afterSwitch (globals : Globals) (completed : ℕ) : Option State :=
  globals.running.map fun coro ↦
    if coro.state = .done then ⟨doneSpawn globals, .test (completed + 1)⟩
    else ⟨globals.setState .ready, .test completed⟩

/-- One step of `scheduler_run` and the coroutines under it. -/
def step : State → Option (State × Event)
  | ⟨globals, .test completed⟩ =>
    if completed < globals.coroCount then
      let selected := select globals
      selected.running.map fun coro ↦
        (⟨selected.setState .running, .inside completed coro.ctx⟩, .resume selected.current)
    else some (⟨globals, .returned⟩, .exit)
  | ⟨globals, .inside completed (.yield rest)⟩ =>
    (afterSwitch (globals.setCtx rest) completed).map fun next ↦ (next, .yield globals.current)
  | ⟨globals, .inside completed (.spawn fn rest)⟩ =>
    (coroSpawn globals fn).map fun next ↦
      (⟨next, .inside completed rest⟩, .spawn globals.current)
  | ⟨globals, .inside completed .ret⟩ =>
    (finish globals).bind fun next ↦
      (afterSwitch next completed).map fun last ↦ (last, .finish globals.current)
  | ⟨_, .returned⟩ => none

/-- The globals of a program that has made `done_ctx` and spawned nothing. -/
def Globals.initial : Globals := doneSpawn { coros := [], current := -1, doneCtx := false }

/-- A sequence of calls of `coro_spawn`. -/
def spawnAll (globals : Globals) (fns : List Code) : Option Globals :=
  fns.foldlM coroSpawn globals

/-- A call of `scheduler_run` after a sequence of calls of `coro_spawn`. -/
def schedulerRun (fns : List Code) : TransitionSystem State Event where
  Start state := spawnAll .initial fns = some state.globals ∧ state.pc = .test 0
  Step state event next := step state = some (next, event)

theorem pc_ne_of_step {state next : State} {event : Event}
    (hstep : step state = some (next, event)) : state.pc ≠ .returned := by
  obtain ⟨globals, pc⟩ := state
  rintro rfl
  cases hstep

theorem schedulerRun_deterministic (fns : List Code) : (schedulerRun fns).Deterministic where
  start first second hfirst hsecond := by
    obtain ⟨globals, pc⟩ := first
    obtain ⟨globals', pc'⟩ := second
    obtain ⟨hglobals, rfl⟩ := hfirst
    obtain ⟨hglobals', rfl⟩ := hsecond
    have hsame : globals = globals' := Option.some.inj (hglobals.symm.trans hglobals')
    rw [hsame]
  step state event next event' next' hstep hstep' := by
    have hsame := Option.some.inj (hstep.symm.trans hstep')
    exact ⟨(Prod.mk.inj hsame).2, (Prod.mk.inj hsame).1⟩

end DailyChallenge.Coroutines
