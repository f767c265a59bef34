import Mathlib
import DailyChallenge.Library.Runs

/-!
# The atomic stack

What the stack is for: one list of values, with calls that take effect in one step between their
call and their return. A push puts its value on top, a pop takes the top value or finds the list
empty, and a pop returns what it took. `accounts_run` is conservation along every run: the values
pushes were called with are exactly the values of pushes that have not taken effect, the values on
the list, the values of pops that have not returned, and the values pops returned, each as often.
-/

set_option autoImplicit false
set_option relaxedAutoImplicit false

namespace DailyChallenge.Treiber

open Library

/-- What a thread is doing, as far as the atomic stack is concerned. -/
inductive Status (T : Type*)
  | idle
  | pushing (val : T)
  | pushed
  | popping
  | popped (result : Option T)

/-- A step of the atomic stack: a call, an effect or a return. -/
inductive Action (T : Type*)
  | callPush (val : T)
  | put
  | returnPush
  | callPop
  | take
  | findEmpty
  | returnPop (result : Option T)

/-- The values on the stack, the top first, and what every thread is doing. -/
structure AtomicStack (Thread T : Type*) where
  items : List T
  status : Thread → Status T

section

variable {Thread T : Type*}

/-- One step of one thread on the atomic stack. -/
inductive AtomicStep [DecidableEq Thread] :
    AtomicStack Thread T → Thread × Action T → AtomicStack Thread T → Prop
  | callPush (stack : AtomicStack Thread T) (thread : Thread) (val : T)
      (h : stack.status thread = .idle) :
    AtomicStep stack (thread, .callPush val)
      ⟨stack.items, Function.update stack.status thread (.pushing val)⟩
  | put (stack : AtomicStack Thread T) (thread : Thread) (val : T)
      (h : stack.status thread = .pushing val) :
    AtomicStep stack (thread, .put)
      ⟨val :: stack.items, Function.update stack.status thread .pushed⟩
  | returnPush (stack : AtomicStack Thread T) (thread : Thread)
      (h : stack.status thread = .pushed) :
    AtomicStep stack (thread, .returnPush)
      ⟨stack.items, Function.update stack.status thread .idle⟩
  | callPop (stack : AtomicStack Thread T) (thread : Thread) (h : stack.status thread = .idle) :
    AtomicStep stack (thread, .callPop)
      ⟨stack.items, Function.update stack.status thread .popping⟩
  | take (stack : AtomicStack Thread T) (thread : Thread) (val : T) (rest : List T)
      (h : stack.status thread = .popping) (hitems : stack.items = val :: rest) :
    AtomicStep stack (thread, .take)
      ⟨rest, Function.update stack.status thread (.popped (some val))⟩
  | findEmpty (stack : AtomicStack Thread T) (thread : Thread)
      (h : stack.status thread = .popping) (hitems : stack.items = []) :
    AtomicStep stack (thread, .findEmpty)
      ⟨stack.items, Function.update stack.status thread (.popped none)⟩
  | returnPop (stack : AtomicStack Thread T) (thread : Thread) (result : Option T)
      (h : stack.status thread = .popped result) :
    AtomicStep stack (thread, .returnPop result)
      ⟨stack.items, Function.update stack.status thread .idle⟩

/-- The atomic stack, empty and with all threads idle at the start. -/
def atomicStack (Thread T : Type*) [DecidableEq Thread] :
    TransitionSystem (AtomicStack Thread T) (Thread × Action T) where
  Start stack := stack = ⟨[], fun _ ↦ .idle⟩
  Step := AtomicStep

/-! ### Conservation -/

/-- The value of a push that has not taken effect. -/
def Status.entering : Status T → Option T
  | .pushing val => some val
  | _ => none

/-- The value of a pop that has taken effect and not returned. -/
def Status.leaving : Status T → Option T
  | .popped result => result
  | _ => none

/-- The value an action passes to a push. -/
def Action.argument : Action T → Option T
  | .callPush val => some val
  | _ => none

/-- The value an action returns from a pop. -/
def Action.returned : Action T → Option T
  | .returnPop result => result
  | _ => none

/-- The values pushes were called with along a trace. -/
def calledValues (trace : List (Thread × Action T)) : List T :=
  trace.filterMap fun label ↦ label.2.argument

/-- The values pops returned along a trace. -/
def returnedValues (trace : List (Thread × Action T)) : List T :=
  trace.filterMap fun label ↦ label.2.returned

section Trace

variable {trace : List (Thread × Action T)} {label : Thread × Action T}

theorem calledValues_append_of_none (h : label.2.argument = none) :
    calledValues (trace ++ [label]) = calledValues trace := by
  simp [calledValues, h]

theorem calledValues_append_of_some {val : T} (h : label.2.argument = some val) :
    (calledValues (trace ++ [label]) : Multiset T) = val ::ₘ calledValues trace := by
  rw [calledValues, List.filterMap_append, ← Multiset.coe_add, List.filterMap_cons, h, add_comm]
  rfl

theorem returnedValues_append_of_none (h : label.2.returned = none) :
    returnedValues (trace ++ [label]) = returnedValues trace := by
  simp [returnedValues, h]

theorem returnedValues_append_of_some {val : T} (h : label.2.returned = some val) :
    (returnedValues (trace ++ [label]) : Multiset T) = val ::ₘ returnedValues trace := by
  rw [returnedValues, List.filterMap_append, ← Multiset.coe_add, List.filterMap_cons, h, add_comm]
  rfl

end Trace

/-- A list of the finitely many threads at which a partial function has a value, each once. -/
def Lists (pending : List (Thread × T)) (value : Thread → Option T) : Prop :=
  pending.Nodup ∧ ∀ thread val, (thread, val) ∈ pending ↔ value thread = some val

/-- A thread without a value is given one. -/
theorem Lists.add [DecidableEq Thread] {pending : List (Thread × T)} {value : Thread → Option T}
    (h : Lists pending value) {thread : Thread} (hnone : value thread = none) (val : T) :
    Lists ((thread, val) :: pending) (Function.update value thread (some val)) := by
  refine ⟨List.nodup_cons.mpr ⟨fun hmem ↦ ?_, h.1⟩, fun other val' ↦ ?_⟩
  · rw [h.2, hnone] at hmem
    cases hmem
  · rw [List.mem_cons, h.2, Prod.mk.injEq]
    by_cases hother : other = thread
    · rw [hother, Function.update_self, hnone]
      simp [eq_comm]
    · simp [hother]

/-- A thread with a value loses it. -/
theorem Lists.remove [DecidableEq Thread] {pending : List (Thread × T)}
    {value : Thread → Option T} (h : Lists pending value) {thread : Thread} {val : T}
    (hsome : value thread = some val) :
    ∃ rest, pending.Perm ((thread, val) :: rest) ∧
      Lists rest (Function.update value thread none) := by
  obtain ⟨before, after, rfl⟩ := List.append_of_mem ((h.2 thread val).mpr hsome)
  have hperm : (before ++ (thread, val) :: after).Perm ((thread, val) :: (before ++ after)) :=
    List.perm_middle
  obtain ⟨hnew, hnodup⟩ := List.nodup_cons.mp (hperm.nodup_iff.mp h.1)
  refine ⟨before ++ after, hperm, hnodup, fun other val' ↦ ?_⟩
  have hmem : (other, val') ∈ before ++ after ↔
      (other, val') ≠ (thread, val) ∧ value other = some val' := by
    rw [← h.2, hperm.mem_iff, List.mem_cons]
    constructor
    · intro hrest
      exact ⟨fun hsame ↦ hnew (hsame ▸ hrest), Or.inr hrest⟩
    · rintro ⟨hne, hsame | hrest⟩
      · exact absurd hsame hne
      · exact hrest
  rw [hmem]
  by_cases hother : other = thread
  · rw [hother, Function.update_self, hsome]
    simp [eq_comm]
  · simp [hother]

/-- The books of a trace: which values are entering and leaving, and the balance. -/
structure Accounts (trace : List (Thread × Action T)) (stack : AtomicStack Thread T)
    (entering leaving : List (Thread × T)) : Prop where
  entering_lists : Lists entering fun thread ↦ (stack.status thread).entering
  leaving_lists : Lists leaving fun thread ↦ (stack.status thread).leaving
  balance : (calledValues trace : Multiset T) =
    entering.map Prod.snd + stack.items + leaving.map Prod.snd + returnedValues trace

section Steps

variable [DecidableEq Thread] {view : Status T → Option T} {status : Thread → Status T}
  {pending : List (Thread × T)} {thread : Thread}

/-- What a function of the status reads after one thread changed its status. -/
theorem status_update (view : Status T → Option T) (status : Thread → Status T) (thread : Thread)
    (next : Status T) :
    (fun other ↦ view (Function.update status thread next other)) =
      Function.update (fun other ↦ view (status other)) thread (view next) :=
  Function.comp_update view status thread next

/-- A status change that the function does not see. -/
theorem Lists.keep (h : Lists pending fun other ↦ view (status other)) {next : Status T}
    (hsame : view next = view (status thread)) :
    Lists pending fun other ↦ view (Function.update status thread next other) := by
  rw [status_update, hsame]
  simpa using h

/-- A status change that gives the thread a value. -/
theorem Lists.enter (h : Lists pending fun other ↦ view (status other)) {next : Status T} {val : T}
    (hold : view (status thread) = none) (hnew : view next = some val) :
    Lists ((thread, val) :: pending) fun other ↦
      view (Function.update status thread next other) := by
  rw [status_update, hnew]
  exact h.add hold val

/-- A status change that takes the thread's value away. -/
theorem Lists.leave (h : Lists pending fun other ↦ view (status other)) {next : Status T} {val : T}
    (hold : view (status thread) = some val) (hnew : view next = none) :
    ∃ rest, (pending.map Prod.snd : Multiset T) = val ::ₘ rest.map Prod.snd ∧
      Lists rest fun other ↦ view (Function.update status thread next other) := by
  obtain ⟨rest, hperm, hrest⟩ := h.remove hold
  refine ⟨rest, ?_, ?_⟩
  · exact Multiset.coe_eq_coe.mpr (hperm.map Prod.snd)
  · rw [status_update, hnew]
    exact hrest

/-- Every step keeps the books. -/
theorem Accounts.step {trace : List (Thread × Action T)} {stack next : AtomicStack Thread T}
    {entering leaving : List (Thread × T)} {label : Thread × Action T}
    (h : Accounts trace stack entering leaving) (hstep : AtomicStep stack label next) :
    ∃ entering' leaving', Accounts (trace ++ [label]) next entering' leaving' := by
  obtain ⟨hentering, hleaving, hbalance⟩ := h
  -- a step that calls nothing, returns no value and moves no value keeps both lists
  have hkeep : ∀ thread action next, label = (thread, action) → action.argument = none →
      action.returned = none → next.entering = (stack.status thread).entering →
        next.leaving = (stack.status thread).leaving →
          Accounts (trace ++ [label]) ⟨stack.items, Function.update stack.status thread next⟩
            entering leaving := by
    rintro thread action next rfl hargument hreturned henter hleave
    refine ⟨hentering.keep henter, hleaving.keep hleave, ?_⟩
    rw [calledValues_append_of_none hargument, returnedValues_append_of_none hreturned]
    exact hbalance
  cases hstep with
  | callPush thread val hstatus =>
    refine ⟨(thread, val) :: entering, leaving, hentering.enter (by rw [hstatus]; rfl) rfl,
      hleaving.keep (by rw [hstatus]; rfl), ?_⟩
    rw [calledValues_append_of_some rfl, returnedValues_append_of_none rfl, hbalance,
      List.map_cons, ← Multiset.cons_coe]
    simp only [Multiset.cons_add]
  | put thread val hstatus =>
    obtain ⟨rest, hrest, hlists⟩ :=
      hentering.leave (by rw [hstatus]; rfl) (Eq.refl Status.pushed.entering)
    refine ⟨rest, leaving, hlists, hleaving.keep (by rw [hstatus]; rfl), ?_⟩
    rw [calledValues_append_of_none rfl, returnedValues_append_of_none rfl, hbalance, hrest,
      ← Multiset.cons_coe]
    simp only [Multiset.cons_add, Multiset.add_cons]
  | returnPush thread hstatus =>
    exact ⟨entering, leaving,
      hkeep _ _ _ rfl rfl rfl (by rw [hstatus]; rfl) (by rw [hstatus]; rfl)⟩
  | callPop thread hstatus =>
    exact ⟨entering, leaving,
      hkeep _ _ _ rfl rfl rfl (by rw [hstatus]; rfl) (by rw [hstatus]; rfl)⟩
  | take thread val rest hstatus hitems =>
    refine ⟨entering, (thread, val) :: leaving, hentering.keep (by rw [hstatus]; rfl),
      hleaving.enter (by rw [hstatus]; rfl) rfl, ?_⟩
    rw [calledValues_append_of_none rfl, returnedValues_append_of_none rfl, hbalance, hitems,
      List.map_cons, ← Multiset.cons_coe, ← Multiset.cons_coe]
    simp only [Multiset.cons_add, Multiset.add_cons]
  | findEmpty thread hstatus hitems =>
    exact ⟨entering, leaving,
      hkeep _ _ _ rfl rfl rfl (by rw [hstatus]; rfl) (by rw [hstatus]; rfl)⟩
  | returnPop thread result hstatus =>
    cases result with
    | none =>
      exact ⟨entering, leaving,
        hkeep _ _ _ rfl rfl rfl (by rw [hstatus]; rfl) (by rw [hstatus]; rfl)⟩
    | some val =>
      obtain ⟨rest, hrest, hlists⟩ :=
        hleaving.leave (by rw [hstatus]; rfl) (Eq.refl Status.idle.leaving)
      refine ⟨entering, rest, hentering.keep (by rw [hstatus]; rfl), hlists, ?_⟩
      rw [calledValues_append_of_none rfl, returnedValues_append_of_some rfl, hbalance, hrest]
      simp only [Multiset.cons_add, Multiset.add_cons]

/-- Along every run of the atomic stack the books balance. -/
theorem accounts_run {trace : List (Thread × Action T)} {stack : AtomicStack Thread T}
    (hrun : (atomicStack Thread T).Run trace stack) :
    ∃ entering leaving, Accounts trace stack entering leaving := by
  apply hrun.traceInvariant
  · rintro stack rfl
    have hnothing : Lists ([] : List (Thread × T)) fun _ ↦ none :=
      ⟨List.nodup_nil, fun _ _ ↦ by simp⟩
    exact ⟨[], [], hnothing, hnothing, rfl⟩
  · rintro trace stack label next - ⟨entering, leaving, haccounts⟩ hstep
    exact haccounts.step hstep

end Steps

end

end DailyChallenge.Treiber
