import Mathlib
import DailyChallenge.Treiber.AtomicStack
import DailyChallenge.Treiber.Ownership

/-!
# The Treiber stack refines the atomic stack

`view` gives every step its abstract action: calls and returns are themselves, the successful
exchange of a push puts its value, the successful exchange of a pop takes the top, and the read of a
null head finds the list empty. `related_step` is the simulation, one case for each step of the
code, and `refinement_run` the refinement along every run, with conservation of the pushed values.
`exists_step` shows that no thread is ever stuck on a dangling pointer or a value already moved.
-/

set_option autoImplicit false
set_option relaxedAutoImplicit false

namespace DailyChallenge.Treiber

open Library

section

variable {Thread Addr T : Type*}

/-- The action of the atomic stack at a step of the code, if there is one. -/
def view : Event Addr T → Option (Action T)
  | .callPush val => some (.callPush val)
  | .casPush => some .put
  | .returnPush => some .returnPush
  | .callPop => some .callPop
  | .casPop => some .take
  | .readNull => some .findEmpty
  | .returnPop result => some (.returnPop result)
  | .new _ | .internal => none

/-- The action of the atomic stack at a labelled step of the system. -/
def viewLabel (label : Thread × Event Addr T) : Option (Thread × Action T) :=
  (view label.2).map fun action ↦ (label.1, action)

/-- The status a program point stands for, given the values in the nodes. -/
def StatusIs (valueAt : Addr → Option T) : Pc Addr T → Status T → Prop
  | .idle, status => status = .idle
  | .pushNew val, status => status = .pushing val
  | .pushLoad node, status | .pushLink node _, status | .pushCas node _, status =>
    ∃ val, status = .pushing val ∧ valueAt node = some val
  | .pushReturn, status => status = .pushed
  | .popLoad, status | .popNext _, status | .popCas _ _, status => status = .popping
  | .popMove node, status => ∃ val, status = .popped (some val) ∧ valueAt node = some val
  | .retireLoad _ val, status | .retireLink _ val _, status | .retireCas _ val _, status =>
    status = .popped (some val)
  | .popReturn result, status => status = .popped result

/-- The stack of nodes holds the values of the atomic stack, and every program point stands for the
status of its thread. -/
structure Represents (state : State Thread Addr T) (shadow : AtomicStack Thread T)
    (stack : List Addr) : Prop where
  items : List.Forall₂ (fun node val ↦ state.memory.valueAt node = some val) stack shadow.items
  status : ∀ thread, StatusIs state.memory.valueAt (state.pc thread) (shadow.status thread)

/-- The simulation relation: ownership, and the stack it speaks of represents the atomic one. -/
def Related (state : State Thread Addr T) (shadow : AtomicStack Thread T) : Prop :=
  ∃ stack retired, Ownership state stack retired ∧ Represents state shadow stack

/-- Values that agree on the nodes of a stack are represented alike. -/
theorem items_congr {valueAt valueAt' : Addr → Option T} {stack : List Addr} {items : List T}
    (h : List.Forall₂ (fun node val ↦ valueAt node = some val) stack items)
    (hkeep : ∀ node ∈ stack, valueAt' node = valueAt node) :
    List.Forall₂ (fun node val ↦ valueAt' node = some val) stack items := by
  induction h with
  | nil => exact .nil
  | cons hhead _ ih =>
    refine .cons ((hkeep _ List.mem_cons_self).trans hhead) (ih fun node hnode ↦ ?_)
    exact hkeep node (List.mem_cons_of_mem _ hnode)

/-- A program point stands for the same status as long as the value in its own node is kept. -/
theorem StatusIs.congr {valueAt valueAt' : Addr → Option T} {pc : Pc Addr T} {status : Status T}
    (h : StatusIs valueAt pc status)
    (hkeep : ∀ node, pc.owned = some node → valueAt' node = valueAt node) :
    StatusIs valueAt' pc status := by
  cases pc with
  | pushLoad node | pushLink node _ | pushCas node _ | popMove node =>
    obtain ⟨val, hstatus, hvalue⟩ := h
    exact ⟨val, hstatus, (hkeep node rfl).trans hvalue⟩
  | _ => exact h

variable {state : State Thread Addr T} {stack retired : List Addr}

/-- The head of the stack is live and hidden by nobody. -/
theorem Ownership.head_public (h : Ownership state stack retired) {node : Addr}
    (hhead : state.memory.head = some node) :
    state.memory.link node ≠ none ∧ ¬ Unpublished state.pc node := by
  have hchain := h.head_chain
  rw [hhead] at hchain
  obtain ⟨next, rest, rfl, hlink, -⟩ := hchain.exists_cons
  refine ⟨by rw [hlink]; exact Option.some_ne_none next, ?_⟩
  rintro ⟨thread, hhidden⟩
  exact h.unlinked thread node (Pc.owned_of_unpublished hhidden) List.mem_cons_self

variable [DecidableEq Thread] {shadow : AtomicStack Thread T} {thread : Thread}

/-- The statuses after a step of one thread. -/
theorem Represents.status_update (h : Represents state shadow stack)
    {valueAt : Addr → Option T} {next : Pc Addr T} {status : Status T}
    (hself : StatusIs valueAt next status)
    (hkeep : ∀ other, other ≠ thread → ∀ node, (state.pc other).owned = some node →
      valueAt node = state.memory.valueAt node) (other : Thread) :
    StatusIs valueAt (Function.update state.pc thread next other)
      (Function.update shadow.status thread status other) := by
  by_cases hother : other = thread
  · rw [hother, Function.update_self, Function.update_self]
    exact hself
  · rw [Function.update_of_ne hother, Function.update_of_ne hother]
    exact (h.status other).congr (hkeep other hother)

/-- The statuses after a step of one thread that keeps its own. -/
theorem Represents.status_keep (h : Represents state shadow stack)
    {valueAt : Addr → Option T} {next : Pc Addr T}
    (hself : StatusIs valueAt next (shadow.status thread))
    (hkeep : ∀ other, other ≠ thread → ∀ node, (state.pc other).owned = some node →
      valueAt node = state.memory.valueAt node) (other : Thread) :
    StatusIs valueAt (Function.update state.pc thread next other) (shadow.status other) := by
  have hupdate := h.status_update hself hkeep other
  rwa [Function.update_eq_self] at hupdate

/-- A step that leaves the memory, the stack and the thread's node alone, and maybe changes the
status of its thread. -/
theorem related_move {old next : Pc Addr T} {status : Status T}
    (hown : Ownership state stack retired) (hrep : Represents state shadow stack)
    (hpc : state.pc thread = old)
    (howned : next.owned = old.owned) (hhidden : next.unpublished = old.unpublished)
    (hlocal : ∀ hidden : Addr → Prop, (∀ node, hidden node → Unpublished state.pc node) →
      LocalFacts state.memory.link stack hidden next)
    (hself : StatusIs state.memory.valueAt next status) :
    Related ⟨state.memory, Function.update state.pc thread next⟩
      ⟨shadow.items, Function.update shadow.status thread status⟩ := by
  subst hpc
  exact ⟨stack, retired, hown.move rfl rfl rfl howned hhidden hlocal,
    ⟨hrep.items, hrep.status_update hself fun _ _ _ _ ↦ rfl⟩⟩

/-- A step that leaves the memory, the stack, the thread's node and its status alone. -/
theorem related_silent {old next : Pc Addr T} (hown : Ownership state stack retired)
    (hrep : Represents state shadow stack) (hpc : state.pc thread = old)
    (howned : next.owned = old.owned) (hhidden : next.unpublished = old.unpublished)
    (hlocal : ∀ hidden : Addr → Prop, (∀ node, hidden node → Unpublished state.pc node) →
      LocalFacts state.memory.link stack hidden next)
    (hself : StatusIs state.memory.valueAt next (shadow.status thread)) :
    Related ⟨state.memory, Function.update state.pc thread next⟩ shadow := by
  subst hpc
  exact ⟨stack, retired, hown.move rfl rfl rfl howned hhidden hlocal,
    ⟨hrep.items, hrep.status_keep hself fun _ _ _ _ ↦ rfl⟩⟩

variable [DecidableEq Addr]

/-- A thread writes the next field of its own node. -/
theorem related_writeNext {node : Addr} {next : Pc Addr T} (target : Option Addr)
    (hown : Ownership state stack retired) (hrep : Represents state shadow stack)
    (hnode : (state.pc thread).owned = some node) (howned : next.owned = some node)
    (hhidden : next.unpublished = (state.pc thread).unpublished)
    (hlocal : ∀ link hidden, link node = some target → LocalFacts link stack hidden next)
    (hself : StatusIs state.memory.valueAt next (shadow.status thread)) :
    Related ⟨state.memory.setNext node target, Function.update state.pc thread next⟩ shadow := by
  have hvalues := Memory.valueAt_setNext state.memory node target
  refine ⟨stack, retired, hown.writeNext target hnode howned hhidden hlocal, ?_, ?_⟩
  · rw [hvalues]
    exact hrep.items
  · rw [hvalues]
    exact hrep.status_keep hself fun _ _ _ _ ↦ rfl

/-- The allocation of a push. -/
theorem related_new {newHead : Addr} {val : T} (hown : Ownership state stack retired)
    (hrep : Represents state shadow stack) (hpc : state.pc thread = .pushNew val)
    (hfresh : state.memory.heap newHead = none) :
    Related ⟨state.memory.new newHead val,
      Function.update state.pc thread (.pushLoad newHead)⟩ shadow := by
  have hdead : state.memory.link newHead = none := by rw [Memory.link, hfresh]; rfl
  have hkeep : ∀ node, state.memory.link node ≠ none →
      (state.memory.new newHead val).valueAt node = state.memory.valueAt node := by
    rintro node hlive
    rw [Memory.valueAt_new, Function.update_of_ne]
    rintro rfl
    exact hlive hdead
  have hself : StatusIs (state.memory.new newHead val).valueAt (.pushLoad newHead)
      (shadow.status thread) := by
    have hstatus := hrep.status thread
    rw [hpc] at hstatus
    exact ⟨val, hstatus, by rw [Memory.valueAt_new, Function.update_self]⟩
  refine ⟨stack, retired, hown.new hpc hfresh, ?_, ?_⟩
  · exact items_congr hrep.items fun node hnode ↦ hkeep node (hown.head_chain.live node hnode)
  · exact hrep.status_keep hself fun other _ node hnode ↦ hkeep node (hown.live_of_owned hnode)

/-- The move of the value out of the node a pop has taken. -/
theorem related_moveValue {oldHead : Addr} {val : T} (hown : Ownership state stack retired)
    (hrep : Represents state shadow stack) (hpc : state.pc thread = .popMove oldHead)
    (hvalue : state.memory.valueAt oldHead = some val) :
    Related ⟨state.memory.moveValue oldHead,
      Function.update state.pc thread (.retireLoad oldHead val)⟩ shadow := by
  have howned : (state.pc thread).owned = some oldHead := by rw [hpc]; rfl
  have hself : StatusIs (state.memory.moveValue oldHead).valueAt (.retireLoad oldHead val)
      (shadow.status thread) := by
    have hstatus := hrep.status thread
    rw [hpc] at hstatus
    obtain ⟨val', hstatus, hval⟩ := hstatus
    obtain rfl := Option.some.inj (hvalue.symm.trans hval)
    exact hstatus
  refine ⟨stack, retired, hown.move (Memory.link_moveValue _ _) rfl rfl (by rw [hpc]; rfl)
    (by rw [hpc]; rfl) fun _ _ ↦ trivial, ?_, ?_⟩
  · refine items_congr hrep.items fun node hnode ↦ Memory.valueAt_moveValue_of_ne _ ?_
    rintro rfl
    exact hown.unlinked thread node howned (List.mem_append_left _ hnode)
  · refine hrep.status_keep hself fun other hother node hnode ↦ ?_
    refine Memory.valueAt_moveValue_of_ne _ ?_
    rintro rfl
    exact hother (hown.unique other thread node hnode howned)

/-- Every step of the code is the step of the atomic stack that its view names, or none. -/
theorem related_step {next : State Thread Addr T} {label : Thread × Event Addr T}
    (h : Related state shadow) (hstep : Step state label next) :
    match viewLabel label with
    | none => Related next shadow
    | some seen => ∃ shadowNext, AtomicStep shadow seen shadowNext ∧ Related next shadowNext := by
  obtain ⟨stack, retired, hown, hrep⟩ := h
  obtain ⟨thread, event, memory, pc, hthread⟩ := hstep
  have hstatus := hrep.status thread
  have hlocals := hown.locals thread
  generalize hpc : state.pc thread = old at hthread hstatus hlocals
  have hpublic : ∀ node, state.memory.head = some node → ∀ hidden : Addr → Prop,
      (∀ node, hidden node → Unpublished state.pc node) →
        LocalFacts (T := T) state.memory.link stack hidden (.popNext node) :=
    fun node hhead hidden hsub ↦
      ⟨(hown.head_public hhead).1, fun hnow ↦ (hown.head_public hhead).2 (hsub node hnow)⟩
  have hnull : state.memory.head = none → shadow.items = [] := by
    intro hhead
    have hchain := hown.head_chain
    rw [hhead] at hchain
    have hitems := hrep.items
    rw [hchain.eq_nil] at hitems
    exact List.forall₂_nil_left_iff.mp hitems
  cases hthread with
  | callPush val =>
    exact ⟨_, .callPush shadow thread val hstatus,
      related_move hown hrep hpc rfl rfl (fun _ _ ↦ trivial) rfl⟩
  | new val newHead hfresh => exact related_new hown hrep hpc hfresh
  | pushLoad newHead =>
    exact related_silent hown hrep hpc rfl rfl (fun _ _ ↦ trivial) hstatus
  | pushLink newHead oldHead hlive =>
    exact related_writeNext oldHead hown hrep (by rw [hpc]; rfl) rfl (by rw [hpc]; rfl)
      (fun _ _ hlink ↦ hlink) hstatus
  | pushCas newHead oldHead hequal =>
    obtain ⟨val, hpushing, hval⟩ := hstatus
    exact ⟨_, .put shadow thread val hpushing, newHead :: stack, retired,
      hown.pushCas hpc hequal, .cons hval hrep.items,
      hrep.status_update rfl fun _ _ _ _ ↦ rfl⟩
  | pushCasFail newHead oldHead =>
    exact related_silent hown hrep hpc rfl rfl (fun _ _ ↦ trivial) hstatus
  | pushReturn =>
    exact ⟨_, .returnPush shadow thread hstatus,
      related_move hown hrep hpc rfl rfl (fun _ _ ↦ trivial) rfl⟩
  | callPop =>
    exact ⟨_, .callPop shadow thread hstatus,
      related_move hown hrep hpc rfl rfl (fun _ _ ↦ trivial) rfl⟩
  | popLoad oldHead hhead =>
    exact related_silent hown hrep hpc rfl rfl (hpublic oldHead hhead) hstatus
  | popLoadNull hhead =>
    exact ⟨_, .findEmpty shadow thread hstatus (hnull hhead),
      related_move hown hrep hpc rfl rfl (fun _ _ ↦ trivial) rfl⟩
  | popNext oldHead newHead hnext =>
    refine related_silent hown hrep hpc rfl rfl (fun hidden hsub ↦ ?_) hstatus
    exact ⟨hlocals.1, fun hnow ↦ hlocals.2 (hsub oldHead hnow), fun _ ↦ hnext⟩
  | popCas oldHead newHead hequal =>
    obtain ⟨rest, rfl, hnext⟩ := hown.popCas hpc hequal
    obtain ⟨val, items, hval, hitems, hshadow⟩ := List.forall₂_cons_left_iff.mp hrep.items
    exact ⟨_, .take shadow thread val items hstatus hshadow, rest, retired, hnext, hitems,
      hrep.status_update ⟨val, rfl, hval⟩ fun _ _ _ _ ↦ rfl⟩
  | popCasFail oldHead newHead current hhead =>
    exact related_silent hown hrep hpc rfl rfl (hpublic current hhead) hstatus
  | popCasFailNull oldHead newHead hhead =>
    exact ⟨_, .findEmpty shadow thread hstatus (hnull hhead),
      related_move hown hrep hpc rfl rfl (fun _ _ ↦ trivial) rfl⟩
  | popMove oldHead val hvalue => exact related_moveValue hown hrep hpc hvalue
  | retireLoad oldHead val =>
    exact related_silent hown hrep hpc rfl rfl (fun _ _ ↦ trivial) hstatus
  | retireLink oldHead val oldTrash hlive =>
    exact related_writeNext oldTrash hown hrep (by rw [hpc]; rfl) rfl (by rw [hpc]; rfl)
      (fun _ _ hlink ↦ hlink) hstatus
  | retireCas oldHead val oldTrash hequal =>
    refine ⟨stack, oldHead :: retired, hown.retireCas hpc hequal, hrep.items, ?_⟩
    exact hrep.status_keep hstatus fun _ _ _ _ ↦ rfl
  | retireCasFail oldHead val oldTrash =>
    exact related_silent hown hrep hpc rfl rfl (fun _ _ ↦ trivial) hstatus
  | popReturn result =>
    exact ⟨_, .returnPop shadow thread result hstatus,
      related_move hown hrep hpc rfl rfl (fun _ _ ↦ trivial) rfl⟩

omit [DecidableEq Thread] [DecidableEq Addr] in
/-- At the start nothing is allocated and no operation is in progress. -/
theorem related_initial :
    Related (State.initial Thread Addr T) (⟨[], fun _ ↦ .idle⟩ : AtomicStack Thread T) := by
  refine ⟨[], [], ?_, .nil, fun _ ↦ rfl⟩
  constructor
  case head_chain => exact rfl
  case trash_chain => exact rfl
  case nodup => exact List.nodup_nil
  case unlinked =>
    rintro thread node ⟨⟩
  case unique =>
    rintro first second node ⟨⟩
  case allocated =>
    intro node
    constructor
    · intro hlive
      exact absurd rfl hlive
    · rintro (hnode | ⟨thread, ⟨⟩⟩)
      exact absurd hnode List.not_mem_nil
  case locals => exact fun _ ↦ trivial

/-- The code simulates the atomic stack. -/
def refinement (Thread Addr T : Type*) [DecidableEq Thread] [DecidableEq Addr] :
    Simulation (treiberStack Thread Addr T) (atomicStack Thread T) viewLabel where
  Related := Related
  start := by
    rintro state rfl
    exact ⟨_, rfl, related_initial⟩
  silent state shadow label next hrelated hstep hview := by
    have h := related_step hrelated hstep
    rwa [hview] at h
  visible state shadow label next seen hrelated hstep hview := by
    have h := related_step hrelated hstep
    rwa [hview] at h

/-- Every run of the code is a run of the atomic stack over its visible steps, the chain from head
holds the values of the atomic stack, and no pushed value is lost or popped twice. -/
theorem refinement_run {trace : List (Thread × Event Addr T)} {state : State Thread Addr T}
    (hrun : (treiberStack Thread Addr T).Run trace state) :
    ∃ shadow, (atomicStack Thread T).Run (trace.filterMap viewLabel) shadow ∧
      (∃ stack, Chain state.memory.link state.memory.head stack ∧
        List.Forall₂ (fun node val ↦ state.memory.valueAt node = some val) stack shadow.items) ∧
      ∃ entering leaving, Accounts (trace.filterMap viewLabel) shadow entering leaving := by
  obtain ⟨shadow, habstract, stack, retired, hown, hrep⟩ := (refinement Thread Addr T).run hrun
  exact ⟨shadow, habstract, ⟨stack, hown.head_chain, hrep.items⟩, accounts_run habstract⟩

/-- The theorem at two pushes of one thread and a pop of another. -/
theorem refinement_run_handover :
    ∃ shadow, (atomicStack Bool ℕ).Run (handover.filterMap viewLabel) shadow ∧
      (∃ stack, Chain handoverState.memory.link handoverState.memory.head stack ∧
        List.Forall₂ (fun node val ↦ handoverState.memory.valueAt node = some val) stack
          shadow.items) ∧
      ∃ entering leaving, Accounts (handover.filterMap viewLabel) shadow entering leaving :=
  refinement_run handover_run

/-! ### Progress -/

/-- In every reachable state every thread can take a step: no pointer it follows dangles and no
value it moves is gone, and an allocation only needs an address that was never used. -/
theorem exists_step {trace : List (Thread × Event Addr T)} {state : State Thread Addr T}
    (hrun : (treiberStack Thread Addr T).Run trace state)
    (hfresh : ∃ address, state.memory.heap address = none) (thread : Thread) :
    ∃ event next, Step state (thread, event) next := by
  obtain ⟨shadow, -, stack, retired, hown, hrep⟩ := (refinement Thread Addr T).run hrun
  suffices hthread : ∃ event memory pc,
      ThreadStep state.memory (state.pc thread) event memory pc by
    obtain ⟨event, memory, pc, hthread⟩ := hthread
    exact ⟨event, _, .thread state thread event memory pc hthread⟩
  have hstatus := hrep.status thread
  have hlocals := hown.locals thread
  have hlive : ∀ node, (state.pc thread).owned = some node → state.memory.link node ≠ none :=
    fun _ hnode ↦ hown.live_of_owned hnode
  generalize state.pc thread = pc at hstatus hlocals hlive
  cases pc with
  | idle => exact ⟨_, _, _, .callPop _⟩
  | pushNew val =>
    obtain ⟨newHead, hnew⟩ := hfresh
    exact ⟨_, _, _, .new _ val newHead hnew⟩
  | pushLoad newHead => exact ⟨_, _, _, .pushLoad _ newHead⟩
  | pushLink newHead oldHead => exact ⟨_, _, _, .pushLink _ newHead oldHead (hlive newHead rfl)⟩
  | pushCas newHead oldHead => exact ⟨_, _, _, .pushCasFail _ newHead oldHead⟩
  | pushReturn => exact ⟨_, _, _, .pushReturn _⟩
  | popLoad =>
    cases hhead : state.memory.head with
    | none => exact ⟨_, _, _, .popLoadNull _ hhead⟩
    | some oldHead => exact ⟨_, _, _, .popLoad _ oldHead hhead⟩
  | popNext oldHead =>
    obtain ⟨newHead, hnext⟩ := Option.ne_none_iff_exists'.mp hlocals.1
    exact ⟨_, _, _, .popNext _ oldHead newHead hnext⟩
  | popCas oldHead newHead =>
    cases hhead : state.memory.head with
    | none => exact ⟨_, _, _, .popCasFailNull _ oldHead newHead hhead⟩
    | some current => exact ⟨_, _, _, .popCasFail _ oldHead newHead current hhead⟩
  | popMove oldHead =>
    obtain ⟨val, -, hval⟩ := hstatus
    exact ⟨_, _, _, .popMove _ oldHead val hval⟩
  | retireLoad oldHead val => exact ⟨_, _, _, .retireLoad _ oldHead val⟩
  | retireLink oldHead val oldTrash =>
    exact ⟨_, _, _, .retireLink _ oldHead val oldTrash (hlive oldHead rfl)⟩
  | retireCas oldHead val oldTrash => exact ⟨_, _, _, .retireCasFail _ oldHead val oldTrash⟩
  | popReturn result => exact ⟨_, _, _, .popReturn _ result⟩

end

end DailyChallenge.Treiber
