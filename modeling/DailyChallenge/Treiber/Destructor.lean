import Mathlib
import DailyChallenge.Treiber.Refinement

/-!
# The destructor

`~TreiberStack` deletes the nodes of two chains, each in a loop that reads a node's next pointer
before it deletes the node. The model of the loop faults where the code would read or delete a node
that is not there, and where its fuel ends before the chain does. `destroy_run` is the result: when
no operation is in progress, the two chains share no node and hold every node that was ever
allocated, and the destructor deletes each of them once and leaves none.
-/

set_option autoImplicit false
set_option relaxedAutoImplicit false

namespace DailyChallenge.Treiber

open Library

variable {Thread Addr T : Type*}

/-- What keeps the destructor from its end: a chain longer than the fuel, or a pointer to a node
that is not allocated. -/
inductive Fault
  | outOfFuel
  | dangling

section Delete

variable [DecidableEq Addr]

/-- `delete address`. -/
def Memory.delete (memory : Memory Addr T) (address : Addr) : Memory Addr T :=
  { memory with heap := Function.update memory.heap address none }

/-- `while (cur) { Node* next = cur->next; delete cur; cur = next; }`, with the deleted nodes. -/
def deleteChain : ℕ → Memory Addr T → Option Addr → Except Fault (List Addr × Memory Addr T)
  | _, memory, none => .ok ([], memory)
  | 0, _, some _ => .error .outOfFuel
  | fuel + 1, memory, some cur =>
    match memory.link cur with
    | none => .error .dangling
    | some next => do
      let (deleted, rest) ← deleteChain fuel (memory.delete cur) next
      return (cur :: deleted, rest)

/-- `~TreiberStack`, with the deleted nodes in order. -/
def Memory.destroy (fuel : ℕ) (memory : Memory Addr T) : Except Fault (List Addr × Memory Addr T) :=
  do
    let (first, memory') ← deleteChain fuel memory memory.head
    let (second, memory'') ← deleteChain fuel memory' memory'.trash
    return (first ++ second, memory'')

theorem Memory.link_delete (memory : Memory Addr T) (address : Addr) :
    (memory.delete address).link = Function.update memory.link address none := by
  funext other
  by_cases h : other = address <;> simp [link, delete, h]

/-- The nodes that are left are those that were there and were not on the chain. -/
def Memory.Without (memory rest : Memory Addr T) (nodes : List Addr) : Prop :=
  rest.head = memory.head ∧ rest.trash = memory.trash ∧
    ∀ address, rest.link address = if address ∈ nodes then none else memory.link address

/-- The loop deletes the nodes of a chain, in order, and nothing else. -/
theorem deleteChain_eq {memory : Memory Addr T} {start : Option Addr} {nodes : List Addr}
    (hchain : Chain memory.link start nodes) (hnodup : nodes.Nodup) {fuel : ℕ}
    (hfuel : nodes.length ≤ fuel) :
    ∃ rest, deleteChain fuel memory start = .ok (nodes, rest) ∧ memory.Without rest nodes := by
  induction nodes generalizing memory start fuel with
  | nil =>
    obtain rfl : start = none := hchain
    refine ⟨memory, ?_, rfl, rfl, fun _ ↦ rfl⟩
    rw [deleteChain]
  | cons node nodes ih =>
    obtain ⟨rfl, next, hnext, hrest⟩ := hchain
    obtain ⟨hnode, hnodup⟩ := List.nodup_cons.mp hnodup
    obtain ⟨fuel, rfl⟩ : ∃ fuel', fuel = fuel' + 1 :=
      ⟨fuel - 1, by rw [List.length_cons] at hfuel; omega⟩
    have hlink := memory.link_delete node
    have hchain : Chain (memory.delete node).link next nodes := by
      refine hrest.congr fun other hother ↦ ?_
      rw [hlink, Function.update_of_ne]
      rintro rfl
      exact hnode hother
    obtain ⟨rest, hdelete, hhead, htrash, hleft⟩ := ih hchain hnodup (Nat.le_of_succ_le_succ hfuel)
    refine ⟨rest, ?_, hhead, htrash, fun address ↦ ?_⟩
    · rw [deleteChain, hnext]
      dsimp only
      rw [hdelete]
      rfl
    · rw [hleft, hlink]
      by_cases haddress : address = node
      · simp [haddress]
      · simp [haddress]

/-- Two disjoint chains are deleted one after the other. -/
theorem destroy_eq {memory : Memory Addr T} {stack retired : List Addr}
    (hhead : Chain memory.link memory.head stack) (htrash : Chain memory.link memory.trash retired)
    (hnodup : (stack ++ retired).Nodup) {fuel : ℕ} (hstack : stack.length ≤ fuel)
    (hretired : retired.length ≤ fuel) :
    ∃ rest, memory.destroy fuel = .ok (stack ++ retired, rest) ∧
      memory.Without rest (stack ++ retired) := by
  obtain ⟨hfirst, hsecond, hdisjoint⟩ := List.nodup_append'.mp hnodup
  obtain ⟨middle, hdelete, hmiddle⟩ := deleteChain_eq hhead hfirst hstack
  have hchain : Chain middle.link middle.trash retired := by
    rw [hmiddle.2.1]
    refine htrash.congr fun node hnode ↦ ?_
    rw [hmiddle.2.2, if_neg fun hnow ↦ hdisjoint hnow hnode]
  obtain ⟨rest, hdelete', hrest⟩ := deleteChain_eq hchain hsecond hretired
  refine ⟨rest, ?_, hrest.1.trans hmiddle.1, hrest.2.1.trans hmiddle.2.1, fun address ↦ ?_⟩
  · rw [Memory.destroy, hdelete]
    show (deleteChain fuel middle middle.trash >>= _) = _
    rw [hdelete']
    rfl
  · rw [hrest.2.2, hmiddle.2.2]
    by_cases hnow : address ∈ stack <;> by_cases hlater : address ∈ retired <;>
      simp [hnow, hlater]

end Delete

/-! ### What was ever allocated -/

/-- The addresses of the nodes allocated along a trace. -/
def allocations (trace : List (Thread × Event Addr T)) : List Addr :=
  trace.filterMap fun label ↦ match label.2 with
    | .new address => some address
    | _ => none

variable [DecidableEq Addr]

/-- A step of a thread frees nothing and allocates what its event says, at a fresh address. -/
theorem ThreadStep.live_iff {memory next : Memory Addr T} {pc pc' : Pc Addr T}
    {event : Event Addr T} (h : ThreadStep memory pc event next pc') (address : Addr) :
    (next.link address ≠ none ↔ memory.link address ≠ none ∨ event = .new address) ∧
      (event = .new address → memory.link address = none) := by
  cases h with
  | new val newHead hfresh =>
    have hdead : memory.link newHead = none := by rw [Memory.link, hfresh]; rfl
    rw [Memory.link_new]
    constructor
    · by_cases haddress : address = newHead
      · simp [haddress]
      · simp [haddress, Ne.symm haddress]
    · rintro ⟨⟩
      exact hdead
  | pushLink newHead oldHead hlive =>
    rw [Memory.link_setNext _ hlive]
    constructor
    · by_cases haddress : address = newHead
      · simpa [haddress] using hlive
      · simp [haddress]
    · rintro ⟨⟩
  | retireLink oldHead val oldTrash hlive =>
    rw [Memory.link_setNext _ hlive]
    constructor
    · by_cases haddress : address = oldHead
      · simpa [haddress] using hlive
      · simp [haddress]
    · rintro ⟨⟩
  | popMove oldHead val hvalue =>
    rw [Memory.link_moveValue]
    exact ⟨by simp, by rintro ⟨⟩⟩
  | _ => exact ⟨by simp [Memory.link], by rintro ⟨⟩⟩

variable [DecidableEq Thread]

/-- Along every run the live nodes are those that were allocated, each allocated once. -/
theorem allocations_run {trace : List (Thread × Event Addr T)} {state : State Thread Addr T}
    (hrun : (treiberStack Thread Addr T).Run trace state) :
    (allocations trace).Nodup ∧
      ∀ address, address ∈ allocations trace ↔ state.memory.link address ≠ none := by
  apply hrun.traceInvariant
  · rintro state rfl
    exact ⟨List.nodup_nil, fun address ↦ by simp [allocations, State.initial, Memory.link]⟩
  · rintro trace state label next - ⟨hnodup, hlive⟩ ⟨thread, event, memory, pc, hthread⟩
    rw [allocations, List.filterMap_append, ← allocations]
    constructor
    · refine hnodup.append ?_ fun address hold hnew ↦ ?_
      · cases event <;> simp
      · have hevent : event = .new address := by cases event <;> simp_all
        exact (hlive address).mp hold ((hthread.live_iff address).2 hevent)
    · intro address
      rw [List.mem_append, (hthread.live_iff address).1, hlive]
      refine or_congr_right ?_
      cases event <;> simp [eq_comm]

/-- When no operation is in progress the two chains are finite, acyclic and disjoint and hold every
node ever allocated exactly once, and the destructor terminates and deletes each of them once. -/
theorem destroy_run {trace : List (Thread × Event Addr T)} {state : State Thread Addr T}
    (hrun : (treiberStack Thread Addr T).Run trace state)
    (hidle : ∀ thread, state.pc thread = .idle) :
    ∃ stack retired, Chain state.memory.link state.memory.head stack ∧
      Chain state.memory.link state.memory.trash retired ∧ (stack ++ retired).Nodup ∧
      (stack ++ retired).Perm (allocations trace) ∧
      ∀ fuel, (allocations trace).length ≤ fuel →
        ∃ rest, state.memory.destroy fuel = .ok (stack ++ retired, rest) ∧
          ∀ address, rest.heap address = none := by
  obtain ⟨shadow, -, stack, retired, hown, -⟩ := (refinement Thread Addr T).run hrun
  obtain ⟨hnodup, hlive⟩ := allocations_run hrun
  have hmem : ∀ address, address ∈ stack ++ retired ↔ state.memory.link address ≠ none := by
    intro address
    rw [hown.allocated, or_iff_left]
    rintro ⟨thread, howned⟩
    rw [hidle thread] at howned
    cases howned
  have hperm : (stack ++ retired).Perm (allocations trace) :=
    (List.perm_ext_iff_of_nodup hown.nodup hnodup).mpr fun address ↦
      (hmem address).trans (hlive address).symm
  refine ⟨stack, retired, hown.head_chain, hown.trash_chain, hown.nodup, hperm, ?_⟩
  intro fuel hfuel
  have hlength : stack.length + retired.length ≤ fuel := by
    rwa [← List.length_append, hperm.length_eq]
  obtain ⟨rest, hdestroy, -, -, hleft⟩ := destroy_eq hown.head_chain hown.trash_chain hown.nodup
    (le_of_add_le_left hlength) (le_of_add_le_right hlength)
  refine ⟨rest, hdestroy, fun address ↦ ?_⟩
  have hnone : rest.link address = none := by
    rw [hleft]
    by_cases haddress : address ∈ stack ++ retired
    · exact if_pos haddress
    · rw [if_neg haddress]
      exact not_not.mp fun hsome ↦ haddress ((hmem address).mpr hsome)
  exact Option.map_eq_none_iff.mp hnone

/-- The theorem after two pushes and a pop: one node is on the stack and one on the trash list. -/
theorem destroy_run_handover :
    ∃ stack retired, Chain handoverState.memory.link handoverState.memory.head stack ∧
      Chain handoverState.memory.link handoverState.memory.trash retired ∧
      (stack ++ retired).Nodup ∧ (stack ++ retired).Perm (allocations handover) ∧
      ∀ fuel, (allocations handover).length ≤ fuel →
        ∃ rest, handoverState.memory.destroy fuel = .ok (stack ++ retired, rest) ∧
          ∀ address, rest.heap address = none :=
  destroy_run handover_run fun _ ↦ rfl

end DailyChallenge.Treiber
