import Mathlib
import DailyChallenge.Treiber.Stack

/-!
# Who owns a node

Every allocated node is on the stack, on the trash list, or owned by exactly one thread: by a push
that has not linked it yet or by a pop that has unlinked it and not retired it. `Ownership` states
this with the two chains, and the facts a thread relies on between two of its steps. The one that
rules out the ABA problem is in `LocalFacts`: a pop that holds a node and a next pointer read from
it may be stale, but while the node is on the stack the next pointer is current, because only an
owner writes a node's next field and a node that left the stack never returns.

There is one lemma for each kind of step, all of them instances of `Ownership.ofThread`.
-/

set_option autoImplicit false
set_option relaxedAutoImplicit false

namespace DailyChallenge.Treiber

open Library

section Invariant

variable {Thread Addr T : Type*}

/-- The node a thread has not linked yet, at the program points of `push`. -/
def Pc.unpublished : Pc Addr T → Option Addr
  | .pushLoad newHead | .pushLink newHead _ | .pushCas newHead _ => some newHead
  | _ => none

/-- The node a thread has unlinked and not retired, at the program points of `pop`. -/
def Pc.retiring : Pc Addr T → Option Addr
  | .popMove oldHead | .retireLoad oldHead _ | .retireLink oldHead _ _
  | .retireCas oldHead _ _ => some oldHead
  | _ => none

/-- The node only this thread writes. -/
def Pc.owned (pc : Pc Addr T) : Option Addr := pc.unpublished.or pc.retiring

theorem Pc.owned_of_unpublished {pc : Pc Addr T} {node : Addr} (h : pc.unpublished = some node) :
    pc.owned = some node := by
  rw [Pc.owned, h]
  rfl

/-- A node that some push still keeps to itself. -/
def Unpublished (pc : Thread → Pc Addr T) (node : Addr) : Prop :=
  ∃ thread, (pc thread).unpublished = some node

/-- What a thread relies on at its program point. -/
def LocalFacts (link : Addr → Option (Option Addr)) (stack : List Addr) (hidden : Addr → Prop) :
    Pc Addr T → Prop
  | .pushCas newHead oldHead => link newHead = some oldHead
  | .popNext oldHead => link oldHead ≠ none ∧ ¬ hidden oldHead
  | .popCas oldHead newHead =>
    link oldHead ≠ none ∧ ¬ hidden oldHead ∧ (oldHead ∈ stack → link oldHead = some newHead)
  | .retireCas oldHead _ oldTrash => link oldHead = some oldTrash
  | _ => True

/-- Every allocated node is on the stack, in the trash, or owned by one thread. -/
structure Ownership (state : State Thread Addr T) (stack retired : List Addr) : Prop where
  head_chain : Chain state.memory.link state.memory.head stack
  trash_chain : Chain state.memory.link state.memory.trash retired
  nodup : (stack ++ retired).Nodup
  unlinked : ∀ thread node, (state.pc thread).owned = some node → node ∉ stack ++ retired
  unique : ∀ first second node, (state.pc first).owned = some node →
    (state.pc second).owned = some node → first = second
  allocated : ∀ node, state.memory.link node ≠ none ↔
    node ∈ stack ++ retired ∨ ∃ thread, (state.pc thread).owned = some node
  locals : ∀ thread,
    LocalFacts state.memory.link stack (Unpublished state.pc) (state.pc thread)

/-- What a thread relies on survives steps of others: they leave the links of its own node alone,
free nothing, hide no live node, and put on the stack only nodes that were hidden. -/
theorem LocalFacts.frame {link link' : Addr → Option (Option Addr)} {stack stack' : List Addr}
    {hidden hidden' : Addr → Prop} {pc : Pc Addr T} (h : LocalFacts link stack hidden pc)
    (howned : ∀ node, pc.owned = some node → link' node = link node)
    (hlive : ∀ node, link node ≠ none → link' node ≠ none)
    (hhidden : ∀ node, link node ≠ none → hidden' node → hidden node)
    (hstack : ∀ node ∈ stack', link node ≠ none → ¬ hidden node →
      node ∈ stack ∧ link' node = link node) : LocalFacts link' stack' hidden' pc := by
  cases pc with
  | pushCas newHead oldHead => exact (howned newHead rfl).trans h
  | popNext oldHead => exact ⟨hlive _ h.1, fun hnow ↦ h.2 (hhidden _ h.1 hnow)⟩
  | popCas oldHead newHead =>
    obtain ⟨halive, hpublic, hcurrent⟩ := h
    refine ⟨hlive _ halive, fun hnow ↦ hpublic (hhidden _ halive hnow), fun hmem ↦ ?_⟩
    obtain ⟨hmem', hlink⟩ := hstack _ hmem halive hpublic
    rw [hlink, hcurrent hmem']
  | retireCas oldHead val oldTrash => exact (howned oldHead rfl).trans h
  | _ => trivial

variable {state : State Thread Addr T} {stack retired : List Addr}

/-- A live node is linked, owned by a given thread, or owned by another one. -/
theorem Ownership.allocated_iff (h : Ownership state stack retired) (thread : Thread)
    (node : Addr) : state.memory.link node ≠ none ↔ node ∈ stack ++ retired ∨
      (state.pc thread).owned = some node ∨
        ∃ other, other ≠ thread ∧ (state.pc other).owned = some node := by
  rw [h.allocated]
  refine or_congr_right ⟨?_, ?_⟩
  · rintro ⟨other, hother⟩
    by_cases hsame : other = thread
    · exact Or.inl (hsame ▸ hother)
    · exact Or.inr ⟨other, hsame, hother⟩
  · rintro (hself | ⟨other, -, hother⟩)
    · exact ⟨thread, hself⟩
    · exact ⟨other, hother⟩

/-- A thread's own node is live. -/
theorem Ownership.live_of_owned (h : Ownership state stack retired) {thread : Thread} {node : Addr}
    (hnode : (state.pc thread).owned = some node) : state.memory.link node ≠ none :=
  (h.allocated node).mpr (Or.inr ⟨thread, hnode⟩)

variable [DecidableEq Thread] {thread : Thread}

/-- A node hidden after a step is hidden by the thread of the step or was hidden by another. -/
theorem unpublished_update {pc : Thread → Pc Addr T} {next : Pc Addr T} {node : Addr}
    (h : Unpublished (Function.update pc thread next) node) :
    next.unpublished = some node ∨ Unpublished pc node := by
  obtain ⟨other, hother⟩ := h
  by_cases hsame : other = thread
  · rw [hsame, Function.update_self] at hother
    exact Or.inl hother
  · rw [Function.update_of_ne hsame] at hother
    exact Or.inr ⟨other, hother⟩

/-- The invariant after a step of one thread, from what the step does to the lists and to that
thread, and what it leaves alone for the others. -/
theorem Ownership.ofThread (h : Ownership state stack retired) {memory : Memory Addr T}
    {next : Pc Addr T} {stack' retired' : List Addr}
    (hhead : Chain memory.link memory.head stack')
    (htrash : Chain memory.link memory.trash retired')
    (hnodup : (stack' ++ retired').Nodup)
    (hself : ∀ node, next.owned = some node → node ∉ stack' ++ retired')
    (hothers : ∀ other, other ≠ thread → ∀ node, (state.pc other).owned = some node →
      node ∉ stack' ++ retired' ∧ next.owned ≠ some node ∧
        memory.link node = state.memory.link node)
    (hallocated : ∀ node, memory.link node ≠ none ↔ node ∈ stack' ++ retired' ∨
      next.owned = some node ∨ ∃ other, other ≠ thread ∧ (state.pc other).owned = some node)
    (hlive : ∀ node, state.memory.link node ≠ none → memory.link node ≠ none)
    (hhidden : ∀ node, state.memory.link node ≠ none → next.unpublished = some node →
      Unpublished state.pc node)
    (hstack : ∀ node ∈ stack', state.memory.link node ≠ none → ¬ Unpublished state.pc node →
      node ∈ stack ∧ memory.link node = state.memory.link node)
    (hlocal : LocalFacts memory.link stack' (Unpublished (Function.update state.pc thread next))
      next) :
    Ownership ⟨memory, Function.update state.pc thread next⟩ stack' retired' where
  head_chain := hhead
  trash_chain := htrash
  nodup := hnodup
  unlinked other node hother := by
    by_cases hsame : other = thread
    · exact hself node (by simpa [hsame] using hother)
    · exact (hothers other hsame node (by simpa [hsame] using hother)).1
  unique first second node hfirst hsecond := by
    dsimp only at hfirst hsecond
    by_cases hsame : first = thread <;> by_cases hsame' : second = thread
    · rw [hsame, hsame']
    · rw [hsame, Function.update_self] at hfirst
      rw [Function.update_of_ne hsame'] at hsecond
      exact absurd hfirst (hothers second hsame' node hsecond).2.1
    · rw [hsame', Function.update_self] at hsecond
      rw [Function.update_of_ne hsame] at hfirst
      exact absurd hsecond (hothers first hsame node hfirst).2.1
    · rw [Function.update_of_ne hsame] at hfirst
      rw [Function.update_of_ne hsame'] at hsecond
      exact h.unique first second node hfirst hsecond
  allocated node := by
    rw [hallocated]
    refine or_congr_right ⟨?_, ?_⟩
    · rintro (hnext | ⟨other, hsame, hother⟩)
      · exact ⟨thread, by simpa using hnext⟩
      · exact ⟨other, by simpa [hsame] using hother⟩
    · rintro ⟨other, hother⟩
      by_cases hsame : other = thread
      · exact Or.inl (by simpa [hsame] using hother)
      · exact Or.inr ⟨other, hsame, by simpa [hsame] using hother⟩
  locals other := by
    dsimp only
    by_cases hsame : other = thread
    · rw [hsame, Function.update_self]
      exact hlocal
    · rw [Function.update_of_ne hsame]
      refine (h.locals other).frame (fun node hnode ↦ (hothers other hsame node hnode).2.2) hlive
        (fun node hnode hnow ↦ ?_) hstack
      rcases unpublished_update hnow with hnext | hold
      · exact hhidden node hnode hnext
      · exact hold

/-- A step that changes no link and neither atomic, and after which the thread owns and hides what
it did before. -/
theorem Ownership.move (h : Ownership state stack retired) {memory : Memory Addr T}
    {next : Pc Addr T} (hlink : memory.link = state.memory.link)
    (hhead : memory.head = state.memory.head) (htrash : memory.trash = state.memory.trash)
    (howned : next.owned = (state.pc thread).owned)
    (hhidden : next.unpublished = (state.pc thread).unpublished)
    (hlocal : ∀ hidden : Addr → Prop, (∀ node, hidden node → Unpublished state.pc node) →
      LocalFacts state.memory.link stack hidden next) :
    Ownership ⟨memory, Function.update state.pc thread next⟩ stack retired := by
  refine h.ofThread ?_ ?_ h.nodup ?_ ?_ ?_ ?_ ?_ ?_ ?_
  · rw [hlink, hhead]
    exact h.head_chain
  · rw [hlink, htrash]
    exact h.trash_chain
  · exact fun node hnode ↦ h.unlinked thread node (howned ▸ hnode)
  · intro other hother node hnode
    refine ⟨h.unlinked other node hnode, fun hnext ↦ ?_, by rw [hlink]⟩
    exact hother (h.unique other thread node hnode (howned ▸ hnext))
  · intro node
    rw [hlink, howned]
    exact h.allocated_iff thread node
  · exact fun node hnode ↦ by rwa [hlink]
  · exact fun node _ hnext ↦ ⟨thread, hhidden ▸ hnext⟩
  · exact fun node hnode _ _ ↦ ⟨hnode, by rw [hlink]⟩
  · rw [hlink]
    refine hlocal _ fun node hnode ↦ ?_
    rcases unpublished_update hnode with hnext | hold
    · exact ⟨thread, hhidden ▸ hnext⟩
    · exact hold

/-- The successful exchange of a push puts its node on top of the stack. -/
theorem Ownership.pushCas (h : Ownership state stack retired) {newHead : Addr}
    {oldHead : Option Addr} (hpc : state.pc thread = .pushCas newHead oldHead)
    (hequal : state.memory.head = oldHead) :
    Ownership ⟨{ state.memory with head := some newHead },
      Function.update state.pc thread .pushReturn⟩ (newHead :: stack) retired := by
  have hfacts := h.locals thread
  rw [hpc] at hfacts
  have howned : (state.pc thread).owned = some newHead := by rw [hpc]; rfl
  have hhidden : Unpublished state.pc newHead := ⟨thread, by rw [hpc]; rfl⟩
  have hoff := h.unlinked thread newHead howned
  refine h.ofThread ⟨rfl, oldHead, hfacts, hequal ▸ h.head_chain⟩ h.trash_chain ?_ ?_ ?_ ?_ ?_ ?_ ?_
    trivial
  · exact List.nodup_cons.mpr ⟨hoff, h.nodup⟩
  · rintro node ⟨⟩
  · intro other hother node hnode
    refine ⟨?_, by rintro ⟨⟩, rfl⟩
    rw [List.cons_append, List.mem_cons, not_or]
    refine ⟨?_, h.unlinked other node hnode⟩
    rintro rfl
    exact hother (h.unique other thread node hnode howned)
  · intro node
    show state.memory.link node ≠ none ↔ _
    rw [h.allocated_iff thread node, howned, List.cons_append, List.mem_cons]
    have hnone : Pc.owned (.pushReturn : Pc Addr T) ≠ some node := by rintro ⟨⟩
    simp only [hnone, false_or, Option.some.injEq]
    tauto
  · exact fun _ hlive ↦ hlive
  · rintro node _ ⟨⟩
  · intro node hmem _ hpublic
    rcases List.mem_cons.mp hmem with rfl | hold
    · exact absurd hhidden hpublic
    · exact ⟨hold, rfl⟩

/-- The successful exchange of a pop takes the top node off the stack: however long ago the pop
read its next field, the node was on the stack ever since. -/
theorem Ownership.popCas (h : Ownership state stack retired) {oldHead : Addr}
    {newHead : Option Addr} (hpc : state.pc thread = .popCas oldHead newHead)
    (hequal : state.memory.head = some oldHead) :
    ∃ rest, stack = oldHead :: rest ∧
      Ownership ⟨{ state.memory with head := newHead },
        Function.update state.pc thread (.popMove oldHead)⟩ rest retired := by
  have hfacts := h.locals thread
  rw [hpc] at hfacts
  have hchain := h.head_chain
  rw [hequal] at hchain
  obtain ⟨next, rest, rfl, hlink, hrest⟩ := hchain.exists_cons
  have hcurrent : next = newHead :=
    Option.some.inj (hlink.symm.trans (hfacts.2.2 List.mem_cons_self))
  subst hcurrent
  have hidle : (state.pc thread).owned = none := by rw [hpc]; rfl
  obtain ⟨htop, hnodup⟩ := List.nodup_cons.mp h.nodup
  refine ⟨rest, rfl, h.ofThread hrest h.trash_chain hnodup ?_ ?_ ?_ ?_ ?_ ?_ trivial⟩
  · rintro node ⟨⟩
    exact htop
  · intro other hother node hnode
    have hoff := h.unlinked other node hnode
    rw [List.cons_append, List.mem_cons, not_or] at hoff
    exact ⟨hoff.2, fun hnext ↦ hoff.1 (Option.some.inj hnext).symm, rfl⟩
  · intro node
    show state.memory.link node ≠ none ↔ _
    rw [h.allocated_iff thread node, hidle, List.cons_append, List.mem_cons]
    have hnext : Pc.owned (.popMove oldHead : Pc Addr T) = some oldHead := rfl
    simp only [hnext, reduceCtorEq, false_or, Option.some.injEq]
    tauto
  · exact fun _ hlive ↦ hlive
  · rintro node _ ⟨⟩
  · exact fun node hmem _ _ ↦ ⟨List.mem_cons_of_mem _ hmem, rfl⟩

/-- The successful exchange on the trash puts a retired node on the trash list. -/
theorem Ownership.retireCas (h : Ownership state stack retired) {oldHead : Addr} {val : T}
    {oldTrash : Option Addr} (hpc : state.pc thread = .retireCas oldHead val oldTrash)
    (hequal : state.memory.trash = oldTrash) :
    Ownership ⟨{ state.memory with trash := some oldHead },
      Function.update state.pc thread (.popReturn (some val))⟩ stack (oldHead :: retired) := by
  have hfacts := h.locals thread
  rw [hpc] at hfacts
  have howned : (state.pc thread).owned = some oldHead := by rw [hpc]; rfl
  have hoff := h.unlinked thread oldHead howned
  have hmem : ∀ node, node ∈ stack ++ oldHead :: retired ↔
      node = oldHead ∨ node ∈ stack ++ retired := by
    intro node
    rw [List.mem_append, List.mem_cons, List.mem_append]
    tauto
  refine h.ofThread h.head_chain ⟨rfl, oldTrash, hfacts, hequal ▸ h.trash_chain⟩ ?_ ?_ ?_ ?_ ?_ ?_
    ?_ trivial
  · exact List.nodup_middle.mpr (List.nodup_cons.mpr ⟨hoff, h.nodup⟩)
  · rintro node ⟨⟩
  · intro other hother node hnode
    refine ⟨?_, by rintro ⟨⟩, rfl⟩
    rw [hmem, not_or]
    refine ⟨?_, h.unlinked other node hnode⟩
    rintro rfl
    exact hother (h.unique other thread node hnode howned)
  · intro node
    show state.memory.link node ≠ none ↔ _
    rw [h.allocated_iff thread node, howned, hmem]
    have hnone : Pc.owned (.popReturn (some val) : Pc Addr T) ≠ some node := by rintro ⟨⟩
    simp only [hnone, false_or, Option.some.injEq]
    tauto
  · exact fun _ hlive ↦ hlive
  · rintro node _ ⟨⟩
  · exact fun node hnode _ _ ↦ ⟨hnode, rfl⟩

variable [DecidableEq Addr]

/-- A push allocates a node at a fresh address. -/
theorem Ownership.new (h : Ownership state stack retired) {val : T} {newHead : Addr}
    (hpc : state.pc thread = .pushNew val) (hfresh : state.memory.heap newHead = none) :
    Ownership ⟨state.memory.new newHead val,
      Function.update state.pc thread (.pushLoad newHead)⟩ stack retired := by
  have hdead : state.memory.link newHead = none := by rw [Memory.link, hfresh]; rfl
  have hlink := Memory.link_new state.memory newHead val
  have hkeep : ∀ node, state.memory.link node ≠ none →
      (state.memory.new newHead val).link node = state.memory.link node := by
    intro node hnode
    rw [hlink, Function.update_of_ne]
    rintro rfl
    exact hnode hdead
  have hlinked : ∀ node ∈ stack ++ retired, state.memory.link node ≠ none :=
    fun node hnode ↦ (h.allocated node).mpr (Or.inl hnode)
  refine h.ofThread ?_ ?_ h.nodup ?_ ?_ ?_ ?_ ?_ ?_ trivial
  · exact h.head_chain.congr fun node hnode ↦
      hkeep node (hlinked node (List.mem_append_left _ hnode))
  · exact h.trash_chain.congr fun node hnode ↦
      hkeep node (hlinked node (List.mem_append_right _ hnode))
  · rintro node ⟨⟩ hnode
    exact hlinked _ hnode hdead
  · intro other hother node hnode
    have hlive := h.live_of_owned hnode
    refine ⟨h.unlinked other node hnode, ?_, hkeep node hlive⟩
    rintro ⟨⟩
    exact hlive hdead
  · intro node
    have hold := h.allocated_iff thread node
    rw [hpc] at hold
    by_cases hnode : node = newHead
    · subst hnode
      exact iff_of_true (by rw [hlink]; simp) (Or.inr (Or.inl rfl))
    · rw [hlink, Function.update_of_ne hnode, hold]
      simp [Pc.owned, Pc.unpublished, Pc.retiring, Ne.symm hnode]
  · exact fun node hnode ↦ by rwa [hkeep node hnode]
  · rintro node hnode ⟨⟩
    exact absurd hdead hnode
  · exact fun node hmem hnode _ ↦ ⟨hmem, hkeep node hnode⟩

/-- A thread writes the next field of a node it owns. -/
theorem Ownership.writeNext (h : Ownership state stack retired) {node : Addr}
    (target : Option Addr) {next : Pc Addr T} (hnode : (state.pc thread).owned = some node)
    (howned : next.owned = some node)
    (hhidden : next.unpublished = (state.pc thread).unpublished)
    (hlocal : ∀ link hidden, link node = some target → LocalFacts link stack hidden next) :
    Ownership ⟨state.memory.setNext node target, Function.update state.pc thread next⟩ stack
      retired := by
  have hlive := h.live_of_owned hnode
  have hlink := Memory.link_setNext target hlive
  have hkeep : ∀ other, other ≠ node →
      (state.memory.setNext node target).link other = state.memory.link other := by
    intro other hother
    rw [hlink, Function.update_of_ne hother]
  have hoff : ∀ other ∈ stack ++ retired, other ≠ node := by
    rintro other hother rfl
    exact h.unlinked thread other hnode hother
  have hself : (state.memory.setNext node target).link node = some target := by
    rw [hlink, Function.update_self]
  have halive : ∀ other, (state.memory.setNext node target).link other ≠ none ↔
      state.memory.link other ≠ none := by
    intro other
    by_cases hother : other = node
    · rw [hother]
      exact iff_of_true (by rw [hself]; exact Option.some_ne_none target) hlive
    · rw [hkeep other hother]
  refine h.ofThread ?_ ?_ h.nodup ?_ ?_ ?_ ?_ ?_ ?_ (hlocal _ _ hself)
  · exact h.head_chain.congr fun other hother ↦
      hkeep other (hoff other (List.mem_append_left _ hother))
  · exact h.trash_chain.congr fun other hother ↦
      hkeep other (hoff other (List.mem_append_right _ hother))
  · exact fun other hother ↦ h.unlinked thread other (hnode.trans (howned.symm.trans hother))
  · intro other hother owned hother'
    have hne : owned ≠ node := by
      rintro rfl
      exact hother (h.unique other thread owned hother' hnode)
    refine ⟨h.unlinked other owned hother', fun hnext ↦ ?_, hkeep owned hne⟩
    exact hne (Option.some.inj (hnext.symm.trans howned))
  · intro other
    rw [halive, howned, ← hnode]
    exact h.allocated_iff thread other
  · exact fun other hother ↦ (halive other).mpr hother
  · exact fun other _ hnext ↦ ⟨thread, hhidden ▸ hnext⟩
  · exact fun other hmem _ _ ↦ ⟨hmem, hkeep other (hoff other (List.mem_append_left _ hmem))⟩

end Invariant

end DailyChallenge.Treiber
