import Mathlib
import DailyChallenge.EpollReactor.EventLoop

/-!
# What `handle_new_connection` leaves in the accept queue

The listening socket is edge-triggered, so that the handler has to accept until the queue is empty.
`Accounts` is the invariant of its loop: each connection accepted so far is registered or closed, or
is the one at hand, and the loop goes on for as long as `accept4` does not fail. It leaves the loop
on any error, though, and only on `EAGAIN` is the queue known to be empty.
-/

set_option autoImplicit false
set_option relaxedAutoImplicit false

namespace DailyChallenge.EpollReactor

open Library

/-! ### A call of the handler and the accept queue -/

/-- The event loop beside the number of connections that wait to be accepted. -/
structure Listening where
  waiting : ℕ
  state : State

/-- What a call takes from the queue. `EAGAIN` means that nothing waits. Another error may have used
up a connection, as `ECONNABORTED` does, or not, as `EINTR`. -/
def Call.Takes (before after : ℕ) : Call → Prop
  | .accept4 (.connection _) => before = after + 1
  | .accept4 .again => before = 0 ∧ after = 0
  | .accept4 .error => before = after ∨ before = after + 1
  | _ => before = after

/-- A call of the program, or a change of the queue from outside: clients connect and give up. -/
inductive QueueStep (listenfd : ℕ) : Listening → Option Call → Listening → Prop
  | call (before after : ℕ) (state next : State) (call : Call)
    (hstep : Step listenfd state call next) (htakes : call.Takes before after) :
    QueueStep listenfd ⟨before, state⟩ (some call) ⟨after, next⟩
  | clients (before after : ℕ) (state : State) :
    QueueStep listenfd ⟨before, state⟩ none ⟨after, state⟩

/-- The calls that `handle_new_connection` makes. -/
def Pc.Accepting : Pc → Prop
  | .accept4 _ | .addClient _ _ | .closeRejected _ _ => True
  | _ => False

/-- The steps of the event loop from the first `accept4` of a call of `handle_new_connection` until
it returns to the `for` loop. -/
def handleNewConnection (listenfd : ℕ) : TransitionSystem Listening (Option Call) where
  Start listening := ∃ rest, listening.state.pc = .accept4 rest
  Step listening label next :=
    listening.state.pc.Accepting ∧ QueueStep listenfd listening label next

/-- After its `accept4` a connection is registered, or closed where `epoll_ctl` fails. -/
def RegisteredOrClosed (kernel : Kernel) (clientfd : ℕ) (after : List Call) : Prop :=
  [.epollCtlAdd clientfd true] <+: after ∧ clientfd ∈ kernel.registered ∨
    [.epollCtlAdd clientfd false, .close clientfd] <+: after

/-- Every connection accepted in these calls is registered or closed. -/
def Settled (kernel : Kernel) (calls : List Call) : Prop :=
  ∀ before after clientfd, calls = before ++ .accept4 (.connection clientfd) :: after →
    RegisteredOrClosed kernel clientfd after

/-- The queue has been seen empty and is empty, and what was accepted is registered or closed. -/
def Drained (calls : List Call) (listening : Listening) : Prop :=
  .accept4 .again ∈ calls ∧ listening.waiting = 0 ∧ Settled listening.state.kernel calls

/-! ### Connections that are settled -/

variable {listenfd clientfd : ℕ} {kernel kernel' : Kernel} {calls more : List Call}

theorem RegisteredOrClosed.append (h : RegisteredOrClosed kernel clientfd calls)
    (hregistered : kernel.registered ⊆ kernel'.registered) (more : List Call) :
    RegisteredOrClosed kernel' clientfd (calls ++ more) := by
  rcases h with ⟨hadd, hmem⟩ | hclose
  · exact Or.inl ⟨hadd.trans (List.prefix_append _ _), hregistered hmem⟩
  · exact Or.inr (hclose.trans (List.prefix_append _ _))

theorem settled_nil : Settled kernel [] := by
  intro before after clientfd hcalls
  exact absurd hcalls (by simp)

/-- More calls that settle what they accept. -/
theorem Settled.append (h : Settled kernel calls)
    (hregistered : kernel.registered ⊆ kernel'.registered) (hmore : Settled kernel' more) :
    Settled kernel' (calls ++ more) := by
  intro before after clientfd hcalls
  rcases List.append_eq_append_iff.mp hcalls with ⟨between, -, hlast⟩ | ⟨between, hfirst, hlast⟩
  · exact hmore between after clientfd hlast
  · cases between with
    | nil => exact hmore [] after clientfd hlast.symm
    | cons call between =>
      obtain ⟨rfl, rfl⟩ := List.cons.inj hlast
      exact (h before between clientfd hfirst).append hregistered more

/-- A single call that accepts nothing. -/
theorem settled_singleton {call : Call}
    (hother : ∀ clientfd, call ≠ .accept4 (.connection clientfd)) : Settled kernel [call] := by
  intro before after clientfd hcalls
  rcases List.singleton_eq_append_iff.mp hcalls with ⟨-, hcall⟩ | ⟨-, hcall⟩
  · exact absurd (List.cons.inj hcall).1.symm (hother clientfd)
  · cases hcall

/-- A connection with the calls that settle it. -/
theorem settled_cons (hends : RegisteredOrClosed kernel clientfd calls)
    (hcalls : Settled kernel calls) :
    Settled kernel (.accept4 (.connection clientfd) :: calls) := by
  intro before after clientfd' hsplit
  cases before with
  | nil =>
    obtain ⟨hcall, rfl⟩ := List.cons.inj hsplit
    obtain rfl := AcceptResult.connection.inj (Call.accept4.inj hcall)
    exact hends
  | cons call before => exact hcalls before after clientfd' (List.cons.inj hsplit).2

theorem settled_registered (hregistered : clientfd ∈ kernel.registered) :
    Settled kernel [.accept4 (.connection clientfd), .epollCtlAdd clientfd true] :=
  settled_cons (Or.inl ⟨List.prefix_rfl, hregistered⟩)
    (settled_singleton fun _ ↦ Call.noConfusion)

theorem settled_closed :
    Settled kernel [.accept4 (.connection clientfd), .epollCtlAdd clientfd false,
      .close clientfd] :=
  settled_cons (Or.inr List.prefix_rfl)
    ((@settled_singleton kernel _ fun _ ↦ Call.noConfusion).append subset_rfl
      (settled_singleton fun _ ↦ Call.noConfusion))

/-! ### The invariant of the loop -/

/-- The loop has not been left. -/
def InLoop (calls : List Call) : Prop :=
  .accept4 .again ∉ calls ∧ .accept4 .error ∉ calls

theorem InLoop.append (h : InLoop calls) (hmore : InLoop more) : InLoop (calls ++ more) :=
  ⟨fun hmem ↦ (List.mem_append.mp hmem).elim h.1 hmore.1,
    fun hmem ↦ (List.mem_append.mp hmem).elim h.2 hmore.2⟩

/-- What has been accepted is settled, but for the connection at hand, and `accept4` has failed
where the loop has been left. -/
inductive Accounts : List Call → Listening → Prop
  | accept4 {calls : List Call} (waiting : ℕ) {kernel : Kernel} (rest : List EpollEvent)
    (hsettled : Settled kernel calls) (hloop : InLoop calls) :
    Accounts calls ⟨waiting, kernel, .accept4 rest⟩
  | addClient {calls : List Call} (waiting : ℕ) {kernel : Kernel} (rest : List EpollEvent)
    (clientfd : ℕ) (hsettled : Settled kernel calls) (hloop : InLoop calls) :
    Accounts (calls ++ [.accept4 (.connection clientfd)])
      ⟨waiting, kernel, .addClient clientfd rest⟩
  | closeRejected {calls : List Call} (waiting : ℕ) {kernel : Kernel} (rest : List EpollEvent)
    (clientfd : ℕ) (hsettled : Settled kernel calls) (hloop : InLoop calls) :
    Accounts (calls ++ [.accept4 (.connection clientfd), .epollCtlAdd clientfd false])
      ⟨waiting, kernel, .closeRejected clientfd rest⟩
  | drained {calls : List Call} {kernel : Kernel} (rest : List EpollEvent)
    (hsettled : Settled kernel calls) (hloop : InLoop calls) :
    Accounts (calls ++ [.accept4 .again]) ⟨0, kernel, .forLoop rest⟩
  | failed {calls : List Call} (waiting : ℕ) {kernel : Kernel} (rest : List EpollEvent)
    (hsettled : Settled kernel calls) (hloop : InLoop calls) :
    Accounts (calls ++ [.accept4 .error]) ⟨waiting, kernel, .forLoop rest⟩

variable {listening next : Listening}

/-- A change of the queue while the handler runs. -/
theorem Accounts.clients {before after : ℕ} {state : State} (h : Accounts calls ⟨before, state⟩)
    (haccepting : state.pc.Accepting) : Accounts calls ⟨after, state⟩ := by
  cases h with
  | accept4 _ rest hsettled hloop => exact .accept4 after rest hsettled hloop
  | addClient _ rest clientfd hsettled hloop => exact .addClient after rest clientfd hsettled hloop
  | closeRejected _ rest clientfd hsettled hloop =>
    exact .closeRejected after rest clientfd hsettled hloop
  | drained | failed => exact haccepting.elim

/-- A call of the handler. -/
theorem Accounts.step {before after : ℕ} {state next : State} {call : Call}
    (h : Accounts calls ⟨before, state⟩) (haccepting : state.pc.Accepting)
    (hstep : Step listenfd state call next) (htakes : call.Takes before after) :
    Accounts (calls ++ [call]) ⟨after, next⟩ := by
  cases h with
  | accept4 _ rest hsettled hloop =>
    cases hstep with
    | accepted _ _ clientfd hfree => exact .addClient after rest clientfd hsettled hloop
    | drained =>
      obtain ⟨-, rfl⟩ := htakes
      exact .drained rest hsettled hloop
    | acceptError => exact .failed after rest hsettled hloop
  | @addClient earlier _ kernel rest clientfd hsettled hloop =>
    rw [List.append_assoc]
    cases hstep with
    | added =>
      have hsubset : kernel.registered ⊆ (kernel.add clientfd).registered :=
        Finset.subset_insert _ _
      exact .accept4 after rest
        (hsettled.append hsubset (settled_registered (Finset.mem_insert_self _ _)))
        (hloop.append (by simp [InLoop]))
    | addError => exact .closeRejected after rest clientfd hsettled hloop
  | @closeRejected earlier _ kernel rest clientfd hsettled hloop =>
    rw [List.append_assoc]
    cases hstep with
    | closeRejected =>
      have hsubset : kernel.registered ⊆ (kernel.close clientfd).registered := subset_rfl
      exact .accept4 after rest (hsettled.append hsubset settled_closed)
        (hloop.append (by simp [InLoop]))
  | drained | failed => exact haccepting.elim

/-- Along a call of the handler. -/
theorem accounts_run {trace : List (Option Call)}
    (hrun : (handleNewConnection listenfd).Run trace listening) :
    Accounts (trace.filterMap id) listening := by
  induction hrun with
  | @start listening hstart =>
    obtain ⟨waiting, kernel, pc⟩ := listening
    obtain ⟨rest, rfl⟩ : ∃ rest, pc = .accept4 rest := hstart
    exact .accept4 waiting rest settled_nil ⟨List.not_mem_nil, List.not_mem_nil⟩
  | step _ hstep ih =>
    obtain ⟨haccepting, hqueue⟩ := hstep
    rw [List.filterMap_append]
    cases hqueue with
    | call before after state next call hstep htakes => exact ih.step haccepting hstep htakes
    | clients before after state =>
      rw [List.filterMap_cons_none rfl, List.filterMap_nil, List.append_nil]
      exact ih.clients haccepting

/-! ### The return -/

/-- The handler returns with the queue drained exactly when no `accept4` has failed but for want of
a connection. -/
theorem drained_iff {trace : List (Option Call)} {rest : List EpollEvent}
    (hrun : (handleNewConnection listenfd).Run trace listening)
    (hreturned : listening.state.pc = .forLoop rest) :
    Drained (trace.filterMap id) listening ↔ .accept4 .error ∉ trace.filterMap id := by
  have haccounts := accounts_run hrun
  generalize trace.filterMap id = calls at haccounts
  cases haccounts with
  | drained rest hsettled hloop =>
    refine iff_of_true ⟨List.mem_append_right _ (List.mem_singleton_self _), rfl, ?_⟩ ?_
    · exact hsettled.append subset_rfl (settled_singleton fun _ ↦ by simp)
    · exact fun hmem ↦ (List.mem_append.mp hmem).elim hloop.2 (by simp)
  | failed waiting rest hsettled hloop =>
    refine iff_of_false ?_ ?_
    · rintro ⟨hagain, -, -⟩
      exact (List.mem_append.mp hagain).elim hloop.1 (by simp)
    · exact fun herror ↦ herror (List.mem_append_right _ (List.mem_singleton_self _))
  | accept4 | addClient | closeRejected => cases hreturned

/-- Descriptor 4 is the listening socket. -/
def listenerKernel : Kernel :=
  ⟨fun fd ↦ if fd = 4 then some .listener else none, {4}⟩

theorem run_waiting (waiting : ℕ) :
    (handleNewConnection 4).Run [] ⟨waiting, listenerKernel, .accept4 []⟩ :=
  .start ⟨[], rfl⟩

/-- The only connection is accepted and registered. -/
theorem run_one : (handleNewConnection 4).Run
    [some (.accept4 (.connection 7)), some (.epollCtlAdd 7 true), some (.accept4 .again)]
    ⟨0, (listenerKernel.openClient 7).add 7, .forLoop []⟩ := by
  have haccepted : (handleNewConnection 4).Run [some (.accept4 (.connection 7))]
      ⟨0, listenerKernel.openClient 7, .addClient 7 []⟩ :=
    (run_waiting 1).step ⟨trivial, .call 1 0 _ _ _ (.accepted listenerKernel [] 7 rfl) rfl⟩
  have hadded : (handleNewConnection 4).Run
      [some (.accept4 (.connection 7)), some (.epollCtlAdd 7 true)]
      ⟨0, (listenerKernel.openClient 7).add 7, .accept4 []⟩ :=
    haccepted.step ⟨trivial, .call 0 0 _ _ _ (.added _ [] 7) rfl⟩
  exact hadded.step ⟨trivial, .call 0 0 _ _ _ (.drained _ []) ⟨rfl, rfl⟩⟩

theorem drained_one :
    Drained [.accept4 (.connection 7), .epollCtlAdd 7 true, .accept4 .again]
      ⟨0, (listenerKernel.openClient 7).add 7, .forLoop []⟩ ↔
    .accept4 .error ∉ [Call.accept4 (.connection 7), .epollCtlAdd 7 true, .accept4 .again] :=
  drained_iff run_one rfl

/-- `accept4` is interrupted, and the handler returns with a client in the queue. -/
theorem not_drained_interrupted : ¬ ∀ (listenfd : ℕ) (trace : List (Option Call))
    (listening : Listening) (rest : List EpollEvent),
    (handleNewConnection listenfd).Run trace listening → listening.state.pc = .forLoop rest →
      Drained (trace.filterMap id) listening := by
  intro h
  have hrun : (handleNewConnection 4).Run [some (.accept4 .error)]
      ⟨1, listenerKernel, .forLoop []⟩ :=
    (run_waiting 1).step ⟨trivial, .call 1 1 _ _ _ (.acceptError listenerKernel []) (Or.inl rfl)⟩
  obtain ⟨-, hwaiting, -⟩ := h 4 _ _ [] hrun rfl
  cases hwaiting

end DailyChallenge.EpollReactor
