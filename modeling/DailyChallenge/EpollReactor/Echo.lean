import Mathlib
import DailyChallenge.EpollReactor.EventLoop

/-!
# What `handle_client_data` echoes

The handler writes each chunk once and does not look at how much of it `write` has taken. `Balances`
is the account of a call: while all writes are whole the accepted bytes and the chunk at hand are
the received bytes, and from the first short write on they are too few.
-/

set_option autoImplicit false
set_option relaxedAutoImplicit false

namespace DailyChallenge.EpollReactor

open Library

/-! ### A call of the handler -/

/-- The calls that `handle_client_data` makes for a descriptor. -/
def Pc.Serves (clientfd : ℕ) : Pc → Prop
  | .read fd _ | .write fd _ _ | .delete fd _ | .close fd _ => fd = clientfd
  | _ => False

/-- The steps of the event loop from the first `read` of a call of `handle_client_data` until it
returns to the `for` loop. -/
def handleClientData (listenfd clientfd : ℕ) : TransitionSystem State Call where
  Start state := ∃ rest, state.pc = .read clientfd rest
  Step state call next := state.pc.Serves clientfd ∧ Step listenfd state call next

/-- The bytes of a completed read. -/
def Call.received : Call → Bytes
  | .read _ (.data buf) => buf
  | _ => []

/-- The bytes that a write has accepted. -/
def Call.accepted : Call → Bytes
  | .write _ buf (.written n) => buf.take n
  | _ => []

def received (calls : List Call) : Bytes := calls.flatMap Call.received

def accepted (calls : List Call) : Bytes := calls.flatMap Call.accepted

/-- The chunk that has been read and is to be written next. -/
def Pc.unsent : Pc → Bytes
  | .write _ buf _ => buf
  | _ => []

/-- The handler takes the connection down. -/
def Pc.Closing : Pc → Prop
  | .delete _ _ | .close _ _ => True
  | _ => False

/-- The handler has not closed the connection and is not about to. -/
def StaysOpen (calls : List Call) (pc : Pc) : Prop :=
  ¬ pc.Closing ∧ ∀ fd, .close fd ∉ calls

/-- Every write that did not fail has taken its whole buffer. -/
def WritesWhole (calls : List Call) : Prop :=
  ∀ fd buf n, .write fd buf (.written n) ∈ calls → n = buf.length

/-! ### The account of a call -/

structure Balances (calls : List Call) (pc : Pc) : Prop where
  whole : WritesWhole calls → accepted calls ++ pc.unsent = received calls
  short : ¬ WritesWhole calls → (accepted calls ++ pc.unsent).length < (received calls).length

variable {listenfd clientfd fd : ℕ} {state next : State} {call : Call} {calls : List Call}
  {pc pc' : Pc}

theorem received_append_singleton :
    received (calls ++ [call]) = received calls ++ call.received := by
  rw [received, List.flatMap_append, List.flatMap_singleton]
  rfl

theorem accepted_append_singleton :
    accepted (calls ++ [call]) = accepted calls ++ call.accepted := by
  rw [accepted, List.flatMap_append, List.flatMap_singleton]
  rfl

theorem WritesWhole.of_append (h : WritesWhole (calls ++ [call])) : WritesWhole calls :=
  fun fd buf n hmem ↦ h fd buf n (List.mem_append_left _ hmem)

/-- A call that is no successful write keeps the writes whole. -/
theorem WritesWhole.append (h : WritesWhole calls)
    (hother : ∀ fd buf n, call ≠ .write fd buf (.written n)) : WritesWhole (calls ++ [call]) := by
  intro fd buf n hmem
  rcases List.mem_append.mp hmem with hmem | hmem
  · exact h fd buf n hmem
  · exact absurd (List.mem_singleton.mp hmem).symm (hother fd buf n)

/-- A successful write keeps the writes whole where it takes its whole buffer. -/
theorem writesWhole_append_written {buf : Bytes} {n : ℕ} :
    WritesWhole (calls ++ [.write fd buf (.written n)]) ↔
      WritesWhole calls ∧ n = buf.length := by
  constructor
  · intro h
    exact ⟨h.of_append, h fd buf n (List.mem_append_right _ (List.mem_singleton_self _))⟩
  · rintro ⟨h, hn⟩ fd' buf' n' hmem
    rcases List.mem_append.mp hmem with hmem | hmem
    · exact h fd' buf' n' hmem
    · obtain ⟨-, rfl, hwritten⟩ := Call.write.inj (List.mem_singleton.mp hmem)
      rw [WriteResult.written.inj hwritten, hn]

/-! ### One step -/

/-- A call that accepts nothing hands what it has received to the next write. -/
theorem Balances.pass (h : Balances calls pc)
    (hother : ∀ fd buf n, call ≠ .write fd buf (.written n))
    (hunsent : pc'.unsent = pc.unsent ++ call.received) : Balances (calls ++ [call]) pc' := by
  have hnone : call.accepted = [] := by
    cases call with
    | write fd buf result =>
      cases result with
      | written n => exact absurd rfl (hother fd buf n)
      | error => rfl
    | _ => rfl
  have haccount : accepted (calls ++ [call]) ++ pc'.unsent =
      accepted calls ++ pc.unsent ++ call.received := by
    rw [accepted_append_singleton, hnone, List.append_nil, hunsent, List.append_assoc]
  constructor
  case whole =>
    intro hwhole
    rw [haccount, h.whole hwhole.of_append, received_append_singleton]
  case short =>
    intro hshort
    have hlt := h.short fun hwhole ↦ hshort (hwhole.append hother)
    simp only [haccount, received_append_singleton, List.length_append] at hlt ⊢
    omega

/-- A write accepts the chunk or a part of it, and what it has left is lost. -/
theorem Balances.written {buf : Bytes} {rest : List EpollEvent} {n : ℕ}
    (h : Balances calls (.write fd buf rest)) (hle : n ≤ buf.length) :
    Balances (calls ++ [.write fd buf (.written n)]) (.read fd rest) := by
  have haccount : accepted (calls ++ [.write fd buf (.written n)]) ++ (Pc.read fd rest).unsent =
      accepted calls ++ buf.take n := by
    rw [accepted_append_singleton]
    exact List.append_nil _
  have hreceived : received (calls ++ [.write fd buf (.written n)]) = received calls := by
    rw [received_append_singleton]
    exact List.append_nil _
  constructor
  case whole =>
    intro hwhole
    obtain ⟨hbefore, rfl⟩ := writesWhole_append_written.mp hwhole
    rw [haccount, List.take_length, hreceived]
    exact h.whole hbefore
  case short =>
    intro hshort
    rw [haccount, hreceived, List.length_append, List.length_take, min_eq_left hle]
    by_cases hbefore : WritesWhole calls
    · have hlost : n ≠ buf.length := fun hn ↦ hshort (writesWhole_append_written.mpr ⟨hbefore, hn⟩)
      rw [← h.whole hbefore, Pc.unsent, List.length_append]
      omega
    · have hlt := h.short hbefore
      rw [Pc.unsent, List.length_append] at hlt
      omega

theorem StaysOpen.of_append (h : StaysOpen (calls ++ [call]) pc') (hpc : ¬ pc.Closing) :
    StaysOpen calls pc :=
  ⟨hpc, fun fd hmem ↦ h.2 fd (List.mem_append_left _ hmem)⟩

/-- A step of the handler that leaves the connection open keeps the account. -/
theorem balances_step (h : StaysOpen calls state.pc → Balances calls state.pc)
    (hserves : state.pc.Serves clientfd) (hstep : Step listenfd state call next)
    (hopen : StaysOpen (calls ++ [call]) next.pc) : Balances (calls ++ [call]) next.pc := by
  cases hstep with
  | readData kernel rest fd buf hpos hmax =>
    exact (h (hopen.of_append id)).pass (fun _ _ _ ↦ Call.noConfusion) rfl
  | readAgain kernel rest fd =>
    exact (h (hopen.of_append id)).pass (fun _ _ _ ↦ Call.noConfusion) rfl
  | written kernel rest fd buf n hle => exact (h (hopen.of_append id)).written hle
  -- the connection is closed, or is about to be
  | readEof | readError | writeError | delete => exact absurd trivial hopen.1
  | close kernel rest fd =>
    exact absurd (List.mem_append_right _ (List.mem_singleton_self _)) (hopen.2 fd)
  -- the other calls are not of this handler
  | _ => exact hserves.elim

/-! ### A call -/

/-- Along a call the account is kept for as long as the connection stays open. -/
theorem balances_run (hrun : (handleClientData listenfd clientfd).Run calls state)
    (hopen : StaysOpen calls state.pc) : Balances calls state.pc := by
  revert hopen
  induction hrun with
  | start hstart =>
    rintro -
    obtain ⟨rest, hpc⟩ := hstart
    rw [hpc]
    constructor
    case whole => exact fun _ ↦ rfl
    case short => exact fun hshort ↦ absurd (fun _ _ _ hmem ↦ absurd hmem List.not_mem_nil) hshort
  | step _ hstep ih => exact balances_step ih hstep.1 hstep.2

/-- The bytes written are the bytes read, but for the chunk at hand, exactly when every write has
taken its whole buffer. -/
theorem accepted_eq_received_iff (hrun : (handleClientData listenfd clientfd).Run calls state)
    (hopen : StaysOpen calls state.pc) :
    accepted calls ++ state.pc.unsent = received calls ↔ WritesWhole calls := by
  have hbalances := balances_run hrun hopen
  constructor
  · intro heq
    by_contra hshort
    exact absurd (congrArg List.length heq) (hbalances.short hshort).ne
  · exact hbalances.whole

/-- Descriptor 5 is a client, with one event. -/
def clientReadable : State :=
  ⟨⟨fun fd ↦ if fd = 5 then some .client else none, {5}⟩, .read 5 []⟩

/-- Two bytes arrive and a write takes so many of them. -/
theorem run_oneWrite {n : ℕ} (hle : n ≤ 2) : (handleClientData 4 5).Run
    [.read 5 (.data [104, 105]), .write 5 [104, 105] (.written n)] clientReadable := by
  have hstart : (handleClientData 4 5).Run [] clientReadable := .start ⟨[], rfl⟩
  have hread : (handleClientData 4 5).Run [.read 5 (.data [104, 105])]
      ⟨clientReadable.kernel, .write 5 [104, 105] []⟩ :=
    hstart.step ⟨rfl, .readData clientReadable.kernel [] 5 [104, 105] (by decide) (by decide)⟩
  exact hread.step ⟨rfl, .written clientReadable.kernel [] 5 [104, 105] n hle⟩

theorem staysOpen_oneWrite (n : ℕ) : StaysOpen
    [.read 5 (.data [104, 105]), .write 5 [104, 105] (.written n)] clientReadable.pc :=
  ⟨id, by simp⟩

/-- The write takes both bytes. -/
theorem accepted_eq_received_two :
    accepted [.read 5 (.data [104, 105]), .write 5 [104, 105] (.written 2)] ++
      clientReadable.pc.unsent =
        received [.read 5 (.data [104, 105]), .write 5 [104, 105] (.written 2)] ↔
    WritesWhole [.read 5 (.data [104, 105]), .write 5 [104, 105] (.written 2)] :=
  accepted_eq_received_iff (run_oneWrite le_rfl) (staysOpen_oneWrite 2)

/-- The write takes the first byte, and the second is never sent. -/
theorem not_accepted_eq_received_short : ¬ ∀ (listenfd clientfd : ℕ) (calls : List Call)
    (state : State), (handleClientData listenfd clientfd).Run calls state →
      StaysOpen calls state.pc → accepted calls ++ state.pc.unsent = received calls := by
  intro h
  have hecho := h 4 5 _ _ (run_oneWrite (by decide : 1 ≤ 2)) (staysOpen_oneWrite 1)
  exact absurd hecho (by decide)

end DailyChallenge.EpollReactor
