import Mathlib
import DailyChallenge.EpollReactor.Descriptors
import DailyChallenge.EpollReactor.Draining

/-!
# The reactor and its clients

The event loop beside the network: what each client has sent and what of it has not been read, the
connections that wait, and the ready list of `epfd`. Epoll is edge-triggered: a descriptor gets on
the ready list when something arrives, or when it is registered with something to read, and leaves
it when `epoll_wait` reports it; the kernel does not report it again for what has arrived before.
`Watched` is the invariant that makes this safe: whatever there is to read, its descriptor is on the
ready list or has an event in the batch whose handling is not over. So nothing waits unnoticed while
the loop blocks in `epoll_wait` (`readable_ready`).
-/

set_option autoImplicit false
set_option relaxedAutoImplicit false

namespace DailyChallenge.EpollReactor

open Library

/-! ### The network -/

/-- The connections that wait to be accepted; for each descriptor the bytes that its client has
sent, those not read yet, whether the client has ended its side, and the bytes echoed to it; and the
ready list. -/
structure Network where
  backlog : ℕ
  sent : ℕ → Bytes
  unread : ℕ → Bytes
  ended : ℕ → Bool
  echoed : ℕ → Bytes
  ready : Finset ℕ

/-- There is something to accept, or to read. -/
def Network.Readable (listenfd : ℕ) (network : Network) (fd : ℕ) : Prop :=
  fd = listenfd ∧ 0 < network.backlog ∨
    fd ≠ listenfd ∧ (network.unread fd ≠ [] ∨ network.ended fd = true)

/-- What a call finds and leaves in the network. -/
inductive Call.Affects (listenfd : ℕ) : Call → Network → Network → Prop
  | epollWait (network : Network) (events : List EpollEvent)
    (hready : ∀ event ∈ events, event.fd ∈ network.ready) :
    Affects listenfd (.epollWait events) network
      { network with ready := network.ready \ (events.map EpollEvent.fd).toFinset }
  | take (network : Network) (event : EpollEvent) : Affects listenfd (.take event) network network
  | endLoop (network : Network) : Affects listenfd .endLoop network network
  -- the client may have sent something before it was accepted
  | accepted (network : Network) (backlog clientfd : ℕ) (early : Bytes) (ended : Bool)
    (hbacklog : network.backlog = backlog + 1) :
    Affects listenfd (.accept4 (.connection clientfd)) network
      { network with
        backlog := backlog
        sent := Function.update network.sent clientfd early
        unread := Function.update network.unread clientfd early
        ended := Function.update network.ended clientfd ended
        echoed := Function.update network.echoed clientfd [] }
  | drained (network : Network) (hbacklog : network.backlog = 0) :
    Affects listenfd (.accept4 .again) network network
  | acceptError (network : Network) (backlog : ℕ) (hbacklog : backlog ≤ network.backlog) :
    Affects listenfd (.accept4 .error) network { network with backlog := backlog }
  | addedReadable (network : Network) (clientfd : ℕ)
    (hreadable : network.Readable listenfd clientfd) :
    Affects listenfd (.epollCtlAdd clientfd true) network
      { network with ready := insert clientfd network.ready }
  | addedQuiet (network : Network) (clientfd : ℕ) (hquiet : ¬ network.Readable listenfd clientfd) :
    Affects listenfd (.epollCtlAdd clientfd true) network network
  | addError (network : Network) (clientfd : ℕ) :
    Affects listenfd (.epollCtlAdd clientfd false) network network
  | readData (network : Network) (clientfd : ℕ) (buf rest : Bytes)
    (hunread : network.unread clientfd = buf ++ rest) :
    Affects listenfd (.read clientfd (.data buf)) network
      { network with unread := Function.update network.unread clientfd rest }
  | readEof (network : Network) (clientfd : ℕ) (hunread : network.unread clientfd = [])
    (hended : network.ended clientfd = true) :
    Affects listenfd (.read clientfd .eof) network network
  | readAgain (network : Network) (clientfd : ℕ) (hunread : network.unread clientfd = [])
    (hended : network.ended clientfd = false) :
    Affects listenfd (.read clientfd .again) network network
  | readError (network : Network) (clientfd : ℕ) :
    Affects listenfd (.read clientfd .error) network network
  | written (network : Network) (clientfd : ℕ) (buf : Bytes) (n : ℕ) :
    Affects listenfd (.write clientfd buf (.written n)) network
      { network with
        echoed := Function.update network.echoed clientfd
          (network.echoed clientfd ++ buf.take n) }
  | writeError (network : Network) (clientfd : ℕ) (buf : Bytes) :
    Affects listenfd (.write clientfd buf .error) network network
  | delete (network : Network) (fd : ℕ) :
    Affects listenfd (.epollCtlDel fd) network { network with ready := network.ready.erase fd }
  | close (network : Network) (fd : ℕ) :
    Affects listenfd (.close fd) network { network with ready := network.ready.erase fd }

/-- The loop and the network. -/
structure Serving where
  network : Network
  state : State

/-- A registered descriptor gets on the ready list. -/
def Network.notify (network : Network) (kernel : Kernel) (fd : ℕ) : Network :=
  { network with
    ready := if fd ∈ kernel.registered then insert fd network.ready else network.ready }

/-- A call of the program, or something that happens outside: a client connects, sends or ends its
side, or the kernel has something else to report, such as an error. -/
inductive ServeStep (listenfd : ℕ) : Serving → Option Call → Serving → Prop
  | call {network network' : Network} {state next : State} {call : Call}
    (hstep : Step listenfd state call next) (haffects : call.Affects listenfd network network') :
    ServeStep listenfd ⟨network, state⟩ (some call) ⟨network', next⟩
  | connects (network : Network) (state : State) :
    ServeStep listenfd ⟨network, state⟩ none
      ⟨{ network with backlog := network.backlog + 1 }.notify state.kernel listenfd, state⟩
  | sends (network : Network) (state : State) (fd : ℕ) (bytes : Bytes)
    (hopen : state.kernel.files fd = some .client) :
    ServeStep listenfd ⟨network, state⟩ none
      ⟨{ network with
        sent := Function.update network.sent fd (network.sent fd ++ bytes)
        unread := Function.update network.unread fd (network.unread fd ++ bytes) }.notify
          state.kernel fd, state⟩
  | ends (network : Network) (state : State) (fd : ℕ)
    (hopen : state.kernel.files fd = some .client) :
    ServeStep listenfd ⟨network, state⟩ none
      ⟨{ network with ended := Function.update network.ended fd true }.notify state.kernel fd,
        state⟩
  | signals (network : Network) (state : State) (fd : ℕ) :
    ServeStep listenfd ⟨network, state⟩ none ⟨network.notify state.kernel fd, state⟩

/-- The event loop among its clients. What waits on the listening socket when it is registered puts
it on the ready list. -/
def served (listenfd : ℕ) : TransitionSystem Serving (Option Call) where
  Start serving := (reactor listenfd).Start serving.state ∧
    (listenfd ∈ serving.state.kernel.registered → 0 < serving.network.backlog →
      listenfd ∈ serving.network.ready)
  Step := ServeStep listenfd

variable {listenfd : ℕ} {serving next : Serving} {trace : List (Option Call)}

/-- The descriptors are kept as in runs of the loop alone. -/
theorem keeps_served (hrun : (served listenfd).Run trace serving) :
    Keeps listenfd serving.state := by
  induction hrun with
  | start hstart => exact keeps_start hstart.1
  | step _ hstep ih =>
    cases hstep with
    | call hstep => exact ih.step hstep
    | connects | sends | ends | signals => exact ih

/-! ### Nothing waits unnoticed -/

/-- The descriptor that is read from or written to. -/
def Pc.talksTo : Pc → Option ℕ
  | .read fd _ | .write fd _ _ => some fd
  | _ => none

/-- What can be read is on the ready list or has an event whose handling is not over; for the
listening socket, as long as `accept4` has not failed. The handler of clients is not entered with
the listening socket. -/
structure Watched (listenfd : ℕ) (calls : List Call) (serving : Serving) : Prop where
  noticed : ∀ fd ∈ serving.state.kernel.registered, serving.network.Readable listenfd fd →
    (fd = listenfd → .accept4 .error ∉ calls) →
      fd ∈ serving.network.ready ∨ fd ∈ serving.state.pc.pending listenfd
  talks : ∀ fd, serving.state.pc.talksTo = some fd → fd ≠ listenfd

section Steps

variable {kernel : Kernel} {pc pc' : Pc} {network network' : Network} {calls : List Call}
  {rest : List EpollEvent} {fd : ℕ}

theorem Network.Readable.client (h : network.Readable listenfd fd) (hfd : fd ≠ listenfd) :
    network.unread fd ≠ [] ∨ network.ended fd = true :=
  h.elim (fun hlisten ↦ absurd hlisten.1 hfd) And.right

theorem Network.Readable.backlog_pos (h : network.Readable listenfd listenfd) :
    0 < network.backlog :=
  h.elim And.right fun hclient ↦ absurd rfl hclient.1

theorem mem_ready_notify (hregistered : fd ∈ kernel.registered) :
    fd ∈ (network.notify kernel fd).ready := by
  rw [Network.notify, if_pos hregistered]
  exact Finset.mem_insert_self _ _

theorem ready_subset_notify (network : Network) (kernel : Kernel) (fd : ℕ) :
    network.ready ⊆ (network.notify kernel fd).ready := by
  rw [Network.notify]
  split_ifs
  · exact Finset.subset_insert _ _
  · exact subset_rfl

/-- A step of the program that moves on without touching the ready list, after which nothing is
readable that was not, and no event is dropped but for a descriptor with nothing to read. -/
theorem Watched.move {call : Call} (h : Watched listenfd calls ⟨network, kernel, pc⟩)
    (hready : network'.ready = network.ready)
    (hreadable : ∀ fd ∈ kernel.registered, network'.Readable listenfd fd →
      network.Readable listenfd fd ∨ fd ∈ pc'.pending listenfd)
    (hpending : ∀ fd ∈ pc.pending listenfd, network'.Readable listenfd fd →
      (fd = listenfd → .accept4 .error ∉ calls ++ [call]) → fd ∈ pc'.pending listenfd)
    (htalks : ∀ fd, pc'.talksTo = some fd → fd ≠ listenfd) :
    Watched listenfd (calls ++ [call]) ⟨network', kernel, pc'⟩ := by
  refine ⟨fun fd hregistered hread herror ↦ ?_, htalks⟩
  rcases hreadable fd hregistered hread with hbefore | hdone
  · have herror' : fd = listenfd → .accept4 .error ∉ calls :=
      fun hfd hmem ↦ herror hfd (List.mem_append_left _ hmem)
    rcases h.noticed fd hregistered hbefore herror' with hlist | hbatch
    · exact .inl (hready ▸ hlist)
    · exact .inr (hpending fd hbatch hread herror)
  · exact .inr hdone

/-- A step after which the events of the batch are the same. -/
theorem Watched.same {call : Call} (h : Watched listenfd calls ⟨network, kernel, pc⟩)
    (hpending : pc'.pending listenfd = pc.pending listenfd)
    (htalks : ∀ fd, pc'.talksTo = some fd → fd ≠ listenfd) :
    Watched listenfd (calls ++ [call]) ⟨network, kernel, pc'⟩ :=
  h.move rfl (fun _ _ hread ↦ .inl hread) (fun _ hfd _ _ ↦ hpending ▸ hfd) htalks

/-- The descriptor that a step takes off the ready list is not registered any more. -/
theorem Watched.forget {call : Call} {kernel' : Kernel}
    (h : Watched listenfd calls ⟨network, kernel, pc⟩)
    (hregistered : ∀ other ∈ kernel'.registered, other ∈ kernel.registered ∧ other ≠ fd)
    (hpending : ∀ other ∈ pc.pending listenfd, other ≠ fd → other ∈ pc'.pending listenfd)
    (htalks : ∀ fd, pc'.talksTo = some fd → fd ≠ listenfd) :
    Watched listenfd (calls ++ [call])
      ⟨{ network with ready := network.ready.erase fd }, kernel', pc'⟩ := by
  refine ⟨fun other hother hread herror ↦ ?_, htalks⟩
  obtain ⟨hbefore, hne⟩ := hregistered other hother
  have herror' : other = listenfd → .accept4 .error ∉ calls :=
    fun hfd hmem ↦ herror hfd (List.mem_append_left _ hmem)
  rcases h.noticed other hbefore hread herror' with hlist | hbatch
  · exact .inl (Finset.mem_erase_of_ne_of_mem hne hlist)
  · exact .inr (hpending other hbatch hne)

theorem Watched.epollWait {events : List EpollEvent}
    (h : Watched listenfd calls ⟨network, kernel, .epollWait⟩) :
    Watched listenfd (calls ++ [.epollWait events])
      ⟨{ network with ready := network.ready \ (events.map EpollEvent.fd).toFinset }, kernel,
        .forLoop events⟩ := by
  refine ⟨fun fd hregistered hread herror ↦ ?_, nofun⟩
  have herror' : fd = listenfd → .accept4 .error ∉ calls :=
    fun hfd hmem ↦ herror hfd (List.mem_append_left _ hmem)
  rcases h.noticed fd hregistered hread herror' with hlist | hbatch
  · by_cases hreported : fd ∈ events.map EpollEvent.fd
    · exact .inr hreported
    · exact .inl (Finset.mem_sdiff.mpr ⟨hlist, by rwa [List.mem_toFinset]⟩)
  · exact absurd hbatch List.not_mem_nil

theorem talksTo_dispatch (event : EpollEvent) (rest : List EpollEvent) :
    (dispatch listenfd event rest).talksTo = some fd → fd ≠ listenfd := by
  unfold dispatch
  split_ifs with hhup hlisten
  · nofun
  · nofun
  · rintro hfd rfl
    exact hlisten (Option.some.inj hfd)

/-- The handler of the listening socket is entered with it; a number handed out is another one. -/
theorem Watched.accepted {backlog clientfd : ℕ} {early : Bytes} {ended : Bool}
    (h : Watched listenfd calls ⟨network, kernel, .accept4 rest⟩)
    (hkeeps : Keeps listenfd ⟨kernel, .accept4 rest⟩) (hfree : kernel.files clientfd = none)
    (hbacklog : network.backlog = backlog + 1) :
    Watched listenfd (calls ++ [.accept4 (.connection clientfd)])
      ⟨{ network with
        backlog := backlog
        sent := Function.update network.sent clientfd early
        unread := Function.update network.unread clientfd early
        ended := Function.update network.ended clientfd ended
        echoed := Function.update network.echoed clientfd [] },
        kernel.openClient clientfd, .addClient clientfd rest⟩ := by
  refine ⟨fun fd hregistered hread herror ↦ ?_, nofun⟩
  have hne : fd ≠ clientfd := by
    rintro rfl
    have hopen := hkeeps.files fd hregistered
    rw [hfree] at hopen
    cases hopen
  have hbefore : network.Readable listenfd fd := by
    rcases hread with ⟨hlisten, -⟩ | ⟨hclient, hinput⟩
    · exact .inl ⟨hlisten, by omega⟩
    · refine .inr ⟨hclient, ?_⟩
      simpa only [Function.update_of_ne hne] using hinput
  exact h.noticed fd hregistered hbefore fun hfd hmem ↦ herror hfd (List.mem_append_left _ hmem)

theorem Watched.added {clientfd : ℕ} (h : Watched listenfd calls ⟨network, kernel,
      .addClient clientfd rest⟩) (hready : network.ready ⊆ network'.ready)
    (hreadable : ∀ fd, network'.Readable listenfd fd → network.Readable listenfd fd)
    (hnew : network.Readable listenfd clientfd → clientfd ∈ network'.ready) :
    Watched listenfd (calls ++ [.epollCtlAdd clientfd true])
      ⟨network', kernel.add clientfd, .accept4 rest⟩ := by
  refine ⟨fun fd hregistered hread herror ↦ ?_, nofun⟩
  rcases Finset.mem_insert.mp hregistered with rfl | hold
  · exact .inl (hnew (hreadable fd hread))
  · have herror' : fd = listenfd → .accept4 .error ∉ calls :=
      fun hfd hmem ↦ herror hfd (List.mem_append_left _ hmem)
    exact (h.noticed fd hold (hreadable fd hread) herror').imp_left (hready ·)

/-- `accept4` drops the event of the listening socket when no connection waits. -/
theorem Watched.drained (h : Watched listenfd calls ⟨network, kernel, .accept4 rest⟩)
    (hbacklog : network.backlog = 0) :
    Watched listenfd (calls ++ [.accept4 .again]) ⟨network, kernel, .forLoop rest⟩ := by
  refine h.move rfl (fun _ _ hread ↦ .inl hread) (fun fd hfd hread _ ↦ ?_) nofun
  rcases List.mem_cons.mp hfd with rfl | hrest
  · exact absurd hread.backlog_pos (by omega)
  · exact hrest

/-- After another error nothing is promised of the listening socket. -/
theorem Watched.acceptError {backlog : ℕ}
    (h : Watched listenfd calls ⟨network, kernel, .accept4 rest⟩)
    (hbacklog : backlog ≤ network.backlog) :
    Watched listenfd (calls ++ [.accept4 .error])
      ⟨{ network with backlog := backlog }, kernel, .forLoop rest⟩ := by
  refine h.move rfl (fun fd _ hread ↦ .inl ?_) (fun fd hfd _ herror ↦ ?_) nofun
  · exact hread.imp_left fun hlisten ↦ ⟨hlisten.1, hlisten.2.trans_le hbacklog⟩
  · rcases List.mem_cons.mp hfd with rfl | hrest
    · exact absurd (List.mem_append_right _ (List.mem_singleton_self _)) (herror rfl)
    · exact hrest

/-- The handler of a client goes on after it has read something. -/
theorem Watched.readData {clientfd : ℕ} {buf after : Bytes}
    (h : Watched listenfd calls ⟨network, kernel, .read clientfd rest⟩) :
    Watched listenfd (calls ++ [.read clientfd (.data buf)])
      ⟨{ network with unread := Function.update network.unread clientfd after }, kernel,
        .write clientfd buf rest⟩ := by
  refine h.move rfl (fun fd _ hread ↦ ?_) (fun _ hfd _ _ ↦ hfd) fun fd hfd ↦ h.talks fd hfd
  by_cases hsame : fd = clientfd
  · exact .inr (hsame ▸ List.mem_cons_self)
  · refine .inl (hread.imp_right fun hclient ↦ ⟨hclient.1, ?_⟩)
    simpa only [Function.update_of_ne hsame] using hclient.2

/-- `read` drops the event of a client when there is nothing left to read. -/
theorem Watched.readAgain {clientfd : ℕ}
    (h : Watched listenfd calls ⟨network, kernel, .read clientfd rest⟩)
    (hunread : network.unread clientfd = []) (hended : network.ended clientfd = false) :
    Watched listenfd (calls ++ [.read clientfd .again]) ⟨network, kernel, .forLoop rest⟩ := by
  refine h.move rfl (fun _ _ hread ↦ .inl hread) (fun fd hfd hread _ ↦ ?_) nofun
  rcases List.mem_cons.mp hfd with rfl | hrest
  · rcases hread.client (h.talks fd rfl) with hbytes | hend
    · exact absurd hunread hbytes
    · rw [hended] at hend
      cases hend
  · exact hrest

theorem Watched.written {clientfd n : ℕ} {buf echoed : Bytes}
    (h : Watched listenfd calls ⟨network, kernel, .write clientfd buf rest⟩) :
    Watched listenfd (calls ++ [.write clientfd buf (.written n)])
      ⟨{ network with echoed := Function.update network.echoed clientfd echoed }, kernel,
        .read clientfd rest⟩ :=
  h.move rfl (fun _ _ hread ↦ .inl hread) (fun _ hfd _ _ ↦ hfd) fun fd hfd ↦ h.talks fd hfd

theorem Watched.delete (h : Watched listenfd calls ⟨network, kernel, .delete fd rest⟩) :
    Watched listenfd (calls ++ [.epollCtlDel fd])
      ⟨{ network with ready := network.ready.erase fd }, kernel.delete fd, .close fd rest⟩ := by
  refine h.forget (fun other hother ↦ ?_) (fun other hother hne ↦ ?_) nofun
  · exact ⟨Finset.mem_of_mem_erase hother, Finset.ne_of_mem_erase hother⟩
  · exact (List.mem_cons.mp hother).resolve_left hne

/-- A descriptor that is closed was not registered. -/
theorem Watched.closed (h : Watched listenfd calls ⟨network, kernel, pc⟩)
    (hkeeps : Keeps listenfd ⟨kernel, pc⟩) (hlimbo : pc.limbo = some fd)
    (hpending : pc'.pending listenfd = pc.pending listenfd) (htalks : pc'.talksTo = none) :
    Watched listenfd (calls ++ [.close fd])
      ⟨{ network with ready := network.ready.erase fd }, kernel.close fd, pc'⟩ := by
  have hnot := (hkeeps.limbo fd hlimbo).1
  refine h.forget (fun other hother ↦ ⟨hother, ne_of_mem_of_not_mem hother hnot⟩)
    (fun _ hother _ ↦ hpending ▸ hother) fun _ hfd ↦ ?_
  rw [htalks] at hfd
  cases hfd

/-- Something happens outside: what becomes readable gets on the ready list. -/
theorem Watched.outside {state : State} (h : Watched listenfd calls ⟨network, state⟩)
    (hready : network.ready ⊆ network'.ready)
    (hreadable : ∀ fd ∈ state.kernel.registered, network'.Readable listenfd fd →
      network.Readable listenfd fd ∨ fd ∈ network'.ready) :
    Watched listenfd calls ⟨network', state⟩ := by
  refine ⟨fun fd hregistered hread herror ↦ ?_, h.talks⟩
  rcases hreadable fd hregistered hread with hbefore | hlist
  · exact (h.noticed fd hregistered hbefore herror).imp_left (hready ·)
  · exact .inl hlist

/-- A call of the program. -/
theorem Watched.call {state next : State} {call : Call}
    (h : Watched listenfd calls ⟨network, state⟩) (hkeeps : Keeps listenfd state)
    (hstep : Step listenfd state call next) (haffects : call.Affects listenfd network network') :
    Watched listenfd (calls ++ [call]) ⟨network', next⟩ := by
  cases hstep with
  | epollWait kernel events hreport =>
    cases haffects with
    | epollWait => exact h.epollWait
  | take kernel event rest =>
    cases haffects with
    | take => exact h.same (pending_dispatch event rest) fun fd ↦ talksTo_dispatch event rest
  | endLoop kernel =>
    cases haffects with
    | endLoop => exact h.same rfl nofun
  | accepted kernel rest clientfd hfree =>
    cases haffects with
    | accepted _ backlog _ early ended hbacklog => exact h.accepted hkeeps hfree hbacklog
  | drained kernel rest =>
    cases haffects with
    | drained _ hbacklog => exact h.drained hbacklog
  | acceptError kernel rest =>
    cases haffects with
    | acceptError _ backlog hbacklog => exact h.acceptError hbacklog
  | added kernel rest clientfd =>
    cases haffects with
    | addedReadable _ _ hreadable =>
      exact h.added (Finset.subset_insert _ _) (fun _ ↦ id) fun _ ↦ Finset.mem_insert_self _ _
    | addedQuiet _ _ hquiet => exact h.added subset_rfl (fun _ ↦ id) fun hread ↦ absurd hread hquiet
  | addError kernel rest clientfd =>
    cases haffects with
    | addError => exact h.same rfl nofun
  | closeRejected kernel rest clientfd =>
    cases haffects with
    | close => exact h.closed hkeeps rfl rfl rfl
  | readData kernel rest clientfd buf =>
    cases haffects with
    | readData => exact h.readData
  | readEof kernel rest clientfd =>
    cases haffects with
    | readEof => exact h.same rfl nofun
  | readAgain kernel rest clientfd =>
    cases haffects with
    | readAgain _ _ hunread hended => exact h.readAgain hunread hended
  | readError kernel rest clientfd =>
    cases haffects with
    | readError => exact h.same rfl nofun
  | written kernel rest clientfd buf n =>
    cases haffects with
    | written => exact h.written
  | writeError kernel rest clientfd buf =>
    cases haffects with
    | writeError => exact h.same rfl nofun
  | delete kernel rest fd =>
    cases haffects with
    | delete => exact h.delete
  | close kernel rest fd =>
    cases haffects with
    | close => exact h.closed hkeeps rfl rfl rfl

end Steps

theorem watched_run (hrun : (served listenfd).Run trace serving) :
    Watched listenfd (trace.filterMap id) serving := by
  induction hrun with
  | @start serving hstart =>
    obtain ⟨network, kernel, pc⟩ := serving
    obtain ⟨⟨hpc, -, -, hregistered⟩, hready⟩ := hstart
    obtain rfl : pc = .epollWait := hpc
    refine ⟨fun fd hfd hread _ ↦ .inl ?_, nofun⟩
    obtain rfl := Finset.mem_singleton.mp (hregistered hfd)
    exact hready hfd hread.backlog_pos
  | step hbefore hstep ih =>
    rw [List.filterMap_append]
    cases hstep with
    | call hstep haffects => exact ih.call (keeps_served hbefore) hstep haffects
    | connects network state =>
      rw [List.filterMap_cons_none rfl, List.filterMap_nil, List.append_nil]
      refine ih.outside (ready_subset_notify _ _ _) fun fd hregistered hread ↦ ?_
      by_cases hlisten : fd = listenfd
      · exact .inr (hlisten ▸ mem_ready_notify (hlisten ▸ hregistered))
      · exact .inl (.inr ⟨hlisten, hread.client hlisten⟩)
    | sends network state client bytes hopen =>
      rw [List.filterMap_cons_none rfl, List.filterMap_nil, List.append_nil]
      refine ih.outside (ready_subset_notify _ _ _) fun fd hregistered hread ↦ ?_
      by_cases hsame : fd = client
      · exact .inr (hsame ▸ mem_ready_notify (hsame ▸ hregistered))
      · refine .inl (hread.imp_right fun hclient ↦ ⟨hclient.1, ?_⟩)
        simpa only [Network.notify, Function.update_of_ne hsame] using hclient.2
    | ends network state client hopen =>
      rw [List.filterMap_cons_none rfl, List.filterMap_nil, List.append_nil]
      refine ih.outside (ready_subset_notify _ _ _) fun fd hregistered hread ↦ ?_
      by_cases hsame : fd = client
      · exact .inr (hsame ▸ mem_ready_notify (hsame ▸ hregistered))
      · refine .inl (hread.imp_right fun hclient ↦ ⟨hclient.1, ?_⟩)
        simpa only [Network.notify, Function.update_of_ne hsame] using hclient.2
    | signals network state fd =>
      rw [List.filterMap_cons_none rfl, List.filterMap_nil, List.append_nil]
      exact ih.outside (ready_subset_notify _ _ _) fun _ _ hread ↦ .inl hread

section Blocked

variable {network : Network} {kernel : Kernel}

/-- Where the loop is about to block, what is not on the ready list has nothing to read. -/
theorem not_readable_of_notMem (hrun : (served listenfd).Run trace ⟨network, kernel, .epollWait⟩)
    {fd : ℕ} (hregistered : fd ∈ kernel.registered) (hquiet : fd ∉ network.ready)
    (herror : fd = listenfd → some (.accept4 .error) ∉ trace) :
    ¬ network.Readable listenfd fd := by
  intro hread
  have herror' : fd = listenfd → .accept4 .error ∉ trace.filterMap id :=
    fun hlisten hmem ↦ herror hlisten (by simpa using hmem)
  rcases (watched_run hrun).noticed fd hregistered hread herror' with hlist | hbatch
  · exact hquiet hlist
  · exact List.not_mem_nil hbatch

/-- Where the loop is about to block, a client that is not on the ready list has been read out. -/
theorem read_out_of_notMem (hrun : (served listenfd).Run trace ⟨network, kernel, .epollWait⟩)
    {fd : ℕ} (hclient : kernel.files fd = some .client) (hquiet : fd ∉ network.ready) :
    network.unread fd = [] ∧ network.ended fd = false := by
  have hkeeps := keeps_served hrun
  have hregistered := (hkeeps.clients fd hclient).resolve_right nofun
  have hlisten : fd ≠ listenfd := by
    rintro rfl
    have hfile := hkeeps.files fd hregistered
    rw [hclient, fileOf, if_pos rfl] at hfile
    cases hfile
  have hnot := not_readable_of_notMem hrun hregistered hquiet fun h ↦ absurd h hlisten
  constructor
  · by_contra hbytes
    exact hnot (.inr ⟨hlisten, .inl hbytes⟩)
  · by_contra hend
    exact hnot (.inr ⟨hlisten, .inr (Bool.not_eq_false _ ▸ hend)⟩)

/-- Where the loop is about to block in `epoll_wait`, everything that there is to read or to notice
is on the ready list: the bytes of each open client and the end of its side, and, as long as
`accept4` has not failed, the connections that wait. -/
theorem readable_ready (hrun : (served listenfd).Run trace ⟨network, kernel, .epollWait⟩) :
    (∀ fd, kernel.files fd = some .client → fd ∉ network.ready →
      network.unread fd = [] ∧ network.ended fd = false) ∧
    (listenfd ∈ kernel.registered → listenfd ∉ network.ready →
      some (.accept4 .error) ∉ trace → network.backlog = 0) := by
  refine ⟨fun fd ↦ read_out_of_notMem hrun, fun hregistered hquiet herror ↦ ?_⟩
  by_contra hbacklog
  exact not_readable_of_notMem hrun hregistered hquiet (fun _ ↦ herror)
    (.inl ⟨rfl, Nat.pos_of_ne_zero hbacklog⟩)

end Blocked

/-! ### A client -/

/-- The listening socket is registered, and nobody has connected. -/
def quietNetwork : Network := ⟨0, fun _ ↦ [], fun _ ↦ [], fun _ ↦ false, fun _ ↦ [], ∅⟩

/-- The network once a client has connected and sent a byte, and its connection is registered. -/
def greetedNetwork : Network where
  backlog := 0
  sent := Function.update (fun _ ↦ []) 7 [65]
  unread := Function.update (fun _ ↦ []) 7 [65]
  ended := Function.update (fun _ ↦ false) 7 false
  echoed := Function.update (fun _ ↦ []) 7 []
  ready := {7}

/-- The kernel by then. -/
def greetedKernel : Kernel := (listenerKernel.openClient 7).add 7

theorem greeted_mayReport : greetedKernel.MayReport [⟨1, 7⟩] :=
  ⟨by simp [greetedKernel, Kernel.add], by simp, by decide⟩

/-- What the loop does and `none` for what the client does. -/
def greetedTrace : List (Option Call) :=
  [none, some (.epollWait [⟨1, 4⟩]), some (.take ⟨1, 4⟩), some (.accept4 (.connection 7)),
    some (.epollCtlAdd 7 true), some (.accept4 .again), some .endLoop]

/-- A client connects, sends a byte, and is accepted and registered. -/
theorem greeted_run :
    (served 4).Run greetedTrace ⟨greetedNetwork, greetedKernel, .epollWait⟩ := by
  have hclients : ∀ fd, listenerKernel.files fd ≠ some .client := by
    intro fd
    show (if fd = 4 then some File.listener else none) ≠ _
    split_ifs <;> simp
  have hstart : (served 4).Run [] ⟨quietNetwork, listenerKernel, .epollWait⟩ :=
    .start ⟨⟨rfl, rfl, hclients, subset_rfl⟩, fun _ hbacklog ↦ absurd hbacklog (lt_irrefl 0)⟩
  have hconnects := hstart.step (.connects quietNetwork _)
  have hwait := hconnects.step (.call (.epollWait _ [⟨1, 4⟩]
    ⟨by simp [listenerKernel], by simp, by decide⟩)
    (.epollWait _ [⟨1, 4⟩] (by simp [quietNetwork, Network.notify, listenerKernel])))
  have htake := hwait.step (.call (.take _ ⟨1, 4⟩ []) (.take _ ⟨1, 4⟩))
  have haccepted := htake.step (.call (.accepted _ [] 7 rfl) (.accepted _ 0 7 [65] false rfl))
  have hadded := haccepted.step (.call (.added _ [] 7)
    (.addedReadable _ 7 (.inr ⟨by decide, .inl (by simp)⟩)))
  have hdrained := hadded.step (.call (.drained _ []) (.drained _ rfl))
  exact hdrained.step (.call (.endLoop _) (.endLoop _))

/-- The client's byte is noticed: its descriptor is on the ready list. -/
theorem readable_ready_greeted :
    (∀ fd, greetedKernel.files fd = some .client → fd ∉ greetedNetwork.ready →
      greetedNetwork.unread fd = [] ∧ greetedNetwork.ended fd = false) ∧
    (4 ∈ greetedKernel.registered → 4 ∉ greetedNetwork.ready →
      some (.accept4 .error) ∉ greetedTrace → greetedNetwork.backlog = 0) :=
  readable_ready greeted_run

end DailyChallenge.EpollReactor
