import Mathlib
import DailyChallenge.EpollReactor.EventLoop

/-!
# No descriptor leaks and none is used after its close

`Keeps` is the invariant of the loop. The registered descriptors are open, and the events of a batch
that are still to be handled are for registered descriptors, each once: a descriptor is closed only
in the handling of its own event, and a number that `accept4` hands out was not open and so is not
in the rest of the batch. A client is open without being registered only between its `accept4` and
`epoll_ctl`, and between `epoll_ctl` and `close` (`Pc.limbo`).
-/

set_option autoImplicit false
set_option relaxedAutoImplicit false

namespace DailyChallenge.EpollReactor

open Library

/-! ### The invariant -/

/-- The descriptors with an event whose handling has not begun to close them. -/
def Pc.pending (listenfd : ℕ) : Pc → List ℕ
  | .epollWait => []
  | .forLoop events => events.map EpollEvent.fd
  | .accept4 rest | .addClient _ rest | .closeRejected _ rest =>
    listenfd :: rest.map EpollEvent.fd
  | .read fd rest | .write fd _ rest | .delete fd rest => fd :: rest.map EpollEvent.fd
  | .close _ rest => rest.map EpollEvent.fd

/-- The descriptor that is open and not registered. -/
def Pc.limbo : Pc → Option ℕ
  | .addClient fd _ | .closeRejected fd _ | .close fd _ => some fd
  | _ => none

/-- What a descriptor that the loop deals with stands for. -/
def fileOf (listenfd fd : ℕ) : File := if fd = listenfd then .listener else .client

structure Keeps (listenfd : ℕ) (state : State) : Prop where
  files : ∀ fd ∈ state.kernel.registered, state.kernel.files fd = some (fileOf listenfd fd)
  clients : ∀ fd, state.kernel.files fd = some .client →
    fd ∈ state.kernel.registered ∨ state.pc.limbo = some fd
  limbo : ∀ fd, state.pc.limbo = some fd →
    fd ∉ state.kernel.registered ∧ state.kernel.files fd = some (fileOf listenfd fd)
  pending : ∀ fd ∈ state.pc.pending listenfd, fd ∈ state.kernel.registered
  once : (state.pc.pending listenfd).Nodup

variable {listenfd : ℕ} {state next : State} {call : Call} {trace : List Call}

theorem keeps_start (hstart : (reactor listenfd).Start state) : Keeps listenfd state := by
  obtain ⟨kernel, pc⟩ := state
  obtain ⟨rfl, hlistener, hclients, hregistered⟩ := hstart
  constructor
  case files =>
    intro fd hfd
    obtain rfl := Finset.mem_singleton.mp (hregistered hfd)
    rw [hlistener, fileOf, if_pos rfl]
  case clients => exact fun fd hclient ↦ absurd hclient (hclients fd)
  case limbo =>
    intro fd hlimbo
    cases hlimbo
  case pending => exact fun fd hfd ↦ absurd hfd List.not_mem_nil
  case once => exact List.nodup_nil

/-- A step that only moves on in the program: no new descriptor is pending or in limbo. -/
theorem Keeps.move {kernel : Kernel} {pc pc' : Pc} (h : Keeps listenfd ⟨kernel, pc⟩)
    (hlimbo : pc'.limbo = pc.limbo)
    (hpending : (pc'.pending listenfd).Sublist (pc.pending listenfd)) :
    Keeps listenfd ⟨kernel, pc'⟩ := by
  constructor
  case files => exact h.files
  case clients => exact fun fd hclient ↦ hlimbo ▸ h.clients fd hclient
  case limbo => exact fun fd hfd ↦ h.limbo fd (hlimbo ▸ hfd)
  case pending => exact fun fd hfd ↦ h.pending fd (hpending.subset hfd)
  case once => exact h.once.sublist hpending

theorem pending_dispatch (event : EpollEvent) (rest : List EpollEvent) :
    (dispatch listenfd event rest).pending listenfd = (event :: rest).map EpollEvent.fd := by
  unfold dispatch
  split_ifs with hhup hlisten
  · rfl
  · rw [Pc.pending, List.map_cons, hlisten]
  · rfl

theorem limbo_dispatch (event : EpollEvent) (rest : List EpollEvent) :
    (dispatch listenfd event rest).limbo = none := by
  unfold dispatch
  split_ifs <;> rfl

/-! ### One step -/

section Calls

variable {kernel : Kernel} {rest : List EpollEvent} {fd : ℕ}

theorem Keeps.epollWait {events : List EpollEvent} (h : Keeps listenfd ⟨kernel, .epollWait⟩)
    (hreport : kernel.MayReport events) : Keeps listenfd ⟨kernel, .forLoop events⟩ := by
  obtain ⟨hregistered, honce, -⟩ := hreport
  refine ⟨h.files, h.clients, h.limbo, fun fd hfd ↦ ?_, honce⟩
  obtain ⟨event, hevent, rfl⟩ := List.mem_map.mp hfd
  exact hregistered event hevent

/-- A number that is handed out is neither registered nor the listening socket's. -/
theorem Keeps.accepted (h : Keeps listenfd ⟨kernel, .accept4 rest⟩)
    (hfree : kernel.files fd = none) :
    Keeps listenfd ⟨kernel.openClient fd, .addClient fd rest⟩ := by
  have hnot : ∀ other ∈ kernel.registered, other ≠ fd := by
    rintro other hother rfl
    have hopen := h.files other hother
    rw [hfree] at hopen
    cases hopen
  have hlisten : fd ≠ listenfd := (hnot listenfd (h.pending listenfd List.mem_cons_self)).symm
  constructor
  case files =>
    intro other hother
    show Function.update kernel.files fd _ other = _
    rw [Function.update_of_ne (hnot other hother)]
    exact h.files other hother
  case clients =>
    intro other hclient
    by_cases hsame : other = fd
    · exact Or.inr (congrArg some hsame.symm)
    · replace hclient : Function.update kernel.files fd _ other = _ := hclient
      rw [Function.update_of_ne hsame] at hclient
      have hregistered := h.clients other hclient
      exact Or.inl (hregistered.resolve_right (by simp [Pc.limbo]))
  case limbo =>
    intro other hother
    obtain rfl := Option.some_inj.mp hother
    refine ⟨fun hregistered ↦ hnot fd hregistered rfl, ?_⟩
    show Function.update kernel.files fd _ fd = _
    rw [Function.update_self, fileOf, if_neg hlisten]
  case pending => exact h.pending
  case once => exact h.once

theorem Keeps.added (h : Keeps listenfd ⟨kernel, .addClient fd rest⟩) :
    Keeps listenfd ⟨kernel.add fd, .accept4 rest⟩ := by
  constructor
  case files =>
    intro other hother
    rcases Finset.mem_insert.mp hother with rfl | hold
    · exact (h.limbo other rfl).2
    · exact h.files other hold
  case clients =>
    intro other hclient
    rcases h.clients other hclient with hold | hlimbo
    · exact Or.inl (Finset.mem_insert_of_mem hold)
    · obtain rfl := Option.some_inj.mp hlimbo
      exact Or.inl (Finset.mem_insert_self _ _)
  case limbo =>
    intro other hlimbo
    cases hlimbo
  case pending => exact fun other hother ↦ Finset.mem_insert_of_mem (h.pending other hother)
  case once => exact h.once

theorem Keeps.delete (h : Keeps listenfd ⟨kernel, .delete fd rest⟩) :
    Keeps listenfd ⟨kernel.delete fd, .close fd rest⟩ := by
  obtain ⟨hfd, hrest⟩ := List.nodup_cons.mp h.once
  constructor
  case files => exact fun other hother ↦ h.files other (Finset.mem_of_mem_erase hother)
  case clients =>
    intro other hclient
    by_cases hsame : other = fd
    · exact Or.inr (congrArg some hsame.symm)
    · have hregistered := (h.clients other hclient).resolve_right (by simp [Pc.limbo])
      exact Or.inl (Finset.mem_erase_of_ne_of_mem hsame hregistered)
  case limbo =>
    intro other hother
    obtain rfl := Option.some_inj.mp hother
    exact ⟨Finset.notMem_erase _ _, h.files fd (h.pending fd List.mem_cons_self)⟩
  case pending =>
    intro other hother
    refine Finset.mem_erase_of_ne_of_mem ?_ (h.pending other (List.mem_cons_of_mem _ hother))
    exact ne_of_mem_of_not_mem hother hfd
  case once => exact hrest

/-- The descriptor in limbo is closed. -/
theorem Keeps.close {pc pc' : Pc} (h : Keeps listenfd ⟨kernel, pc⟩) (hfd : pc.limbo = some fd)
    (hlimbo : pc'.limbo = none) (hpending : pc'.pending listenfd = pc.pending listenfd) :
    Keeps listenfd ⟨kernel.close fd, pc'⟩ := by
  have hnot : fd ∉ kernel.registered := (h.limbo fd hfd).1
  constructor
  case files =>
    intro other hother
    show Function.update kernel.files fd none other = _
    rw [Function.update_of_ne (ne_of_mem_of_not_mem hother hnot)]
    exact h.files other hother
  case clients =>
    intro other hclient
    replace hclient : Function.update kernel.files fd none other = _ := hclient
    by_cases hsame : other = fd
    · rw [hsame, Function.update_self] at hclient
      cases hclient
    · rw [Function.update_of_ne hsame] at hclient
      refine Or.inl ((h.clients other hclient).resolve_right fun hother ↦ hsame ?_)
      exact Option.some_inj.mp (hother.symm.trans hfd)
  case limbo =>
    intro other hother
    rw [show State.pc ⟨kernel.close fd, pc'⟩ = pc' from rfl, hlimbo] at hother
    cases hother
  case pending => exact fun other hother ↦ h.pending other (hpending ▸ hother)
  case once => exact hpending ▸ h.once

end Calls

theorem Keeps.step (h : Keeps listenfd state) (hstep : Step listenfd state call next) :
    Keeps listenfd next := by
  cases hstep with
  | epollWait kernel events hreport => exact h.epollWait hreport
  | take kernel event rest =>
    refine h.move (limbo_dispatch event rest) ?_
    rw [pending_dispatch]
    exact .refl _
  | endLoop kernel => exact h.move rfl (.refl _)
  | accepted kernel rest clientfd hfree => exact h.accepted hfree
  | drained kernel rest => exact h.move rfl (List.sublist_cons_self _ _)
  | acceptError kernel rest => exact h.move rfl (List.sublist_cons_self _ _)
  | added kernel rest clientfd => exact h.added
  | addError kernel rest clientfd => exact h.move rfl (.refl _)
  | closeRejected kernel rest clientfd => exact h.close rfl rfl rfl
  | readData kernel rest clientfd buf => exact h.move rfl (.refl _)
  | readEof kernel rest clientfd => exact h.move rfl (.refl _)
  | readAgain kernel rest clientfd => exact h.move rfl (List.sublist_cons_self _ _)
  | readError kernel rest clientfd => exact h.move rfl (.refl _)
  | written kernel rest clientfd buf n => exact h.move rfl (.refl _)
  | writeError kernel rest clientfd buf => exact h.move rfl (.refl _)
  | delete kernel rest fd => exact h.delete
  | close kernel rest fd => exact h.close rfl rfl rfl

theorem keeps_run (hrun : (reactor listenfd).Run trace state) : Keeps listenfd state := by
  apply hrun.invariant
  · exact fun state ↦ keeps_start
  · exact fun trace state call next _ h hstep ↦ h.step hstep

/-! ### Whole runs -/

/-- The descriptor that a call reads, writes or closes. -/
def Call.uses : Call → Option ℕ
  | .read fd _ | .write fd _ _ | .close fd => some fd
  | _ => none

theorem fileOf_open {kernel : Kernel} {fd : ℕ} (h : kernel.files fd = some (fileOf listenfd fd)) :
    kernel.files fd ≠ none := by
  rw [h]
  exact Option.some_ne_none _

/-- What is read, written or closed is open. -/
theorem Keeps.open_of_uses (h : Keeps listenfd state) (hstep : Step listenfd state call next)
    {fd : ℕ} (huses : call.uses = some fd) : state.kernel.files fd ≠ none := by
  have hpending : fd ∈ state.pc.pending listenfd → state.kernel.files fd ≠ none :=
    fun hfd ↦ fileOf_open (h.files fd (h.pending fd hfd))
  have hlimbo : state.pc.limbo = some fd → state.kernel.files fd ≠ none :=
    fun hfd ↦ fileOf_open (h.limbo fd hfd).2
  cases hstep with
  | readData | readEof | readAgain | readError | written | writeError =>
    obtain rfl := Option.some_inj.mp huses
    exact hpending List.mem_cons_self
  | closeRejected | close => exact hlimbo huses
  | epollWait | take | endLoop | accepted | drained | acceptError | added | addError | delete =>
    cases huses

/-- A number that is not open stays so until it is handed out. -/
theorem Step.files_none (hstep : Step listenfd state call next) {fd : ℕ}
    (hnone : state.kernel.files fd = none) (hcall : call ≠ .accept4 (.connection fd)) :
    next.kernel.files fd = none := by
  cases hstep with
  | accepted kernel rest clientfd hfree =>
    have hne : fd ≠ clientfd := by
      rintro rfl
      exact hcall rfl
    exact (Function.update_of_ne hne _ _).trans hnone
  | closeRejected kernel rest clientfd =>
    show Function.update kernel.files clientfd none fd = none
    rw [Function.update_apply, hnone, ite_self]
  | close kernel rest closed =>
    show Function.update kernel.files closed none fd = none
    rw [Function.update_apply, hnone, ite_self]
  | epollWait | take | endLoop | drained | acceptError | added | addError | readData | readEof
  | readAgain | readError | written | writeError | delete => exact hnone

theorem Step.files_close {fd : ℕ} (hstep : Step listenfd state (.close fd) next) :
    next.kernel.files fd = none := by
  cases hstep with
  | closeRejected | close => exact Function.update_self _ _ _

/-- After its close a number is not open until it is handed out again. -/
theorem files_none_run {before after : List Call} {fd : ℕ}
    (hrun : (reactor listenfd).Run (before ++ .close fd :: after) state)
    (hnot : .accept4 (.connection fd) ∉ after) : state.kernel.files fd = none := by
  induction after using List.reverseRecOn generalizing state with
  | nil =>
    obtain ⟨middle, -, hclose⟩ := hrun.lastStep
    exact Step.files_close hclose
  | append_singleton after call ih =>
    rw [List.mem_append, not_or, List.mem_singleton] at hnot
    rw [← List.cons_append, ← List.append_assoc] at hrun
    obtain ⟨middle, hmiddle, hlast⟩ := hrun.lastStep
    exact Step.files_none hlast (ih hmiddle hnot.1) (Ne.symm hnot.2)

/-- In every run of the loop: where the next event is looked for, the open client sockets are the
registered descriptors but for the listening socket; a descriptor is closed a second time only after
`accept4` has handed its number out again; and what is read, written or closed is open. -/
theorem reactor_descriptors (listenfd : ℕ) :
    (∀ trace kernel rest, (reactor listenfd).Run trace ⟨kernel, .forLoop rest⟩ →
      {fd | kernel.files fd = some .client} = {fd | fd ∈ kernel.registered ∧ fd ≠ listenfd}) ∧
    (∀ before middle after fd state,
      (reactor listenfd).Run (before ++ .close fd :: middle ++ .close fd :: after) state →
        .accept4 (.connection fd) ∈ middle) ∧
    ∀ trace state call next fd, (reactor listenfd).Run trace state →
      (reactor listenfd).Step state call next → call.uses = some fd →
        state.kernel.files fd ≠ none := by
  refine ⟨fun trace kernel rest hrun ↦ ?_, fun before middle after fd state hrun ↦ ?_,
    fun trace state call next fd hrun hstep huses ↦ (keeps_run hrun).open_of_uses hstep huses⟩
  · have hkeeps := keeps_run hrun
    ext fd
    rw [Set.mem_ofPred_eq, Set.mem_ofPred_eq]
    constructor
    · intro hclient
      have hregistered := (hkeeps.clients fd hclient).resolve_right (by simp [Pc.limbo])
      refine ⟨hregistered, fun hlisten ↦ ?_⟩
      have hfile := hkeeps.files fd hregistered
      rw [hclient, fileOf, if_pos hlisten] at hfile
      cases hfile
    · rintro ⟨hregistered, hlisten⟩
      rw [hkeeps.files fd hregistered, fileOf, if_neg hlisten]
  · by_contra hnot
    rw [List.append_cons] at hrun
    obtain ⟨last, hlast⟩ := hrun.upTo
    obtain ⟨state, hstate, hclose⟩ := hlast.lastStep
    exact (keeps_run hstate).open_of_uses hclose rfl (files_none_run hstate hnot)

/-! ### A number that is used twice -/

/-- Descriptor 4 is the listening socket, and registered. -/
def listening : Kernel := ⟨fun fd ↦ if fd = 4 then some .listener else none, {4}⟩

/-- A client connects as descriptor 7. -/
def connecting : List Call :=
  [.epollWait [⟨1, 4⟩], .take ⟨1, 4⟩, .accept4 (.connection 7), .epollCtlAdd 7 true,
    .accept4 .again]

/-- The client has ended its side. -/
def ending : List Call :=
  [.endLoop, .epollWait [⟨1, 7⟩], .take ⟨1, 7⟩, .read 7 .eof, .epollCtlDel 7]

theorem connecting_run (hrun : (reactor 4).Run trace ⟨listening, .epollWait⟩) :
    (reactor 4).Run (trace ++ connecting) ⟨(listening.openClient 7).add 7, .forLoop []⟩ := by
  have h := hrun.step (.epollWait _ [⟨1, 4⟩] ⟨by simp [listening], by simp, by decide⟩)
  have h := h.step (.take _ ⟨1, 4⟩ [])
  have h := h.step (.accepted _ [] 7 rfl)
  have h := h.step (.added _ [] 7)
  have h := h.step (.drained _ [])
  simpa [connecting] using h

theorem ending_run (hrun : (reactor 4).Run trace ⟨(listening.openClient 7).add 7, .forLoop []⟩) :
    (reactor 4).Run (trace ++ ending) ⟨listening.openClient 7, .close 7 []⟩ := by
  have h := hrun.step (.endLoop _)
  have h := h.step (.epollWait _ [⟨1, 7⟩] ⟨by simp [Kernel.add], by simp, by decide⟩)
  have h := h.step (.take _ ⟨1, 7⟩ [])
  have h := h.step (.readEof _ [] 7)
  have h := h.step (.delete _ [] 7)
  have hdelete : ((listening.openClient 7).add 7).delete 7 = listening.openClient 7 := rfl
  rw [hdelete] at h
  simpa [ending] using h

/-- The close of the client leaves the kernel as it was. -/
theorem close_openClient : (listening.openClient 7).close 7 = listening := by
  unfold Kernel.close Kernel.openClient
  rw [Function.update_idem, show none = listening.files 7 from rfl, Function.update_eq_self]

theorem listening_run : (reactor 4).Run [] ⟨listening, .epollWait⟩ := by
  refine .start ⟨rfl, rfl, fun fd ↦ ?_, subset_rfl⟩
  show (if fd = 4 then some File.listener else none) ≠ _
  split_ifs <;> simp

/-- The descriptor of a client that has left is handed out to the next, who leaves too. -/
theorem twice_run : (reactor 4).Run
    (connecting ++ ending ++ .close 7 :: (.endLoop :: (connecting ++ ending)))
    ⟨listening.openClient 7, .close 7 []⟩ := by
  have hclosed := (ending_run (connecting_run listening_run)).step (.close _ [] 7)
  rw [close_openClient] at hclosed
  have htwice := ending_run (connecting_run (hclosed.step (.endLoop _)))
  simpa using htwice

/-- The theorem where the first client is connected, and where descriptor 7 is closed for the second
time. -/
theorem reactor_descriptors_twice :
    {fd | ((listening.openClient 7).add 7).files fd = some .client} =
        {fd | fd ∈ ((listening.openClient 7).add 7).registered ∧ fd ≠ 4} ∧
      .accept4 (.connection 7) ∈ (.endLoop :: (connecting ++ ending) : List Call) ∧
      (listening.openClient 7).files 7 ≠ none := by
  obtain ⟨hclients, honce, hopen⟩ := reactor_descriptors 4
  exact ⟨hclients _ _ _ (connecting_run listening_run),
    honce _ _ [] 7 _ (twice_run.step (.close _ [] 7)),
    hopen _ _ _ _ 7 twice_run (.close _ [] 7) rfl⟩

end DailyChallenge.EpollReactor
