import Mathlib
import DailyChallenge.EpollReactor.EdgeTriggered
import DailyChallenge.EpollReactor.Echo

/-!
# The reactor as an echo server

What a client has sent is what has been echoed to it, the chunk at hand and what has not been read,
in this order (`Echoes`), as long as every write takes its whole buffer and the connection is not
being taken down. With the ready list (`read_out_of_notMem`) it follows that once the loop blocks
with nothing to report, every open client has got back exactly what it sent (`echoed_eq_sent`).
-/

set_option autoImplicit false
set_option relaxedAutoImplicit false

namespace DailyChallenge.EpollReactor

open Library

/-- The chunk that has been read from a descriptor and is to be written next. -/
def Pc.unsentTo (fd : ℕ) : Pc → Bytes
  | .write clientfd buf _ => if clientfd = fd then buf else []
  | _ => []

/-- The descriptor that is taken down. -/
def Pc.closing : Pc → Option ℕ
  | .delete fd _ | .close fd _ => some fd
  | _ => none

/-- The account of every open client. A client that is taken down may have been read from without an
echo. -/
structure Echoes (serving : Serving) : Prop where
  account : ∀ fd, serving.state.kernel.files fd = some .client →
    serving.state.pc.closing ≠ some fd →
      serving.network.sent fd =
        serving.network.echoed fd ++ serving.state.pc.unsentTo fd ++ serving.network.unread fd
  begins : ∀ fd, serving.state.kernel.files fd = some .client →
    serving.network.echoed fd <+: serving.network.sent fd

variable {listenfd : ℕ} {trace : List (Option Call)} {network network' : Network} {kernel : Kernel}
  {pc pc' : Pc} {rest : List EpollEvent} {serving : Serving}

/-- A step that moves on in the program, or begins to take a client down. -/
theorem Echoes.move {kernel' : Kernel} {ready : Finset ℕ} {backlog : ℕ}
    (h : Echoes ⟨network, kernel, pc⟩) (hfiles : kernel'.files = kernel.files)
    (hpc : ∀ fd, pc'.closing ≠ some fd →
      pc.closing ≠ some fd ∧ pc'.unsentTo fd = pc.unsentTo fd) :
    Echoes ⟨{ network with ready := ready, backlog := backlog }, kernel', pc'⟩ := by
  constructor
  · intro fd hclient hclosing
    obtain ⟨hclosing', hunsent⟩ := hpc fd hclosing
    show network.sent fd = network.echoed fd ++ pc'.unsentTo fd ++ network.unread fd
    rw [hunsent]
    exact h.account fd (hfiles ▸ hclient) hclosing'
  · exact fun fd hclient ↦ h.begins fd (hfiles ▸ hclient)

/-- A descriptor is closed. -/
theorem Echoes.close {fd : ℕ} (h : Echoes ⟨network, kernel, pc⟩)
    (hclosing : ∀ other ≠ fd, pc.closing ≠ some other)
    (hunsent : ∀ other, pc'.unsentTo other = pc.unsentTo other) :
    Echoes ⟨{ network with ready := network.ready.erase fd }, kernel.close fd, pc'⟩ := by
  have hother : ∀ other, (kernel.close fd).files other = some .client →
      other ≠ fd ∧ kernel.files other = some .client := by
    intro other hclient
    replace hclient : Function.update kernel.files fd none other = _ := hclient
    have hne : other ≠ fd := by
      rintro rfl
      rw [Function.update_self] at hclient
      cases hclient
    rw [Function.update_of_ne hne] at hclient
    exact ⟨hne, hclient⟩
  constructor
  · intro other hclient _
    obtain ⟨hne, hclient'⟩ := hother other hclient
    show network.sent other =
      network.echoed other ++ pc'.unsentTo other ++ network.unread other
    rw [hunsent other]
    exact h.account other hclient' (hclosing other hne)
  · exact fun other hclient ↦ h.begins other (hother other hclient).2

/-- A connection is accepted. -/
theorem Echoes.accepted {backlog clientfd : ℕ} {early : Bytes} {ended : Bool}
    (h : Echoes ⟨network, kernel, .accept4 rest⟩) :
    Echoes ⟨{ network with
      backlog := backlog
      sent := Function.update network.sent clientfd early
      unread := Function.update network.unread clientfd early
      ended := Function.update network.ended clientfd ended
      echoed := Function.update network.echoed clientfd [] },
      kernel.openClient clientfd, .addClient clientfd rest⟩ := by
  have hother : ∀ fd ≠ clientfd, (kernel.openClient clientfd).files fd = some .client →
      kernel.files fd = some .client := by
    intro fd hne hclient
    replace hclient : Function.update kernel.files clientfd _ fd = _ := hclient
    rwa [Function.update_of_ne hne] at hclient
  constructor
  · intro fd hclient _
    by_cases hsame : fd = clientfd
    · subst hsame
      simp [Pc.unsentTo]
    · simpa [Pc.unsentTo, Function.update_of_ne hsame] using
        h.account fd (hother fd hsame hclient) nofun
  · intro fd hclient
    by_cases hsame : fd = clientfd
    · subst hsame
      simp
    · simpa [Function.update_of_ne hsame] using h.begins fd (hother fd hsame hclient)

/-- A chunk is read. -/
theorem Echoes.readData {clientfd : ℕ} {buf after : Bytes}
    (h : Echoes ⟨network, kernel, .read clientfd rest⟩)
    (hunread : network.unread clientfd = buf ++ after) :
    Echoes ⟨{ network with unread := Function.update network.unread clientfd after }, kernel,
      .write clientfd buf rest⟩ := by
  constructor
  · intro fd hclient _
    have haccount := h.account fd hclient nofun
    by_cases hsame : fd = clientfd
    · subst hsame
      simpa [Pc.unsentTo, hunread] using haccount
    · simpa [Pc.unsentTo, Function.update_of_ne hsame, Ne.symm hsame] using haccount
  · exact h.begins

/-- The chunk is written whole. -/
theorem Echoes.written {clientfd : ℕ} {buf : Bytes}
    (h : Echoes ⟨network, kernel, .write clientfd buf rest⟩) :
    Echoes ⟨{ network with
      echoed := Function.update network.echoed clientfd
        (network.echoed clientfd ++ buf.take buf.length) }, kernel, .read clientfd rest⟩ := by
  have haccount : ∀ fd, kernel.files fd = some .client →
      network.sent fd = Function.update network.echoed clientfd
        (network.echoed clientfd ++ buf.take buf.length) fd ++ network.unread fd := by
    intro fd hclient
    have hbefore := h.account fd hclient nofun
    by_cases hsame : fd = clientfd
    · subst hsame
      simpa [Pc.unsentTo] using hbefore
    · simpa [Pc.unsentTo, Function.update_of_ne hsame, Ne.symm hsame] using hbefore
  constructor
  · intro fd hclient _
    rw [haccount fd hclient]
    simp [Pc.unsentTo]
  · intro fd hclient
    rw [haccount fd hclient]
    exact List.prefix_append _ _

theorem unsentTo_dispatch (event : EpollEvent) (rest : List EpollEvent) (fd : ℕ) :
    (dispatch listenfd event rest).unsentTo fd = [] := by
  unfold dispatch
  split_ifs <;> rfl

/-- A call of the program, whose writes are whole. -/
theorem Echoes.call {state next : State} {call : Call} (h : Echoes ⟨network, state⟩)
    (hstep : Step listenfd state call next) (haffects : call.Affects listenfd network network')
    (hwhole : ∀ fd buf n, call = .write fd buf (.written n) → n = buf.length) :
    Echoes ⟨network', next⟩ := by
  cases hstep with
  | epollWait kernel events hreport =>
    cases haffects with
    | epollWait => exact h.move rfl fun _ _ ↦ ⟨nofun, rfl⟩
  | take kernel event rest =>
    cases haffects with
    | take => exact h.move rfl fun fd _ ↦ ⟨nofun, unsentTo_dispatch event rest fd⟩
  | endLoop kernel =>
    cases haffects with
    | endLoop => exact h.move rfl fun _ _ ↦ ⟨nofun, rfl⟩
  | accepted kernel rest clientfd hfree =>
    cases haffects with
    | accepted => exact h.accepted
  | drained kernel rest =>
    cases haffects with
    | drained => exact h.move rfl fun _ _ ↦ ⟨nofun, rfl⟩
  | acceptError kernel rest =>
    cases haffects with
    | acceptError => exact h.move rfl fun _ _ ↦ ⟨nofun, rfl⟩
  | added kernel rest clientfd =>
    cases haffects with
    | addedReadable => exact h.move rfl fun _ _ ↦ ⟨nofun, rfl⟩
    | addedQuiet => exact h.move rfl fun _ _ ↦ ⟨nofun, rfl⟩
  | addError kernel rest clientfd =>
    cases haffects with
    | addError => exact h.move rfl fun _ _ ↦ ⟨nofun, rfl⟩
  | closeRejected kernel rest clientfd =>
    cases haffects with
    | close => exact h.close (fun _ _ ↦ nofun) fun _ ↦ rfl
  | readData kernel rest clientfd buf =>
    cases haffects with
    | readData _ _ _ after hunread => exact h.readData hunread
  | readEof kernel rest clientfd =>
    cases haffects with
    | readEof => exact h.move rfl fun _ _ ↦ ⟨nofun, rfl⟩
  | readAgain kernel rest clientfd =>
    cases haffects with
    | readAgain => exact h.move rfl fun _ _ ↦ ⟨nofun, rfl⟩
  | readError kernel rest clientfd =>
    cases haffects with
    | readError => exact h.move rfl fun _ _ ↦ ⟨nofun, rfl⟩
  | written kernel rest clientfd buf n =>
    cases haffects with
    | written =>
      obtain rfl := hwhole clientfd buf n rfl
      exact h.written
  | writeError kernel rest clientfd buf =>
    cases haffects with
    | writeError =>
      -- the chunk at hand is lost, but so is the client
      refine h.move rfl fun fd hclosing ↦ ⟨nofun, ?_⟩
      have hne : clientfd ≠ fd := fun hsame ↦ hclosing (congrArg some hsame)
      show [] = if clientfd = fd then buf else []
      rw [if_neg hne]
  | delete kernel rest fd =>
    cases haffects with
    | delete => exact h.move rfl fun _ hclosing ↦ ⟨hclosing, rfl⟩
  | close kernel rest fd =>
    cases haffects with
    | close =>
      exact h.close (fun other hne hsame ↦ hne (Option.some.inj hsame).symm) fun _ ↦ rfl

/-- A client sends something. -/
theorem Echoes.sends {state : State} (h : Echoes ⟨network, state⟩) (client : ℕ) (bytes : Bytes)
    (ready : Finset ℕ) :
    Echoes ⟨{ network with
      sent := Function.update network.sent client (network.sent client ++ bytes)
      unread := Function.update network.unread client (network.unread client ++ bytes)
      ready := ready }, state⟩ := by
  constructor
  · intro fd hclient hclosing
    have haccount : network.sent fd =
        network.echoed fd ++ state.pc.unsentTo fd ++ network.unread fd :=
      h.account fd hclient hclosing
    by_cases hsame : fd = client
    · subst hsame
      simp [haccount]
    · simpa [Function.update_of_ne hsame] using haccount
  · intro fd hclient
    have hbegins := h.begins fd hclient
    by_cases hsame : fd = client
    · subst hsame
      simpa using hbegins.trans (List.prefix_append _ bytes)
    · simpa [Function.update_of_ne hsame] using hbegins

theorem echoes_run (hrun : (served listenfd).Run trace serving)
    (hwhole : WritesWhole (trace.filterMap id)) : Echoes serving := by
  induction hrun with
  | @start serving hstart =>
    obtain ⟨⟨-, -, hclients, -⟩, -⟩ := hstart
    exact ⟨fun fd hclient ↦ absurd hclient (hclients fd),
      fun fd hclient ↦ absurd hclient (hclients fd)⟩
  | step _ hstep ih =>
    rw [List.filterMap_append] at hwhole
    cases hstep with
    | call hstep haffects =>
      refine (ih hwhole.of_append).call hstep haffects fun fd buf n hcall ↦ ?_
      exact hwhole fd buf n (List.mem_append_right _ (by simp [hcall]))
    | connects network state =>
      rw [List.filterMap_cons_none rfl, List.filterMap_nil, List.append_nil] at hwhole
      have hbefore := ih hwhole
      exact ⟨hbefore.account, hbefore.begins⟩
    | sends network state fd bytes hopen =>
      rw [List.filterMap_cons_none rfl, List.filterMap_nil, List.append_nil] at hwhole
      exact (ih hwhole).sends fd bytes _
    | ends network state fd hopen =>
      rw [List.filterMap_cons_none rfl, List.filterMap_nil, List.append_nil] at hwhole
      have hbefore := ih hwhole
      exact ⟨hbefore.account, hbefore.begins⟩
    | signals network state fd =>
      rw [List.filterMap_cons_none rfl, List.filterMap_nil, List.append_nil] at hwhole
      have hbefore := ih hwhole
      exact ⟨hbefore.account, hbefore.begins⟩

/-- In every run whose writes are whole, what has been echoed to an open client is the beginning of
what it has sent; and once the loop is about to block with nothing to report for it, it is all of
it. -/
theorem echoed_eq_sent (hrun : (served listenfd).Run trace serving)
    (hwhole : WritesWhole (trace.filterMap id)) {fd : ℕ}
    (hclient : serving.state.kernel.files fd = some .client) :
    serving.network.echoed fd <+: serving.network.sent fd ∧
      (serving.state.pc = .epollWait → fd ∉ serving.network.ready →
        serving.network.echoed fd = serving.network.sent fd) := by
  have hechoes := echoes_run hrun hwhole
  refine ⟨hechoes.begins fd hclient, fun hpc hquiet ↦ ?_⟩
  obtain ⟨network, kernel, pc⟩ := serving
  obtain rfl : pc = .epollWait := hpc
  have hunread := (read_out_of_notMem hrun hclient hquiet).1
  have haccount := hechoes.account fd hclient nofun
  simp only [hunread, Pc.unsentTo, List.append_nil] at haccount
  exact haccount.symm

/-- The client of `greeted_run` has got its byte back. -/
theorem echoed_eq_sent_greeted : ∃ trace network kernel,
    (served 4).Run trace ⟨network, kernel, .epollWait⟩ ∧ network.sent 7 = [65] ∧
      network.echoed 7 <+: network.sent 7 ∧
      (Pc.epollWait = .epollWait → 7 ∉ network.ready → network.echoed 7 = network.sent 7) := by
  have hwait := greeted_run.step (.call (.epollWait _ [⟨1, 7⟩] greeted_mayReport)
    (.epollWait greetedNetwork [⟨1, 7⟩] (by simp [greetedNetwork])))
  have htake := hwait.step (.call (.take _ ⟨1, 7⟩ []) (.take _ ⟨1, 7⟩))
  have hread := htake.step (.call (.readData _ [] 7 [65] (by decide) (by decide))
    (.readData _ 7 [65] [] rfl))
  have hwrite := hread.step (.call (.written _ [] 7 [65] 1 le_rfl) (.written _ 7 [65] 1))
  have hagain := hwrite.step (.call (.readAgain _ [] 7) (.readAgain _ 7 rfl rfl))
  have hend := hagain.step (.call (.endLoop _) (.endLoop _))
  refine ⟨_, _, _, hend, rfl, echoed_eq_sent hend ?_ rfl⟩
  intro fd buf n hmem
  have hcall : fd = 7 ∧ buf = [65] ∧ n = 1 := by simpa [greetedTrace] using hmem
  obtain ⟨rfl, rfl, rfl⟩ := hcall
  rfl

end DailyChallenge.EpollReactor
