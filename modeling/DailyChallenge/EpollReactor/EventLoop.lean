import Mathlib
import DailyChallenge.Library.ByteCodec
import DailyChallenge.Library.Runs

/-!
# The reactor's event loop

The loop of `06-epoll_reactor/reactor.c` with `handle_new_connection` and `handle_client_data`, one
system call a step. The kernel is what the loop can see of it: which file every descriptor number
stands for, and the interest list of `epfd`. `epoll_wait` may report any registered descriptors,
each once and with any event bits, and every other call may have any outcome; only a number that is
not open is handed out by `accept4`. No step of the program asks whether a descriptor is open, so
that what is said about it is about the order of the calls.
-/

set_option autoImplicit false
set_option relaxedAutoImplicit false

namespace DailyChallenge.EpollReactor

open Library

/-- `MAX_EVENTS`. -/
def maxEvents : ℕ := 64

/-- `BUF_SIZE`. -/
def bufSize : ℕ := 4096

/-- `EPOLLERR`. -/
def epollErr : UInt32 := 0x008

/-- `EPOLLHUP`. -/
def epollHup : UInt32 := 0x010

/-- `struct epoll_event`, with `data.fd`. -/
structure EpollEvent where
  events : UInt32
  fd : ℕ
deriving DecidableEq

/-! ### The kernel's side -/

/-- What an open descriptor stands for. The standard streams and `epfd` are `other`. -/
inductive File
  | listener
  | client
  | other
deriving DecidableEq

/-- The open descriptors, and the interest list of `epfd`. -/
structure Kernel where
  files : ℕ → Option File
  registered : Finset ℕ

namespace Kernel

def openClient (kernel : Kernel) (clientfd : ℕ) : Kernel :=
  { kernel with files := Function.update kernel.files clientfd (some .client) }

/-- A close. The kernel would also take the descriptor off the interest list, where it never is by
then (`Keeps.limbo`). -/
def close (kernel : Kernel) (fd : ℕ) : Kernel :=
  { kernel with files := Function.update kernel.files fd none }

/-- `epoll_ctl` with `EPOLL_CTL_ADD`. -/
def add (kernel : Kernel) (fd : ℕ) : Kernel :=
  { kernel with registered := insert fd kernel.registered }

/-- `epoll_ctl` with `EPOLL_CTL_DEL`. -/
def delete (kernel : Kernel) (fd : ℕ) : Kernel :=
  { kernel with registered := kernel.registered.erase fd }

/-- Events that `epoll_wait` may report. -/
def MayReport (kernel : Kernel) (events : List EpollEvent) : Prop :=
  (∀ event ∈ events, event.fd ∈ kernel.registered) ∧ (events.map EpollEvent.fd).Nodup ∧
    events.length ≤ maxEvents

end Kernel

inductive AcceptResult
  | connection (clientfd : ℕ)
  | again
  | error
deriving DecidableEq

inductive ReadResult
  | data (buf : Bytes)
  | eof
  | again
  | error
deriving DecidableEq

inductive WriteResult
  | written (n : ℕ)
  | error
deriving DecidableEq

/-- The system calls of the loop with their outcomes, and the steps of the `for` loop over the
events. -/
inductive Call
  | epollWait (events : List EpollEvent)
  | take (event : EpollEvent)
  | endLoop
  | accept4 (result : AcceptResult)
  | epollCtlAdd (clientfd : ℕ) (ok : Bool)
  | read (clientfd : ℕ) (result : ReadResult)
  | write (clientfd : ℕ) (buf : Bytes) (result : WriteResult)
  | epollCtlDel (fd : ℕ)
  | close (fd : ℕ)
deriving DecidableEq

/-! ### The program's side -/

/-- The call that comes next, with the locals it needs and the events that are left. -/
inductive Pc
  | epollWait
  | forLoop (events : List EpollEvent)
  | accept4 (rest : List EpollEvent)
  | addClient (clientfd : ℕ) (rest : List EpollEvent)
  | closeRejected (clientfd : ℕ) (rest : List EpollEvent)
  | read (clientfd : ℕ) (rest : List EpollEvent)
  | write (clientfd : ℕ) (buf : Bytes) (rest : List EpollEvent)
  | delete (fd : ℕ) (rest : List EpollEvent)
  | close (fd : ℕ) (rest : List EpollEvent)
deriving DecidableEq

structure State where
  kernel : Kernel
  pc : Pc

/-- The body of the `for` loop: where an event leads. -/
def dispatch (listenfd : ℕ) (event : EpollEvent) (rest : List EpollEvent) : Pc :=
  if event.events &&& (epollHup ||| epollErr) ≠ 0 then .delete event.fd rest
  else if event.fd = listenfd then .accept4 rest
  else .read event.fd rest

/-- One system call, or one step of the `for` loop. -/
inductive Step (listenfd : ℕ) : State → Call → State → Prop
  -- `main`
  | epollWait (kernel : Kernel) (events : List EpollEvent) (hreport : kernel.MayReport events) :
    Step listenfd ⟨kernel, .epollWait⟩ (.epollWait events) ⟨kernel, .forLoop events⟩
  | take (kernel : Kernel) (event : EpollEvent) (rest : List EpollEvent) :
    Step listenfd ⟨kernel, .forLoop (event :: rest)⟩ (.take event)
      ⟨kernel, dispatch listenfd event rest⟩
  | endLoop (kernel : Kernel) :
    Step listenfd ⟨kernel, .forLoop []⟩ .endLoop ⟨kernel, .epollWait⟩
  -- `handle_new_connection`
  | accepted (kernel : Kernel) (rest : List EpollEvent) (clientfd : ℕ)
    (hfree : kernel.files clientfd = none) :
    Step listenfd ⟨kernel, .accept4 rest⟩ (.accept4 (.connection clientfd))
      ⟨kernel.openClient clientfd, .addClient clientfd rest⟩
  | drained (kernel : Kernel) (rest : List EpollEvent) :
    Step listenfd ⟨kernel, .accept4 rest⟩ (.accept4 .again) ⟨kernel, .forLoop rest⟩
  | acceptError (kernel : Kernel) (rest : List EpollEvent) :
    Step listenfd ⟨kernel, .accept4 rest⟩ (.accept4 .error) ⟨kernel, .forLoop rest⟩
  | added (kernel : Kernel) (rest : List EpollEvent) (clientfd : ℕ) :
    Step listenfd ⟨kernel, .addClient clientfd rest⟩ (.epollCtlAdd clientfd true)
      ⟨kernel.add clientfd, .accept4 rest⟩
  | addError (kernel : Kernel) (rest : List EpollEvent) (clientfd : ℕ) :
    Step listenfd ⟨kernel, .addClient clientfd rest⟩ (.epollCtlAdd clientfd false)
      ⟨kernel, .closeRejected clientfd rest⟩
  | closeRejected (kernel : Kernel) (rest : List EpollEvent) (clientfd : ℕ) :
    Step listenfd ⟨kernel, .closeRejected clientfd rest⟩ (.close clientfd)
      ⟨kernel.close clientfd, .accept4 rest⟩
  -- `handle_client_data`
  | readData (kernel : Kernel) (rest : List EpollEvent) (clientfd : ℕ) (buf : Bytes)
    (hpos : 0 < buf.length) (hmax : buf.length ≤ bufSize) :
    Step listenfd ⟨kernel, .read clientfd rest⟩ (.read clientfd (.data buf))
      ⟨kernel, .write clientfd buf rest⟩
  | readEof (kernel : Kernel) (rest : List EpollEvent) (clientfd : ℕ) :
    Step listenfd ⟨kernel, .read clientfd rest⟩ (.read clientfd .eof)
      ⟨kernel, .delete clientfd rest⟩
  | readAgain (kernel : Kernel) (rest : List EpollEvent) (clientfd : ℕ) :
    Step listenfd ⟨kernel, .read clientfd rest⟩ (.read clientfd .again) ⟨kernel, .forLoop rest⟩
  | readError (kernel : Kernel) (rest : List EpollEvent) (clientfd : ℕ) :
    Step listenfd ⟨kernel, .read clientfd rest⟩ (.read clientfd .error)
      ⟨kernel, .delete clientfd rest⟩
  | written (kernel : Kernel) (rest : List EpollEvent) (clientfd : ℕ) (buf : Bytes) (n : ℕ)
    (hle : n ≤ buf.length) :
    Step listenfd ⟨kernel, .write clientfd buf rest⟩ (.write clientfd buf (.written n))
      ⟨kernel, .read clientfd rest⟩
  | writeError (kernel : Kernel) (rest : List EpollEvent) (clientfd : ℕ) (buf : Bytes) :
    Step listenfd ⟨kernel, .write clientfd buf rest⟩ (.write clientfd buf .error)
      ⟨kernel, .delete clientfd rest⟩
  -- The end of a descriptor, after `EPOLLHUP` or `EPOLLERR` and in `handle_client_data`
  | delete (kernel : Kernel) (rest : List EpollEvent) (fd : ℕ) :
    Step listenfd ⟨kernel, .delete fd rest⟩ (.epollCtlDel fd) ⟨kernel.delete fd, .close fd rest⟩
  | close (kernel : Kernel) (rest : List EpollEvent) (fd : ℕ) :
    Step listenfd ⟨kernel, .close fd rest⟩ (.close fd) ⟨kernel.close fd, .forLoop rest⟩

/-- The event loop from its first `epoll_wait` on, with a listening socket that was registered or,
where `epoll_ctl` failed, was not. -/
def reactor (listenfd : ℕ) : TransitionSystem State Call where
  Start state := state.pc = .epollWait ∧ state.kernel.files listenfd = some .listener ∧
    (∀ fd, state.kernel.files fd ≠ some .client) ∧ state.kernel.registered ⊆ {listenfd}
  Step := Step listenfd

end DailyChallenge.EpollReactor
