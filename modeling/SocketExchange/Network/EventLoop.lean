import Mathlib.Data.List.AList

/-!
# The event loop

A translation of the registration half of `src/network/event_loop.{hpp,cpp}`,
with both backends.

`kq_` is a handle to an object in the kernel.  The model keeps that object, the
set of installed filters, in the place of the handle, together with the answers
the kernel will give to the next changes; `kevent` applies changes in order and
stops at the first one that fails.
-/

namespace SocketExchange.Network

/-- `struct Event`: one readiness notification. -/
structure Event where
  fd : Int := -1
  readable : Bool := false
  writable : Bool := false
  hangup : Bool := false
  deriving Repr, DecidableEq

/-- `EventLoop::Backend`. -/
inductive Backend where
  | poll
  | kqueue
  deriving Repr, DecidableEq

/-- What a descriptor is watched for: the mask of `poll_mask`, or the pair kept
in `kq_interest_`. -/
structure Interest where
  read : Bool := false
  write : Bool := false
  deriving Repr, DecidableEq

/-- `struct pollfd`, without `revents`. -/
structure PollFd where
  fd : Int
  events : Interest
  deriving Repr, DecidableEq

/-! ## The kernel's queue -/

/-- `EVFILT_READ` and `EVFILT_WRITE`. -/
inductive Filter where
  | read
  | write
  deriving Repr, DecidableEq

/-- `EV_SET`: install (`EV_ADD`) or uninstall (`EV_DELETE`) a filter. -/
structure Change where
  ident : Int
  filter : Filter
  install : Bool
  deriving Repr, DecidableEq

inductive Errno where
  | enoent
  | other (code : Nat)
  deriving Repr, DecidableEq

/-- The kernel's verdict on one change. -/
inductive KeventAnswer where
  | applied
  | rejected (errno : Errno)
  deriving Repr, DecidableEq

/-- The object behind `kq_`.  Changes beyond the end of `answers` are not
rejected. -/
structure Kqueue where
  filters : List (Int × Filter) := []
  answers : List KeventAnswer := []
  deriving Repr, DecidableEq

/-- A change the kernel has not rejected.  Adding is idempotent; deleting a
filter that is not there fails. -/
def Kqueue.applyChange (kq : Kqueue) (c : Change) : Option Kqueue :=
  if c.install then some { kq with filters := kq.filters.insert (c.ident, c.filter) }
  else if (c.ident, c.filter) ∈ kq.filters then
    some { kq with filters := kq.filters.filter (· ≠ (c.ident, c.filter)) }
  else none

/-- The next answer. -/
def Kqueue.answer (kq : Kqueue) : KeventAnswer × Kqueue :=
  match kq.answers with
  | [] => (.applied, kq)
  | a :: answers => (a, { kq with answers := answers })

/-- `kevent(kq_, changes, n, nullptr, 0, nullptr)`, with its `errno` if it
fails. -/
def Kqueue.kevent (kq : Kqueue) : List Change → Kqueue × Option Errno
  | [] => (kq, none)
  | c :: changes =>
      match kq.answer with
      | (.rejected errno, kq) => (kq, some errno)
      | (.applied, kq) =>
          match kq.applyChange c with
          | none => (kq, some .enoent)
          | some kq => Kqueue.kevent kq changes

/-! ## `class EventLoop` -/

structure EventLoop where
  backend : Backend := .poll
  pollfds : List PollFd := []
  pollIndex : AList (fun _ : Int => Nat) := ∅
  kqInterest : AList (fun _ : Int => Interest) := ∅
  kq : Kqueue := {}

def EventLoop.size (l : EventLoop) : Nat :=
  match l.backend with
  | .poll => l.pollfds.length
  | .kqueue => l.kqInterest.entries.length

/-- `poll_add` of a descriptor that is not registered. -/
def EventLoop.pollPush (l : EventLoop) (fd : Int) (want : Interest) : EventLoop :=
  { l with
    pollIndex := l.pollIndex.insert fd l.pollfds.length
    pollfds := l.pollfds ++ [⟨fd, want⟩] }

def EventLoop.pollUpdate (l : EventLoop) (fd : Int) (want : Interest) : EventLoop :=
  match l.pollIndex.lookup fd with
  | none => l.pollPush fd want
  | some i => { l with pollfds := l.pollfds.modify i fun entry => { entry with events := want } }

def EventLoop.pollAdd (l : EventLoop) (fd : Int) (want : Interest) : EventLoop :=
  if (l.pollIndex.lookup fd).isSome then l.pollUpdate fd want else l.pollPush fd want

/-- `poll_remove`: swap with the last entry, then pop. -/
def EventLoop.pollRemove (l : EventLoop) (fd : Int) : EventLoop :=
  match l.pollIndex.lookup fd with
  | none => l
  | some idx =>
      let last := l.pollfds.length - 1
      let l := match l.pollfds[last]? with
        | some moved =>
            if idx ≠ last then
              { l with
                pollfds := l.pollfds.set idx moved
                pollIndex := l.pollIndex.insert moved.fd idx }
            else l
        | none => l
      { l with pollfds := l.pollfds.dropLast, pollIndex := l.pollIndex.erase fd }

/-- The changes that turn one interest into another. -/
def interestChanges (fd : Int) (old want : Interest) : List Change :=
  (if want.read ≠ old.read then [⟨fd, .read, want.read⟩] else []) ++
    if want.write ≠ old.write then [⟨fd, .write, want.write⟩] else []

/-- `kq_apply`.  `kq_interest_[fd]` creates an entry if there is none. -/
def EventLoop.kqApply (l : EventLoop) (fd : Int) (want : Interest) : EventLoop × Bool :=
  let interest := (l.kqInterest.lookup fd).getD {}
  let l := { l with kqInterest := l.kqInterest.insert fd interest }
  let (kq, errno) := l.kq.kevent (interestChanges fd interest want)
  let l := { l with kq := kq }
  match errno with
  | some (.other _) => (l, false)
  | _ => ({ l with kqInterest := l.kqInterest.insert fd want }, true)

/-- `kq_remove`.  The result of its `kevent` is not looked at. -/
def EventLoop.kqRemove (l : EventLoop) (fd : Int) : EventLoop :=
  match l.kqInterest.lookup fd with
  | none => l
  | some interest =>
      { l with
        kq := (l.kq.kevent (interestChanges fd interest {})).1
        kqInterest := l.kqInterest.erase fd }

/-- Registers `fd`; false if the kernel refuses. -/
def EventLoop.add (l : EventLoop) (fd : Int) (wantRead wantWrite : Bool) : EventLoop × Bool :=
  match l.backend with
  | .poll => (l.pollAdd fd ⟨wantRead, wantWrite⟩, true)
  | .kqueue => l.kqApply fd ⟨wantRead, wantWrite⟩

def EventLoop.update (l : EventLoop) (fd : Int) (wantRead wantWrite : Bool) :
    EventLoop × Bool :=
  match l.backend with
  | .poll => (l.pollUpdate fd ⟨wantRead, wantWrite⟩, true)
  | .kqueue => l.kqApply fd ⟨wantRead, wantWrite⟩

def EventLoop.remove (l : EventLoop) (fd : Int) : EventLoop :=
  match l.backend with
  | .poll => l.pollRemove fd
  | .kqueue => l.kqRemove fd

end SocketExchange.Network
