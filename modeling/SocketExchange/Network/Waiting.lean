import SocketExchange.Lib.Loop
import SocketExchange.Network.EventLoop

/-!
# Waiting for events

A translation of `EventLoop::wait` in `src/network/event_loop.cpp`, with both
backends.  What the kernel reports is an argument: a mask for each entry of the
poll array, or a list of kernel events.
-/

namespace SocketExchange.Network

open SocketExchange.Lib

/-- The `revents` of one entry. -/
structure Revents where
  pollin : Bool := false
  pollhup : Bool := false
  pollout : Bool := false
  pollerr : Bool := false
  pollnval : Bool := false
  deriving Repr, DecidableEq

/-- The event an entry stands for, if its `revents` are not zero. -/
def Revents.event (r : Revents) (fd : Int) : Option Event :=
  if r = {} then none
  else some
    { fd := fd
      readable := r.pollin || r.pollhup
      writable := r.pollout
      hangup := r.pollerr || r.pollnval }

/-- `poll_wait`, after `poll` has returned. -/
def EventLoop.pollWait (l : EventLoop) (revents : Int → Revents) : List Event :=
  l.pollfds.filterMap fun entry => (revents entry.fd).event entry.fd

/-- `struct kevent`, as the kernel returns it: the fields that are looked at. -/
structure Kevent where
  ident : UInt64
  filter : Int16
  flags : UInt16 := 0
  deriving Repr, DecidableEq

/-- `EVFILT_READ` and `EVFILT_WRITE`, with their values in `sys/event.h`. -/
def Filter.code : Filter → Int16
  | .read => -1
  | .write => -2

/-- `EV_EOF`. -/
def evEof : UInt16 := 0x8000

/-- `EV_ERROR`. -/
def evError : UInt16 := 0x4000

/-- `static_cast<int>(ident)`. -/
def Kevent.fd (k : Kevent) : Int := k.ident.toUInt32.toInt32.toInt

/-- `flags & EV_EOF`. -/
def Kevent.eof (k : Kevent) : Bool := k.flags &&& evEof ≠ 0

/-- `flags & EV_ERROR`. -/
def Kevent.error (k : Kevent) : Bool := k.flags &&& evError ≠ 0

/-- `seen` and `out`, the locals of `kq_wait`. -/
structure Coalesced where
  seen : AList (fun _ : Int => Nat) := ∅
  out : List Event := []

/-- `if (it == seen.end())`: a new entry of `out`. -/
def Coalesced.note (c : Coalesced) (fd : Int) : Coalesced :=
  match c.seen.lookup fd with
  | some _ => c
  | none =>
      { seen := c.seen.insert fd c.out.length
        out := c.out ++ [{ fd := fd }] }

/-- What one kernel event adds to the event of its descriptor. -/
def Event.merge (ev : Event) (k : Kevent) : Event :=
  { ev with
    readable := ev.readable || k.filter = Filter.read.code || k.eof
    writable := ev.writable || k.filter = Filter.write.code
    hangup := ev.hangup || k.error }

/-- One pass of the loop over the kernel's events. -/
def Coalesced.report (c : Coalesced) (k : Kevent) : Coalesced :=
  let c := c.note k.fd
  match c.seen.lookup k.fd with
  | some i => { c with out := c.out.modify i fun ev => ev.merge k }
  | none => c

/-- `kq_wait`, after `kevent` has returned. -/
def EventLoop.kqWait (kevents : List Kevent) : List Event :=
  (Loop.run Coalesced.report {} kevents).out

/-- What `poll` or `kevent` returns. -/
inductive WaitAnswer where
  | ready (revents : Int → Revents) (kevents : List Kevent)
  | interrupted
  | failed

/-- `wait`, with `none` for -1.  An interrupted call counts as one that reports
nothing, and nothing is waited for if nothing is registered. -/
def EventLoop.wait (l : EventLoop) (answer : WaitAnswer) : Option (List Event) :=
  if l.size = 0 then some []
  else
    match answer with
    | .interrupted => some []
    | .failed => none
    | .ready revents kevents =>
        match l.backend with
        | .poll => some (l.pollWait revents)
        | .kqueue => some (EventLoop.kqWait kevents)

/-! ## Which descriptors are reported -/

theorem fd_of_revents {r : Revents} {fd : Int} {e : Event} (h : r.event fd = some e) :
    e.fd = fd := by
  unfold Revents.event at h
  split at h
  · cases h
  · cases h
    rfl

theorem mem_pollWait {l : EventLoop} {revents : Int → Revents} {e : Event}
    (h : e ∈ l.pollWait revents) : ∃ entry ∈ l.pollfds, entry.fd = e.fd := by
  obtain ⟨entry, hentry, he⟩ := List.mem_filterMap.mp h
  exact ⟨entry, hentry, (fd_of_revents he).symm⟩

end SocketExchange.Network
