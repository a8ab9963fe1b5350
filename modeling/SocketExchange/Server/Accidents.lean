import SocketExchange.Server.Noninterference

/-!
# Accidents

Some of what goes into a run is nobody's doing: in which order an unordered container is
walked, how much time passes, and what `kevent` answers when it is not asked about a new
connection.  The server's behaviour does not depend on any of it.

That two runs which differ in the affairs of one market-data client are the same for
everybody else is shown elsewhere.  Here the client is one that does not exist.
-/

namespace SocketExchange.Server

open SocketExchange.Lib
open SocketExchange.Lib.Bytes
open SocketExchange.Network
open SocketExchange.Protocol
open SocketExchange.Trading.OrderBook
open ExchangeServer

/-- Two turns in which clients and sockets do the same. -/
structure SameFacts (listener : Int) (t t' : Turn) : Prop where
  input : t.input = t'.input
  sends : t.answers.sends = t'.answers.sends
  recvs : t.answers.recvs = t'.answers.recvs
  accepts : t.answers.accepts = t'.answers.accepts
  kevents : ∀ e, t.input = .event e → e.fd = listener → t.answers.kevents = t'.answers.kevents

/-- A number that `accept` cannot return spares every connection. -/
theorem spares_of_neg {m : Int} (h : m < 0) (o : AcceptOutcome) : o.Spares m := by
  cases o with
  | connection fd peer nonblocking =>
      show (fd : Int) ≠ m
      omega
  | _ => trivial

theorem SameFacts.sameApart {listener m : Int} {t t' : Turn} (h : SameFacts listener t t')
    (hm : m < 0) : SameApart listener m t t' where
  input := h.input
  sends := fun fd _ => congrFun h.sends fd
  recvs := h.recvs
  accepts := h.accepts
  kevents := h.kevents
  spares := fun o _ => spares_of_neg hm o

/-- There are numbers nobody has. -/
theorem exists_below (l : List Int) : ∃ m < 0, ∀ x ∈ l, m < x := by
  induction l with
  | nil => exact ⟨-1, by decide, by simp⟩
  | cons x l ih =>
      obtain ⟨m, hneg, hbelow⟩ := ih
      refine ⟨min m x - 1, by omega, ?_⟩
      intro y hy
      rcases List.mem_cons.mp hy with rfl | hy
      · omega
      · have hlater := hbelow y hy
        omega

/-- The descriptor of the event that is taken up, if any. -/
def ExchangeServer.Input.fds : Input → List Int
  | .event e => [e.fd]
  | _ => []

/-- Runs of the same facts are alike, for everybody but somebody who is not there. -/
theorem run_alike (c : Setup) {turns turns' : List Turn}
    (h : List.Forall₂ (SameFacts c.listenerFd) turns turns') (fd : Int) :
    ∃ m, m ≠ fd ∧ Alike m (run c turns) (run c turns') := by
  obtain ⟨m, hneg, hbelow⟩ := exists_below (fd :: c.listenerFd :: turns.flatMap fun t => t.input.fds)
  have hfd : m < fd := hbelow fd List.mem_cons_self
  have hlistener : m < c.listenerFd := hbelow c.listenerFd (by simp)
  have hevents : ∀ t ∈ turns, ∀ e, t.input = .event e → e.fd ≠ m := by
    intro t ht e he
    have hmem : e.fd ∈ turns.flatMap fun t => t.input.fds :=
      List.mem_flatMap.mpr ⟨t, ht, by simp [he, ExchangeServer.Input.fds]⟩
    have hlater := hbelow e.fd (by simp [hmem])
    omega
  have hreach := run_reachable c []
  have hsteady : Steady m (run c []) :=
    { base := hreach.base
      registry := hreach.registry
      watcher := fun session hsession => by cases hsession
      listening := hreach.listening
      unlisted := run_unlisted c []
      apart := hlistener.ne }
  have hturns : List.Forall₂ (SameApart c.listenerFd m) turns turns' :=
    h.imp fun _ _ hsame => hsame.sameApart hneg
  exact ⟨m, hfd.ne, (run_paired (Meeting.refl hsteady) hturns hevents).alike⟩

/-- **Accidents make no difference.**  Let clients and sockets do the same in two runs.  Then
the order in which `sessions_`, `subscribers_` and `index_` are walked, the time that passes
and the answers of `kevent` to any change other than the registration of a new connection
may differ throughout, and still every session is in the same state, buffers included, the
book holds the same orders in the same places, the same names are in use, the same
executions have been made, and everything that was received from a connection, queued for
it, sent to it and done for it is the same, in the same order. -/
theorem accidents_unobservable (c : Setup) {turns turns' : List Turn}
    (h : List.Forall₂ (SameFacts c.listenerFd) turns turns') :
    let s := run c turns
    let s' := run c turns'
    (∀ fd, s.sessions.lookup fd = s'.sessions.lookup fd) ∧ SameBook s.book s'.book ∧
    s.usernames = s'.usernames ∧
    s.trace.flatMap Obs.executions = s'.trace.flatMap Obs.executions ∧
    ∀ fd, lifeOf fd s.trace = lifeOf fd s'.trace := by
  intro s s'
  obtain ⟨m, _, halike⟩ := run_alike c h 0
  refine ⟨fun fd => ?_, halike.book, halike.usernames, halike.executions, fun fd => ?_⟩
  · obtain ⟨m', hne, halike'⟩ := run_alike c h fd
    exact halike'.session fd hne.symm
  · obtain ⟨m', hne, halike'⟩ := run_alike c h fd
    exact halike'.life fd hne.symm

/-- Clients 5 and 6 watch an instrument, and client 7 trades with itself. -/
private def ownTrade (order : HashOrder) (elapsed : Nat) : List Turn :=
  [{ input := .event { fd := 3, readable := true }
     answers := { accepts := [.connection 5 [] true, .connection 6 [] true,
       .connection 7 [] true] } },
   { input := .event { fd := 5, readable := true }
     answers := { recvs := [.data ⟨ascii "SUBSCRIBE  IMCT\n", by decide, by decide⟩] } },
   { input := .event { fd := 6, readable := true }
     answers := { recvs := [.data ⟨ascii "SUBSCRIBE  IMCT\n", by decide, by decide⟩] } },
   { input := .event { fd := 7, readable := true }
     answers :=
       { recvs := [.data ⟨ascii "LOGIN eve\nSELL IMCT 1 9\nBUY IMCT 1 9\n", by decide, by decide⟩]
         order := order
         elapsed := elapsed } }]

private def backwards : HashOrder := ⟨List.reverse, fun l => List.reverse_perm l⟩

/-- The watchers are told in another order, and each of them is told the same. -/
theorem accidents_unobservable_self_trade :
    (run {} (ownTrade .stored 0)).trace ≠ (run {} (ownTrade backwards 8)).trace ∧
      lifeOf 5 (run {} (ownTrade .stored 0)).trace =
        lifeOf 5 (run {} (ownTrade backwards 8)).trace := by
  refine ⟨by decide +kernel, ?_⟩
  have hsame : List.Forall₂ (SameFacts 3) (ownTrade .stored 0) (ownTrade backwards 8) :=
    .cons ⟨rfl, rfl, rfl, rfl, fun _ _ _ => rfl⟩ (.cons ⟨rfl, rfl, rfl, rfl, fun _ _ _ => rfl⟩
      (.cons ⟨rfl, rfl, rfl, rfl, fun _ _ _ => rfl⟩ (.cons ⟨rfl, rfl, rfl, rfl, fun _ _ _ => rfl⟩
        .nil)))
  exact (accidents_unobservable {} hsame).2.2.2.2 5

end SocketExchange.Server
