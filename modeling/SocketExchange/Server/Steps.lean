import Mathlib.Logic.Relation
import SocketExchange.Server.ExchangeServer
import SocketExchange.Trading.BookInvariant

/-!
# What the server can do, one step at a time

Every handler of the server is a sequence of a few kinds of elementary steps:
queue a message, write to a socket, drop a session, take a line out of a
buffer, and so on.  `Act` lists what a message handler may do on behalf of the
connection it serves, with the guard each step is taken under; `Move` adds what
the input path, `accept` and the event loop do.

`turn_moves` shows that a turn of the server is a sequence of moves.  An
invariant is then checked once per kind of move, and holds not only between
events but also in the middle of every handler.
-/

namespace SocketExchange.Server

open SocketExchange.Lib
open SocketExchange.Lib.Bytes
open SocketExchange.Network
open SocketExchange.Protocol
open SocketExchange.Trading.OrderBook
open ExchangeServer

/-! ## Reading the session table -/

theorem lookup_insert (m : SessionMap) (fd fd' : Int) (session : ClientSession) :
    (m.insert fd session).lookup fd' = if fd' = fd then some session else m.lookup fd' := by
  by_cases h : fd' = fd
  · subst h
    rw [AList.lookup_insert, if_pos rfl]
  · rw [AList.lookup_insert_ne h, if_neg h]

theorem lookup_erase (m : SessionMap) (fd fd' : Int) :
    (m.erase fd).lookup fd' = if fd' = fd then none else m.lookup fd' := by
  by_cases h : fd' = fd
  · subst h
    rw [AList.lookup_erase, if_pos rfl]
  · rw [AList.lookup_erase_ne h, if_neg h]

/-- A property of every session, after one of them was written. -/
theorem forall_lookup_insert {m : SessionMap} {fd : Int} {session : ClientSession}
    {P : Int → ClientSession → Prop} (hnew : P fd session)
    (hold : ∀ fd' x, m.lookup fd' = some x → P fd' x) :
    ∀ fd' x, (m.insert fd session).lookup fd' = some x → P fd' x := by
  intro fd' x hx
  rw [lookup_insert] at hx
  split at hx
  · next heq =>
    cases hx
    exact heq ▸ hnew
  · exact hold fd' x hx

/-- The sessions left after one was erased. -/
theorem lookup_of_erase {m : SessionMap} {fd fd' : Int} {x : ClientSession}
    (h : (m.erase fd).lookup fd' = some x) : fd' ≠ fd ∧ m.lookup fd' = some x := by
  rw [lookup_erase] at h
  split at h
  · cases h
  · next hne => exact ⟨hne, h⟩

theorem connected_iff {s : ExchangeServer} {fd : Int} :
    s.connected fd = true ↔ ∃ session, s.sessions.lookup fd = some session :=
  Option.isSome_iff_exists

theorem sessionAt_of_lookup {s : ExchangeServer} {fd : Int} {session : ClientSession}
    (h : s.sessions.lookup fd = some session) : s.sessionAt fd = (s, session) := by
  simp only [sessionAt, h]

theorem drop_of_lookup_none {s : ExchangeServer} {fd : Int} (h : s.sessions.lookup fd = none)
    (reason : DropReason) : s.drop fd reason = s := by
  simp only [ExchangeServer.drop, h]

/-- The sessions after a drop. -/
theorem drop_sessions (s : ExchangeServer) (fd : Int) (reason : DropReason) (fd' : Int) :
    (s.drop fd reason).sessions.lookup fd' =
      if fd' = fd then none else s.sessions.lookup fd' := by
  unfold ExchangeServer.drop
  split
  · next h =>
    split
    · next heq => rw [heq, h]
    · rfl
  · exact lookup_erase _ _ _

/-- The sessions left after one was dropped. -/
theorem lookup_of_drop {s : ExchangeServer} {fd fd' : Int} {reason : DropReason}
    {x : ClientSession} (h : (s.drop fd reason).sessions.lookup fd' = some x) :
    fd' ≠ fd ∧ s.sessions.lookup fd' = some x := by
  rw [drop_sessions] at h
  split at h
  · cases h
  · next hne => exact ⟨hne, h⟩

/-- After a close, a session is another one, or the one that is leaving and waits
for its output to drain. -/
theorem lookup_of_beginOrderlyClose {s : ExchangeServer} {fd fd' : Int} {reason : DropReason}
    {y : ClientSession} (h : (s.beginOrderlyClose fd reason).sessions.lookup fd' = some y) :
    (fd' ≠ fd ∧ s.sessions.lookup fd' = some y) ∨
      (fd' = fd ∧ ∃ x, s.sessions.lookup fd = some x ∧ 0 < x.pendingBytes ∧
        y = { x with
          closing := true, inbuf := [], readInterest := false, writeInterest := true }) := by
  unfold beginOrderlyClose at h
  split at h
  · next hnone =>
    refine Or.inl ⟨?_, h⟩
    rintro rfl
    rw [hnone] at h
    cases h
  · next session hsession =>
    dsimp only at h
    split at h
    · obtain ⟨hne, h'⟩ := lookup_of_drop h
      simp only [observe, putSession, lookup_insert, if_neg hne] at h'
      exact Or.inl ⟨hne, h'⟩
    · next hpending =>
      have hpos : 0 < session.pendingBytes := by
        rw [Bool.not_eq_true', Bool.not_eq_false] at hpending
        exact of_decide_eq_true hpending
      simp only [observe, putSession, lookup_insert] at h
      split at h
      · next heq =>
        cases h
        exact Or.inr ⟨heq, session, hsession, hpos, rfl⟩
      · next hne => exact Or.inl ⟨hne, h⟩

/-! ## Elementary steps -/

/-- The execution was made by an order submitted earlier, and no connection has
been accepted since. -/
def Awaiting (trace : List Obs) (execution : TradeExecution) : Prop :=
  ∃ before o quantity fills after, trace = before ++ .submitted o quantity fills :: after ∧
    (∀ x ∈ after, ∀ fd, x ≠ .accepted fd) ∧ ∃ f ∈ fills, f.execution = execution

/-- A notification reports an execution, and goes to the party it names.  Other
messages are not bound to anything. -/
def Owed (trace : List Obs) (dest : Int) : Response → Prop
  | .bought instrument quantity price => ∃ e, Awaiting trace e ∧ e.buyerFd = dest ∧
      e.instrument = instrument ∧ e.quantity = quantity ∧ e.price = price
  | .sold instrument quantity price => ∃ e, Awaiting trace e ∧ e.sellerFd = dest ∧
      e.instrument = instrument ∧ e.quantity = quantity ∧ e.price = price
  | .trade instrument quantity price => ∃ e, Awaiting trace e ∧
      e.instrument = instrument ∧ e.quantity = quantity ∧ e.price = price
  | _ => True

/-- One thing a message handler does on behalf of the connection `fd`. -/
inductive Act (fd : Int) : ExchangeServer → ExchangeServer → Prop where
  | queue (s : ExchangeServer) (dest : Int) (session : ClientSession) (message : Response)
      (h : s.sessions.lookup dest = some session) (howed : Owed s.trace dest message) :
      Act fd s ((s.putSession dest (session.append message.render)).observe
        (.queued dest message))
  | write (s : ExchangeServer) (dest : Int) (session : ClientSession)
      (h : s.sessions.lookup dest = some session) :
      Act fd s (s.written dest session.fd (session.flush (s.kernel.sends session.fd)))
  /-- An orderly drop comes after the last byte has been written. -/
  | drop (s : ExchangeServer) (dest : Int) (reason : DropReason)
      (h : reason.orderly = true → ∀ session, s.sessions.lookup dest = some session →
        session.pending = []) :
      Act fd s (s.drop dest reason)
  /-- Registration with the event loop. -/
  | relist (s : ExchangeServer) (loop : EventLoop) : Act fd s { s with loop := loop }
  | leave (s : ExchangeServer) (session : ClientSession) (reason : DropReason)
      (h : s.sessions.lookup fd = some session) :
      Act fd s ((s.putSession fd { session with closing := true, inbuf := [] }).observe
        (.leaving fd reason))
  | interest (s : ExchangeServer) (session : ClientSession) (wantRead wantWrite : Bool)
      (h : s.sessions.lookup fd = some session) :
      Act fd s (s.putSession fd
        { session with readInterest := wantRead, writeInterest := wantWrite })
  | login (s : ExchangeServer) (session : ClientSession) (username : Bytes)
      (h : s.sessions.lookup fd = some session)
      (hrole : session.role = .unknown ∨ session.role = .trader)
      (hout : session.loggedIn = false) (hfree : username ∉ s.usernames) :
      Act fd s ({ s.putSession fd
          { session with role := .trader, username := username, loggedIn := true } with
        usernames := s.usernames.insert username }.observe (.loggedIn fd username))
  | subscribe (s : ExchangeServer) (session : ClientSession) (instrument : Bytes)
      (h : s.sessions.lookup fd = some session)
      (hrole : session.role = .unknown ∨ session.role = .marketData) :
      Act fd s ({ s.putSession fd { assumeMarketData session with
          subscriptions := (assumeMarketData session).subscriptions.insert instrument } with
        subscribers := addSubscriber fd s.subscribers instrument }.observe
          (.subscribed fd instrument))
  | unsubscribe (s : ExchangeServer) (session : ClientSession) (instrument : Bytes)
      (h : s.sessions.lookup fd = some session)
      (hrole : session.role = .unknown ∨ session.role = .marketData)
      (hin : instrument ∈ session.subscriptions) :
      Act fd s ({ s.putSession fd { assumeMarketData session with
          subscriptions :=
            (assumeMarketData session).subscriptions.filter (· ≠ instrument) } with
        subscribers := eraseSubscriber fd s.subscribers instrument }.observe
          (.unsubscribed fd instrument))
  | submit (s : ExchangeServer) (session : ClientSession) (cmd : ParsedCommand)
      (h : s.sessions.lookup fd = some session)
      (hrole : session.role = .unknown ∨ session.role = .trader)
      (hin : session.loggedIn = true) (hcmd : 0 < cmd.quantity) :
      Act fd s (s.submit fd cmd)
  | cancel (s : ExchangeServer) (session : ClientSession) (orderId : Int)
      (h : s.sessions.lookup fd = some session) (hin : session.loggedIn = true)
      (hok : (s.book.cancelOrder orderId fd).ok = true) :
      Act fd s ({ s with book := (s.book.cancelOrder orderId fd).book }.observe
        (.cancelled fd orderId))

/-- What a handler does on behalf of `fd`. -/
abbrev Acts (fd : Int) : ExchangeServer → ExchangeServer → Prop :=
  Relation.ReflTransGen (Act fd)

/-- Connections that come, descriptors that are closed, time that passes. -/
inductive Env : ExchangeServer → ExchangeServer → Prop where
  | accept (s : ExchangeServer) (fd : Int) (peer : Bytes) (hfd : fd ∉ s.kernel.openFds)
      (h : s.sessions.lookup fd = none) (hnonneg : 0 ≤ fd) :
      Env s (((s.openFd fd).putSession fd { fd := fd, peer := peer }).observe
        (.accepted fd))
  | refuse (s : ExchangeServer) (fd : Int) (peer : Bytes)
      (h : s.sessions.lookup fd = some { fd := fd, peer := peer }) :
      Env s (closeFd ({ s with sessions := s.sessions.erase fd }.observe (.refused fd)) fd)
  /-- Accepted, but the socket could not be made non-blocking. -/
  | bounce (s : ExchangeServer) (fd : Int) (hfd : fd ∉ s.kernel.openFds) :
      Env s (((s.openFd fd).observe (.bounced fd)).closeFd fd)
  | reap (s : ExchangeServer) : Env s s.reapClosed
  | timer (s : ExchangeServer) (resumeAt : Nat) (loop : EventLoop) :
      Env s { s with acceptResumeAt := resumeAt, loop := loop }
  | load (s : ExchangeServer) (a : Answers) : Env s (s.load a)

/-- One step taken while the connection `fd` is served. -/
inductive Serve (fd : Int) : ExchangeServer → ExchangeServer → Prop where
  | act (s : ExchangeServer) {s' : ExchangeServer} (h : Act fd s s') : Serve fd s s'
  | receive (s : ExchangeServer) (session : ClientSession) (bytes : Bytes)
      (h : s.sessions.lookup fd = some session) (hopen : session.closing = false) :
      Serve fd s (s.receive fd session bytes)
  | take (s : ExchangeServer) (session : ClientSession) (line tail : Bytes)
      (h : s.sessions.lookup fd = some session)
      (hline : splitLine session.inbuf = some (line, tail)) :
      Serve fd s ((s.putSession fd { session with inbuf := tail }).observe
        (.handling fd (stripCarriageReturn line)))
  | handled (s : ExchangeServer) (line : Bytes) :
      Serve fd s (s.observe (.handled fd line (s.lineOutcome fd)))

/-- One step of the server as a whole. -/
inductive Move : ExchangeServer → ExchangeServer → Prop where
  | serve (s : ExchangeServer) {s' : ExchangeServer} {fd : Int} (h : Serve fd s s') : Move s s'
  | env (s : ExchangeServer) {s' : ExchangeServer} (h : Env s s') : Move s s'

abbrev Envs : ExchangeServer → ExchangeServer → Prop := Relation.ReflTransGen Env

abbrev Serves (fd : Int) : ExchangeServer → ExchangeServer → Prop :=
  Relation.ReflTransGen (Serve fd)

abbrev Moves : ExchangeServer → ExchangeServer → Prop := Relation.ReflTransGen Move

theorem Acts.serves {fd : Int} {s s' : ExchangeServer} (h : Acts fd s s') :
    Serves fd s s' :=
  Relation.ReflTransGen.mono (fun _ _ hact => Serve.act _ hact) _ _ h

theorem Serves.moves {fd : Int} {s s' : ExchangeServer} (h : Serves fd s s') : Moves s s' :=
  Relation.ReflTransGen.mono (fun _ _ hserve => Move.serve _ hserve) _ _ h

theorem Envs.moves {s s' : ExchangeServer} (h : Envs s s') : Moves s s' :=
  Relation.ReflTransGen.mono (fun _ _ henv => Move.env _ henv) _ _ h

/-- **Invariant rule for handlers.** -/
theorem Acts.invariant {I : ExchangeServer → Prop} {fd : Int} {s s' : ExchangeServer}
    (h : Acts fd s s') (hstep : ∀ a b, Act fd a b → I a → I b) (hs : I s) : I s' := by
  induction h with
  | refl => exact hs
  | tail _ hact ih => exact hstep _ _ hact ih

/-- **Invariant rule for serving one connection.** -/
theorem Serves.invariant {I : ExchangeServer → Prop} {fd : Int} {s s' : ExchangeServer}
    (h : Serves fd s s') (hstep : ∀ a b, Serve fd a b → I a → I b) (hs : I s) : I s' := by
  induction h with
  | refl => exact hs
  | tail _ hserve ih => exact hstep _ _ hserve ih

/-- **Invariant rule for the server.** -/
theorem Moves.invariant {I : ExchangeServer → Prop} {s s' : ExchangeServer}
    (h : Moves s s') (hstep : ∀ a b, Move a b → I a → I b) (hs : I s) : I s' := by
  induction h with
  | refl => exact hs
  | tail _ hmove ih => exact hstep _ _ hmove ih

/-! ## Descriptors -/

/-- Sessions are stored under their own descriptors, which are open and are not
waiting to be closed. -/
structure Base (s : ExchangeServer) : Prop where
  own : ∀ fd session, s.sessions.lookup fd = some session → session.fd = fd
  nonneg : ∀ fd session, s.sessions.lookup fd = some session → 0 ≤ fd
  isOpen : ∀ fd session, s.sessions.lookup fd = some session → fd ∈ s.kernel.openFds
  closedOpen : ∀ fd ∈ s.closedFds, fd ∈ s.kernel.openFds
  closedGone : ∀ fd ∈ s.closedFds, s.sessions.lookup fd = none
  closedNodup : s.closedFds.Nodup

/-- A number that is not open has no session. -/
theorem Base.lookup_none {s : ExchangeServer} (hb : Base s) {fd : Int}
    (hfd : fd ∉ s.kernel.openFds) : s.sessions.lookup fd = none := by
  cases h : s.sessions.lookup fd with
  | none => rfl
  | some session => exact absurd (hb.isOpen fd session h) hfd

/-- So a session emplaced for a number that `accept` has just returned is new. -/
theorem Base.emplace {s : ExchangeServer} (hb : Base s) {fd : Int}
    (hfd : fd ∉ s.kernel.openFds) (session : ClientSession) :
    (s.openFd fd).emplace fd session = (s.openFd fd).putSession fd session := by
  have hnone : (s.openFd fd).sessions.lookup fd = none := hb.lookup_none hfd
  simp [ExchangeServer.emplace, connected, hnone]

/-- Rewriting a session in place. -/
theorem Base.put {s s' : ExchangeServer} (hb : Base s) {fd : Int}
    {session session' : ClientSession} (h : s.sessions.lookup fd = some session)
    (hs : s'.sessions = s.sessions.insert fd session') (hfd : session'.fd = session.fd)
    (hc : s'.closedFds = s.closedFds) (ho : s'.kernel.openFds = s.kernel.openFds) :
    Base s' where
  own := by
    rw [hs]
    exact forall_lookup_insert (hfd.trans (hb.own fd session h)) hb.own
  nonneg := by
    rw [hs]
    exact forall_lookup_insert (hb.nonneg fd session h) hb.nonneg
  isOpen := by
    rw [hs, ho]
    exact forall_lookup_insert (hb.isOpen fd session h) hb.isOpen
  closedOpen := by
    rw [hc, ho]
    exact hb.closedOpen
  closedGone := by
    intro fd' hfd'
    rw [hc] at hfd'
    rw [hs, lookup_insert]
    split
    · next heq =>
      rw [← heq, hb.closedGone fd' hfd'] at h
      cases h
    · exact hb.closedGone fd' hfd'
  closedNodup := by
    rw [hc]
    exact hb.closedNodup

/-- Steps that touch neither sessions nor descriptors. -/
private theorem Base.same {s s' : ExchangeServer} (hb : Base s)
    (hs : s'.sessions = s.sessions) (hc : s'.closedFds = s.closedFds)
    (ho : s'.kernel.openFds = s.kernel.openFds) : Base s' where
  own := by
    rw [hs]
    exact hb.own
  nonneg := by
    rw [hs]
    exact hb.nonneg
  isOpen := by
    rw [hs, ho]
    exact hb.isOpen
  closedOpen := by
    rw [hc, ho]
    exact hb.closedOpen
  closedGone := by
    rw [hc, hs]
    exact hb.closedGone
  closedNodup := by
    rw [hc]
    exact hb.closedNodup

private theorem Base.drop {s : ExchangeServer} (hb : Base s) (fd : Int)
    (reason : DropReason) : Base (s.drop fd reason) := by
  cases h : s.sessions.lookup fd with
  | none =>
      rw [drop_of_lookup_none h]
      exact hb
  | some session =>
      have hclosed : (s.drop fd reason).closedFds = s.closedFds ++ [fd] := by
        simp only [ExchangeServer.drop, h]
      have hopen : (s.drop fd reason).kernel = s.kernel := by
        simp only [ExchangeServer.drop, h]
      refine ⟨fun fd' x hx => hb.own fd' x (lookup_of_drop hx).2,
        fun fd' x hx => hb.nonneg fd' x (lookup_of_drop hx).2, ?_, ?_, ?_, ?_⟩
      · intro fd' x hx
        rw [hopen]
        exact hb.isOpen fd' x (lookup_of_drop hx).2
      · intro fd' hfd'
        rw [hopen]
        rw [hclosed, List.mem_append, List.mem_singleton] at hfd'
        rcases hfd' with hfd' | rfl
        · exact hb.closedOpen fd' hfd'
        · exact hb.isOpen _ session h
      · intro fd' hfd'
        rw [drop_sessions]
        rw [hclosed, List.mem_append, List.mem_singleton] at hfd'
        split
        · rfl
        · next hne => exact hb.closedGone fd' (hfd'.resolve_right hne)
      · rw [hclosed]
        refine List.Nodup.append hb.closedNodup (List.nodup_singleton fd) ?_
        rw [List.disjoint_singleton]
        intro hmem
        rw [hb.closedGone fd hmem] at h
        cases h

theorem assumeMarketData_fd (session : ClientSession) :
    (assumeMarketData session).fd = session.fd := by
  unfold assumeMarketData
  split <;> rfl

theorem Act.base {fd : Int} {s s' : ExchangeServer} (h : Act fd s s') (hb : Base s) :
    Base s' := by
  cases h with
  | queue dest session message h howed => exact hb.put h rfl rfl rfl rfl
  | write dest session h =>
      exact hb.put h rfl (fd_of_client (flush_client _ _)) rfl rfl
  | drop dest reason h => exact hb.drop dest reason
  | relist loop => exact hb.same rfl rfl rfl
  | leave session reason h => exact hb.put h rfl rfl rfl rfl
  | interest session wantRead wantWrite h => exact hb.put h rfl rfl rfl rfl
  | login session username h hrole hout hfree => exact hb.put h rfl rfl rfl rfl
  | subscribe session instrument h hrole =>
      exact hb.put h rfl (assumeMarketData_fd session) rfl rfl
  | unsubscribe session instrument h hrole hin =>
      exact hb.put h rfl (assumeMarketData_fd session) rfl rfl
  | submit session cmd h hrole hin hcmd => exact hb.same rfl rfl rfl
  | cancel session orderId h hin hok => exact hb.same rfl rfl rfl

theorem Acts.base {fd : Int} {s s' : ExchangeServer} (h : Acts fd s s') (hb : Base s) :
    Base s' :=
  h.invariant (fun _ _ hact hb => hact.base hb) hb

/-- Closing a list of descriptors changes the kernel's table and the trace, and nothing
else. -/
theorem run_closeFd (fds : List Int) (s : ExchangeServer) :
    Loop.run closeFd s fds =
      { s with
        kernel := { s.kernel with
          openFds := s.kernel.openFds.filter (fun fd => decide (fd ∉ fds)) }
        trace := s.trace ++ fds.map Obs.closed } := by
  induction fds generalizing s with
  | nil => simp
  | cons fd fds ih =>
      have hopen : (s.kernel.openFds.filter (· ≠ fd)).filter (fun x => decide (x ∉ fds)) =
          s.kernel.openFds.filter (fun x => decide (x ∉ fd :: fds)) := by
        rw [List.filter_filter]
        refine List.filter_congr fun x _ => ?_
        by_cases hx : x = fd
        · simp [hx]
        · simp [hx]
      rw [Loop.run_cons, ih]
      simp only [closeFd, observe, hopen, List.map_cons, List.append_assoc,
        List.singleton_append]

theorem reapClosed_eq (s : ExchangeServer) :
    s.reapClosed =
      { s with
        kernel := { s.kernel with
          openFds := s.kernel.openFds.filter (fun fd => decide (fd ∉ s.closedFds)) }
        trace := s.trace ++ s.closedFds.map Obs.closed
        closedFds := [] } := by
  rw [reapClosed, run_closeFd]

theorem reapClosed_trace (s : ExchangeServer) :
    s.reapClosed.trace = s.trace ++ s.closedFds.map Obs.closed := by
  rw [reapClosed_eq]

theorem mem_reapClosed_open (s : ExchangeServer) (fd : Int) :
    fd ∈ s.reapClosed.kernel.openFds ↔ fd ∈ s.kernel.openFds ∧ fd ∉ s.closedFds := by
  rw [reapClosed_eq, List.mem_filter, decide_eq_true_iff]

/-- Reaping closes descriptors and nothing else. -/
theorem reapClosed_tables (s : ExchangeServer) :
    s.reapClosed.sessions = s.sessions ∧ s.reapClosed.subscribers = s.subscribers ∧
      s.reapClosed.usernames = s.usernames ∧ s.reapClosed.book = s.book := by
  rw [reapClosed_eq]
  exact ⟨rfl, rfl, rfl, rfl⟩

private theorem Base.reap {s : ExchangeServer} (hb : Base s) : Base s.reapClosed := by
  have hsessions := (reapClosed_tables s).1
  refine ⟨?_, ?_, ?_, by simp [reapClosed], by simp [reapClosed], by simp [reapClosed]⟩
  · intro fd session h
    rw [hsessions] at h
    exact hb.own fd session h
  · intro fd session h
    rw [hsessions] at h
    exact hb.nonneg fd session h
  · intro fd session h
    rw [hsessions] at h
    refine (mem_reapClosed_open s fd).mpr ⟨hb.isOpen fd session h, ?_⟩
    intro hmem
    rw [hb.closedGone fd hmem] at h
    cases h

private theorem Base.accept {s : ExchangeServer} (hb : Base s) {fd : Int} (peer : Bytes)
    (hfd : fd ∉ s.kernel.openFds) (hnonneg : 0 ≤ fd) :
    Base (((s.openFd fd).putSession fd { fd := fd, peer := peer }).observe
      (.accepted fd)) where
  own := forall_lookup_insert rfl hb.own
  nonneg := forall_lookup_insert hnonneg hb.nonneg
  isOpen := forall_lookup_insert List.mem_cons_self
    fun fd' x hx => List.mem_cons_of_mem _ (hb.isOpen fd' x hx)
  closedOpen := fun fd' hfd' => List.mem_cons_of_mem _ (hb.closedOpen fd' hfd')
  closedGone := by
    intro fd' hfd'
    simp only [observe, putSession, openFd] at hfd' ⊢
    rw [lookup_insert]
    split
    · next heq => exact absurd (heq ▸ hb.closedOpen fd' hfd') hfd
    · exact hb.closedGone fd' hfd'
  closedNodup := hb.closedNodup

private theorem Base.refuse {s : ExchangeServer} (hb : Base s) {fd : Int}
    {session : ClientSession} (h : s.sessions.lookup fd = some session) :
    Base (closeFd ({ s with sessions := s.sessions.erase fd }.observe (.refused fd)) fd) := by
  have hne : ∀ fd' ∈ s.closedFds, fd' ≠ fd := by
    rintro fd' hfd' rfl
    rw [hb.closedGone fd' hfd'] at h
    cases h
  refine ⟨fun fd' x hx => hb.own fd' x (lookup_of_erase hx).2,
    fun fd' x hx => hb.nonneg fd' x (lookup_of_erase hx).2, ?_, ?_, ?_, hb.closedNodup⟩
  · intro fd' x hx
    obtain ⟨hfd', hx⟩ := lookup_of_erase hx
    simp only [closeFd, observe]
    rw [List.mem_filter]
    exact ⟨hb.isOpen fd' x hx, by simpa using hfd'⟩
  · intro fd' hfd'
    simp only [closeFd, observe] at hfd' ⊢
    rw [List.mem_filter]
    exact ⟨hb.closedOpen fd' hfd', by simpa using hne fd' hfd'⟩
  · intro fd' hfd'
    simp only [closeFd, observe] at hfd' ⊢
    rw [lookup_erase, if_neg (hne fd' hfd')]
    exact hb.closedGone fd' hfd'

private theorem Base.bounce {s : ExchangeServer} (hb : Base s) {fd : Int}
    (hfd : fd ∉ s.kernel.openFds) :
    Base (((s.openFd fd).observe (.bounced fd)).closeFd fd) := by
  refine hb.same rfl rfl ?_
  simp only [closeFd, observe, openFd, ne_eq, decide_not]
  rw [List.filter_cons_of_neg (by simp), List.filter_eq_self]
  intro x hx
  simp only [Bool.not_eq_eq_eq_not, Bool.not_true, decide_eq_false_iff_not]
  rintro rfl
  exact hfd hx

theorem Env.base {s s' : ExchangeServer} (h : Env s s') (hb : Base s) : Base s' := by
  cases h with
  | accept fd peer hfd h hnonneg => exact hb.accept peer hfd hnonneg
  | refuse fd peer h => exact hb.refuse h
  | bounce fd hfd => exact hb.bounce hfd
  | reap => exact hb.reap
  | timer resumeAt loop => exact hb.same rfl rfl rfl
  | load a => exact hb.same rfl rfl rfl

theorem Serve.base {fd : Int} {s s' : ExchangeServer} (h : Serve fd s s') (hb : Base s) :
    Base s' := by
  cases h with
  | act h => exact h.base hb
  | receive session bytes h hopen => exact hb.put h rfl rfl rfl rfl
  | take session line tail h hline => exact hb.put h rfl rfl rfl rfl
  | handled line => exact hb.same rfl rfl rfl

theorem Serves.base {fd : Int} {s s' : ExchangeServer} (h : Serves fd s s') (hb : Base s) :
    Base s' :=
  h.invariant (fun _ _ hserve hb => hserve.base hb) hb

theorem Move.base {s s' : ExchangeServer} (h : Move s s') (hb : Base s) : Base s' := by
  cases h with
  | serve h => exact h.base hb
  | env h => exact h.base hb

theorem Moves.base {s s' : ExchangeServer} (h : Moves s s') (hb : Base s) : Base s' :=
  h.invariant (fun _ _ hmove hb => hmove.base hb) hb

/-! ## The trace only grows -/

theorem drop_trace {s : ExchangeServer} {fd : Int} {session : ClientSession}
    (h : s.sessions.lookup fd = some session) (reason : DropReason) :
    (s.drop fd reason).trace = s.trace ++ [.dropped fd reason] := by
  simp only [ExchangeServer.drop, h]

/-- A handler accepts nobody. -/
theorem Act.trace {fd : Int} {s s' : ExchangeServer} (hact : Act fd s s') :
    ∃ new, s'.trace = s.trace ++ new ∧ ∀ x ∈ new, ∀ fd', x ≠ .accepted fd' := by
  cases hact with
  | drop dest reason h =>
      cases hdest : s.sessions.lookup dest with
      | none => exact ⟨[], by rw [drop_of_lookup_none hdest, List.append_nil], by simp⟩
      | some session => exact ⟨_, drop_trace hdest reason, by simp⟩
  | relist loop => exact ⟨[], (List.append_nil _).symm, by simp⟩
  | interest session wantRead wantWrite h => exact ⟨[], (List.append_nil _).symm, by simp⟩
  | queue | write | leave | login | subscribe | unsubscribe | submit | cancel =>
      exact ⟨_, rfl, by simp⟩

theorem Awaiting.append {trace new : List Obs} {e : TradeExecution} (h : Awaiting trace e)
    (hnew : ∀ x ∈ new, ∀ fd, x ≠ .accepted fd) : Awaiting (trace ++ new) e := by
  obtain ⟨before, o, quantity, fills, after, rfl, hafter, hf⟩ := h
  refine ⟨before, o, quantity, fills, after ++ new, by simp, ?_, hf⟩
  intro x hx
  rcases List.mem_append.mp hx with hx | hx
  · exact hafter x hx
  · exact hnew x hx

theorem Acts.awaiting {fd : Int} {s s' : ExchangeServer} {e : TradeExecution}
    (hacts : Acts fd s s') (h : Awaiting s.trace e) : Awaiting s'.trace e := by
  refine hacts.invariant (I := fun s => Awaiting s.trace e) ?_ h
  intro a b hact ha
  obtain ⟨new, htrace, hnew⟩ := hact.trace
  rw [htrace]
  exact ha.append hnew

theorem refuse_trace (s : ExchangeServer) (fd : Int) :
    (closeFd ({ s with sessions := s.sessions.erase fd }.observe (.refused fd)) fd).trace =
      s.trace ++ [.refused fd, .closed fd] := by
  simp [closeFd, observe]

theorem bounce_trace (s : ExchangeServer) (fd : Int) :
    (((s.openFd fd).observe (.bounced fd)).closeFd fd).trace =
      s.trace ++ [.bounced fd, .closed fd] := by
  simp [closeFd, observe, openFd]

theorem Env.trace {s s' : ExchangeServer} (henv : Env s s') :
    ∃ new, s'.trace = s.trace ++ new := by
  cases henv with
  | accept => exact ⟨_, rfl⟩
  | refuse fd peer h => exact ⟨_, refuse_trace s fd⟩
  | bounce fd hfd => exact ⟨_, bounce_trace s fd⟩
  | reap => exact ⟨_, reapClosed_trace s⟩
  | timer resumeAt loop => exact ⟨[], (List.append_nil _).symm⟩
  | load a => exact ⟨[], (List.append_nil _).symm⟩

theorem Move.trace {s s' : ExchangeServer} (hmove : Move s s') :
    ∃ new, s'.trace = s.trace ++ new := by
  cases hmove with
  | serve hserve =>
      cases hserve with
      | act hact =>
          obtain ⟨new, htrace, _⟩ := hact.trace
          exact ⟨new, htrace⟩
      | receive | take | handled => exact ⟨_, rfl⟩
  | env henv => exact henv.trace

theorem base_start (c : Setup) :
    Base (ExchangeServer.start c.backend c.listenerFd c.openFds c.clock) := by
  refine ⟨?_, ?_, ?_, ?_, ?_, List.nodup_nil⟩
  · intro fd session h
    simp [ExchangeServer.start] at h
  · intro fd session h
    simp [ExchangeServer.start] at h
  · intro fd session h
    simp [ExchangeServer.start] at h
  · intro fd h
    cases h
  · intro fd h
    cases h

end SocketExchange.Server
