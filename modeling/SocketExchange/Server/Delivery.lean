import SocketExchange.Lib.Channels
import SocketExchange.Lib.Log
import SocketExchange.Server.Registry

/-!
# Which executions reach the clients

`handle_order` changes the book for all executions of an order at once and then
publishes them one by one.  Each message is written to a socket as far as the
socket takes it, and a failed write drops the session in the middle of the loop.

Sockets do not see each other: a session and the results of its next `send` calls
form a channel, and the server's sends are posts to independent channels
(`sendTo_channels`).  That turns the question who is still connected when the turn
of an execution comes into one about the state before the order, one socket at a
time.
-/

namespace SocketExchange.Server

open SocketExchange.Lib
open SocketExchange.Lib.Bytes
open SocketExchange.Network
open SocketExchange.Protocol
open SocketExchange.Trading.OrderBook
open ExchangeServer

/-! ## Sockets -/

/-- A session and what its next `send` calls will return. -/
structure Socket where
  session : ClientSession
  script : List SendOutcome

/-- A message is appended and flushed; the socket is lost if that drops the
session. -/
def Socket.send (x : Socket) (message : Response) : Option Socket :=
  let f := (x.session.append message.render).flush x.script
  match f.outcome with
  | .drop _ => none
  | .reregister _ _ => some ⟨f.session, f.script⟩
  | .keep => some ⟨f.session, f.script⟩

theorem Socket.send_client {x y : Socket} {message : Response}
    (h : x.send message = some y) : y.session.client = x.session.client := by
  have hclient := flush_client (x.session.append message.render) x.script
  unfold Socket.send at h
  dsimp only at h
  split at h
  · cases h
  · cases h
    exact hclient.trans (append_client _ _)
  · cases h
    exact hclient.trans (append_client _ _)

/-- A message that was queued, with its destination. -/
def Obs.queuedPair : Obs → Option (Int × Response)
  | .queued dest message => some (dest, message)
  | _ => none

namespace ExchangeServer

/-- The sockets of the connected sessions. -/
def channels (s : ExchangeServer) (fd : Int) : Option Socket :=
  (s.sessions.lookup fd).map fun session => ⟨session, s.kernel.sends fd⟩

/-- The messages queued to clients since `s`. -/
def queuedSince (s s' : ExchangeServer) : List (Int × Response) :=
  (s'.trace.drop s.trace.length).filterMap Obs.queuedPair

/-- Messages sent one after the other. -/
def sendEach (s : ExchangeServer) (sends : List (Int × Response)) : ExchangeServer :=
  Loop.run (fun s p => sendTo s p.1 p.2) s sends

end ExchangeServer

theorem connected_eq_channels (s : ExchangeServer) (fd : Int) :
    s.connected fd = (s.channels fd).isSome := by
  simp [connected, channels]

theorem queuedSince_of_trace {s s' : ExchangeServer} {new : List Obs}
    (h : s'.trace = s.trace ++ new) : queuedSince s s' = new.filterMap Obs.queuedPair := by
  rw [queuedSince, h, List.drop_left]

theorem queuedSince_self (s : ExchangeServer) : queuedSince s s = [] :=
  queuedSince_of_trace (List.append_nil _).symm

theorem queuedSince_trans {s t u : ExchangeServer} (h : s.trace <+: t.trace)
    (h' : t.trace <+: u.trace) :
    queuedSince s u = queuedSince s t ++ queuedSince t u := by
  obtain ⟨new, hnew⟩ := h
  obtain ⟨new', hnew'⟩ := h'
  have hall : u.trace = s.trace ++ (new ++ new') := by
    rw [← hnew', ← hnew, List.append_assoc]
  rw [queuedSince_of_trace hall, queuedSince_of_trace hnew.symm, queuedSince_of_trace hnew'.symm,
    List.filterMap_append]

/-! ## A send is a post -/

theorem drop_kernel (s : ExchangeServer) (fd : Int) (reason : DropReason) :
    (s.drop fd reason).kernel = s.kernel := by
  unfold ExchangeServer.drop
  split <;> rfl

/-- A client without subscriptions leaves the table of subscribers alone. -/
theorem drop_subscribers {s : ExchangeServer} {fd : Int}
    (h : ∀ session, s.sessions.lookup fd = some session → session.subscriptions = [])
    (reason : DropReason) : (s.drop fd reason).subscribers = s.subscribers := by
  unfold ExchangeServer.drop
  split
  · rfl
  · next session hlookup =>
    have hwalk : s.kernel.order.walk session.subscriptions = [] := by
      rw [h session hlookup]
      exact (s.kernel.order.walk_perm []).eq_nil
    simp only [hwalk, Loop.run_nil]

/-- The server between the writes of a send and what follows from them. -/
private def afterSend (s : ExchangeServer) (dest : Int) (session : ClientSession)
    (message : Response) : ExchangeServer :=
  ((s.putSession dest (session.append message.render)).observe (.queued dest message)).written
    dest dest ((session.append message.render).flush (s.kernel.sends dest))

section Send

variable {s : ExchangeServer}

/-- A send drops the session, or leaves the socket behind that its flush gives. -/
private theorem sendTo_shape (hb : Base s) {dest : Int} {session : ClientSession}
    (h : s.sessions.lookup dest = some session) (message : Response) :
    (Socket.send ⟨session, s.kernel.sends dest⟩ message = none ∧
      ∃ reason, s.sendTo dest message = (afterSend s dest session message).drop dest reason) ∨
    (Socket.send ⟨session, s.kernel.sends dest⟩ message =
        some ⟨((session.append message.render).flush (s.kernel.sends dest)).session,
          ((session.append message.render).flush (s.kernel.sends dest)).script⟩ ∧
      ∃ loop, s.sendTo dest message =
        { afterSend s dest session message with loop := loop }) := by
  obtain rfl : session.fd = dest := hb.own dest session h
  have hsend : s.sendTo session.fd message =
      match ((session.append message.render).flush (s.kernel.sends session.fd)).outcome with
      | .drop reason => (afterSend s session.fd session message).drop session.fd reason
      | .reregister wantRead wantWrite =>
          { afterSend s session.fd session message with
            loop := ((afterSend s session.fd session message).loop.update session.fd
              wantRead wantWrite).1 }
      | .keep => afterSend s session.fd session message := by
    simp only [sendTo, h]
    rfl
  rw [hsend]
  unfold Socket.send
  dsimp only
  split
  · next reason _ => exact Or.inl ⟨rfl, reason, rfl⟩
  · exact Or.inr ⟨rfl, _, rfl⟩
  · exact Or.inr ⟨rfl, (afterSend s session.fd session message).loop, rfl⟩

private theorem afterSend_lookup (dest : Int) (session : ClientSession) (message : Response)
    (fd : Int) :
    (afterSend s dest session message).sessions.lookup fd =
      if fd = dest then
        some ((session.append message.render).flush (s.kernel.sends dest)).session
      else s.sessions.lookup fd := by
  simp only [afterSend, written, observe, putSession, lookup_insert]
  split <;> rfl

private theorem afterSend_sends (dest : Int) (session : ClientSession) (message : Response)
    (fd : Int) :
    (afterSend s dest session message).kernel.sends fd =
      if fd = dest then
        ((session.append message.render).flush (s.kernel.sends dest)).script
      else s.kernel.sends fd := rfl

private theorem afterSend_trace (dest : Int) (session : ClientSession) (message : Response) :
    (afterSend s dest session message).trace = s.trace ++ [.queued dest message,
      .sent dest ((session.append message.render).flush (s.kernel.sends dest)).sent] := by
  simp [afterSend, written, observe, putSession]

variable (hb : Base s) (dest : Int) (message : Response)

include hb

/-- **Sends do not interfere.** -/
theorem sendTo_channels :
    (s.sendTo dest message).channels =
      Channels.post Socket.send s.channels (dest, message) := by
  funext fd
  rw [Channels.post_apply]
  cases h : s.sessions.lookup dest with
  | none =>
      have hsame : s.sendTo dest message = s := by simp only [sendTo, h]
      rw [hsame]
      split
      · next heq =>
        obtain rfl : fd = dest := heq
        simp [channels, h]
      · rfl
  | some session =>
      have hdest : s.channels dest = some ⟨session, s.kernel.sends dest⟩ := by
        simp [channels, h]
      rw [hdest, Option.bind_some]
      rcases sendTo_shape hb h message with ⟨hlost, reason, hsend⟩ | ⟨hkept, loop, hsend⟩
      · rw [hsend, hlost, channels, drop_sessions, drop_kernel]
        split
        · rfl
        · next hne =>
          rw [afterSend_lookup, afterSend_sends, if_neg hne, if_neg hne]
          rfl
      · rw [hsend, hkept, channels]
        dsimp only
        rw [afterSend_lookup, afterSend_sends]
        split
        · rfl
        · rfl

/-- A message is queued if the session is connected, and once. -/
theorem sendTo_queued : s.trace <+: (s.sendTo dest message).trace ∧
    queuedSince s (s.sendTo dest message) =
      if s.connected dest then [(dest, message)] else [] := by
  cases h : s.sessions.lookup dest with
  | none =>
      have hsame : s.sendTo dest message = s := by simp only [sendTo, h]
      rw [hsame, queuedSince_self]
      exact ⟨List.prefix_rfl, by simp [connected, h]⟩
  | some session =>
      rw [if_pos (connected_iff.mpr ⟨session, h⟩)]
      -- after the message itself come the bytes written, and perhaps the drop
      have htrace : ∃ rest, (s.sendTo dest message).trace =
          s.trace ++ .queued dest message :: rest ∧ rest.filterMap Obs.queuedPair = [] := by
        rcases sendTo_shape hb h message with ⟨_, reason, hsend⟩ | ⟨_, loop, hsend⟩
        · have hlookup := afterSend_lookup (s := s) dest session message dest
          rw [if_pos rfl] at hlookup
          rw [hsend, drop_trace hlookup, afterSend_trace, List.append_assoc]
          exact ⟨_, rfl, rfl⟩
        · rw [hsend]
          exact ⟨_, afterSend_trace dest session message, rfl⟩
      obtain ⟨rest, htrace, hrest⟩ := htrace
      refine ⟨⟨_, htrace.symm⟩, ?_⟩
      rw [queuedSince_of_trace htrace, List.filterMap_cons, hrest]
      rfl

theorem sendTo_order : (s.sendTo dest message).kernel.order = s.kernel.order := by
  cases h : s.sessions.lookup dest with
  | none => simp only [sendTo, h]
  | some session =>
      rcases sendTo_shape hb h message with ⟨_, reason, hsend⟩ | ⟨_, loop, hsend⟩
      · rw [hsend, drop_kernel]
        rfl
      · rw [hsend]
        rfl

/-- Sending to a client without subscriptions. -/
theorem sendTo_subscribers
    (hnone : ∀ session, s.sessions.lookup dest = some session → session.subscriptions = []) :
    (s.sendTo dest message).subscribers = s.subscribers := by
  cases h : s.sessions.lookup dest with
  | none => simp only [sendTo, h]
  | some session =>
      rcases sendTo_shape hb h message with ⟨_, reason, hsend⟩ | ⟨_, loop, hsend⟩
      · rw [hsend, drop_subscribers]
        · rfl
        · intro x hx
          rw [afterSend_lookup, if_pos rfl] at hx
          cases hx
          rw [subscriptions_of_client (flush_client _ _)]
          exact hnone session h
      · rw [hsend]
        rfl

/-- A send changes a table only by dropping its receiver. -/
theorem sendTo_tables (hkept : (s.sendTo dest message).connected dest = true) :
    (s.sendTo dest message).book = s.book ∧ (s.sendTo dest message).usernames = s.usernames ∧
      (s.sendTo dest message).subscribers = s.subscribers := by
  cases h : s.sessions.lookup dest with
  | none =>
      rw [show s.sendTo dest message = s by simp only [sendTo, h]]
      exact ⟨rfl, rfl, rfl⟩
  | some session =>
      rcases sendTo_shape hb h message with ⟨_, reason, hsend⟩ | ⟨_, loop, hsend⟩
      · rw [hsend, connected, drop_sessions, if_pos rfl] at hkept
        cases hkept
      · rw [hsend]
        exact ⟨rfl, rfl, rfl⟩

/-- The sessions that are left have changed in their output only. -/
theorem sendTo_client {fd : Int} {y : ClientSession}
    (h : (s.sendTo dest message).sessions.lookup fd = some y) :
    ∃ x, s.sessions.lookup fd = some x ∧ y.client = x.client := by
  have hchannel : (s.sendTo dest message).channels fd =
      some ⟨y, (s.sendTo dest message).kernel.sends fd⟩ := by
    simp [channels, h]
  rw [sendTo_channels hb, Channels.post_apply] at hchannel
  split at hchannel
  · next heq =>
    have heq' : fd = dest := heq
    obtain ⟨x, hx, hsend⟩ := Option.bind_eq_some_iff.mp hchannel
    obtain ⟨session, hsession, rfl⟩ := Option.map_eq_some_iff.mp hx
    exact ⟨session, heq' ▸ hsession, Socket.send_client hsend⟩
  · obtain ⟨session, hsession, hsame⟩ := Option.map_eq_some_iff.mp hchannel
    injection hsame with hsame
    exact ⟨session, hsession, by rw [hsame]⟩

end Send

/-! ## Publishing -/

namespace ExchangeServer

/-- The notices to the two parties of an execution. -/
def partyNotices (execution : TradeExecution) : List (Int × Response) :=
  [(execution.buyerFd, .bought execution.instrument execution.quantity execution.price),
    (execution.sellerFd, .sold execution.instrument execution.quantity execution.price)]

/-- The notices to the subscribers of the instrument. -/
def tradeNotices (s : ExchangeServer) (execution : TradeExecution) : List (Int × Response) :=
  (s.kernel.order.walk (subscribersOf s.subscribers execution.instrument)).map fun fd =>
    (fd, .trade execution.instrument execution.quantity execution.price)

/-- What is owed when the turn of an execution comes: BOUGHT to the buyer and SOLD
to the seller if they are connected, and TRADE to every subscriber. -/
def owed (s : ExchangeServer) (execution : TradeExecution) : List (Int × Response) :=
  (partyNotices execution).filter (fun p => s.connected p.1) ++ s.tradeNotices execution

/-- What is owed for a list of executions, each when its turn comes. -/
def owedFrom : List TradeExecution → ExchangeServer → List (Int × Response)
  | [], _ => []
  | execution :: executions, s =>
      s.owed execution ++ owedFrom executions (s.publish execution)

end ExchangeServer

/-- Parties are traders, and traders have no subscriptions. -/
def Unsubscribed (s : ExchangeServer) (e : TradeExecution) : Prop :=
  ∀ fd, fd = e.buyerFd ∨ fd = e.sellerFd → ∀ session, s.sessions.lookup fd = some session →
    session.subscriptions = []

/-- A state while the executions of an order given in `o` are published: whoever is
left is the client it was then. -/
structure Ready (o : ExchangeServer) (es : List TradeExecution) (s : ExchangeServer) :
    Prop where
  base : Base s
  registry : Registry s
  client : ∀ fd y, s.sessions.lookup fd = some y →
    ∃ x, o.sessions.lookup fd = some x ∧ y.client = x.client
  parties : ∀ e ∈ es, Unsubscribed o e

section Publish

variable {o : ExchangeServer} {es : List TradeExecution} {s : ExchangeServer}
  (hr : Ready o es s)

include hr

theorem Ready.sendTo (dest : Int) (message : Response) :
    Ready o es (s.sendTo dest message) where
  base := sendTo_base hr.base dest message
  registry := sendTo_registry hr.base hr.registry dest message
  client := by
    intro fd z hz
    obtain ⟨y, hy, hclient⟩ := sendTo_client hr.base dest message hz
    obtain ⟨x, hx, hclient'⟩ := hr.client fd y hy
    exact ⟨x, hx, hclient.trans hclient'⟩
  parties := hr.parties

theorem Ready.unsubscribed {e : TradeExecution} (he : e ∈ es) : Unsubscribed s e := by
  intro fd hfd y hy
  obtain ⟨x, hx, hclient⟩ := hr.client fd y hy
  rw [subscriptions_of_client hclient]
  exact hr.parties e he fd hfd x hx

/-- **Sending is posting.** -/
theorem sendEach_spec (sends : List (Int × Response)) :
    Ready o es (s.sendEach sends) ∧
      (s.sendEach sends).channels = Loop.run (Channels.post Socket.send) s.channels sends ∧
      s.trace <+: (s.sendEach sends).trace ∧
      queuedSince s (s.sendEach sends) = Channels.taken Socket.send s.channels sends := by
  induction sends generalizing s with
  | nil => exact ⟨hr, rfl, List.prefix_rfl, queuedSince_self s⟩
  | cons p sends ih =>
      obtain ⟨hgrows, hqueued⟩ := sendTo_queued hr.base p.1 p.2
      obtain ⟨hready, hchannels, hgrows', hqueued'⟩ := ih (hr.sendTo p.1 p.2)
      have hstep : s.sendEach (p :: sends) = (s.sendTo p.1 p.2).sendEach sends := rfl
      rw [hstep]
      rw [sendTo_channels hr.base] at hchannels hqueued'
      refine ⟨hready, hchannels, hgrows.trans hgrows', ?_⟩
      rw [queuedSince_trans hgrows hgrows', hqueued, hqueued', connected_eq_channels]
      rfl

/-- Publishing is sending: the drops on the way do not change who is
subscribed. -/
theorem publish_eq_sendEach {e : TradeExecution} (he : e ∈ es) :
    s.publish e = s.sendEach (partyNotices e ++ s.tradeNotices e) := by
  set s₁ := s.sendTo e.buyerFd (.bought e.instrument e.quantity e.price) with hs₁
  set s₂ := s₁.sendTo e.sellerFd (.sold e.instrument e.quantity e.price) with hs₂
  have hr₁ : Ready o es s₁ := hr.sendTo _ _
  have hsubscribers : s₂.subscribers = s.subscribers := by
    rw [hs₂, sendTo_subscribers hr₁.base _ _ (hr₁.unsubscribed he _ (Or.inr rfl)), hs₁,
      sendTo_subscribers hr.base _ _ (hr.unsubscribed he _ (Or.inl rfl))]
  have horder : s₂.kernel.order = s.kernel.order := by
    rw [hs₂, sendTo_order hr₁.base, hs₁, sendTo_order hr.base]
  have hpublish : s.publish e = s₂.sendEach (s₂.tradeNotices e) := by
    unfold publish tradeNotices sendEach subscribersOf
    dsimp only
    rw [← hs₁, ← hs₂]
    cases h : s₂.subscribers.lookup e.instrument with
    | none =>
        have hwalk : s₂.kernel.order.walk ([] : List Int) = [] :=
          (s₂.kernel.order.walk_perm []).eq_nil
        simp [hwalk]
    | some targets => simp [Loop.run, List.foldl_map]
  have hnotices : s₂.tradeNotices e = s.tradeNotices e := by
    rw [tradeNotices, tradeNotices, hsubscribers, horder]
  rw [hpublish, hnotices]
  rfl

/-- Subscribers are connected, and are not parties. -/
private theorem mem_tradeNotices {e : TradeExecution} (he : e ∈ es) {p : Int × Response}
    (hp : p ∈ s.tradeNotices e) :
    (s.channels p.1).isSome = true ∧ p.1 ≠ e.buyerFd ∧ p.1 ≠ e.sellerFd := by
  obtain ⟨fd, hfd, rfl⟩ := List.mem_map.mp hp
  rw [HashOrder.mem_walk] at hfd
  obtain ⟨session, hsession, hmem⟩ := (hr.registry.subscriber_iff fd e.instrument).mp hfd
  have hnot : ¬ (fd = e.buyerFd ∨ fd = e.sellerFd) := by
    intro hparty
    rw [hr.unsubscribed he fd hparty session hsession] at hmem
    cases hmem
  rw [not_or] at hnot
  exact ⟨by simp [channels, hsession], hnot⟩

private theorem tradeNotices_nodup (e : TradeExecution) :
    ((s.tradeNotices e).map Prod.fst).Nodup := by
  have hmap : (s.tradeNotices e).map Prod.fst =
      s.kernel.order.walk (subscribersOf s.subscribers e.instrument) := by
    simp [tradeNotices, Function.comp_def]
  rw [hmap]
  exact (s.kernel.order.walk_perm _).nodup_iff.mpr (hr.registry.subscriber_nodup e.instrument)

/-- Every subscriber gets its TRADE, whatever became of the parties. -/
private theorem taken_tradeNotices {e : TradeExecution} (he : e ∈ es) :
    Channels.taken Socket.send
      (Loop.run (Channels.post Socket.send) s.channels (partyNotices e)) (s.tradeNotices e) =
        s.tradeNotices e := by
  rw [Channels.taken_of_nodup (tradeNotices_nodup hr e), List.filter_eq_self]
  intro p hp
  obtain ⟨hopen, hbuyer, hseller⟩ := mem_tradeNotices hr he hp
  simp only [partyNotices, Loop.run_cons, Loop.run_nil]
  rw [Channels.post_apply, if_neg hseller, Channels.post_apply, if_neg hbuyer]
  exact hopen

/-- What one execution queues. -/
theorem publish_queued {e : TradeExecution} (he : e ∈ es) :
    queuedSince s (s.publish e) =
      Channels.taken Socket.send s.channels (partyNotices e) ++ s.tradeNotices e := by
  rw [publish_eq_sendEach hr he, (sendEach_spec hr _).2.2.2, Channels.taken_append,
    taken_tradeNotices hr he]

theorem Ready.publish {e : TradeExecution} (he : e ∈ es) :
    Ready o es (s.publish e) ∧ s.trace <+: (s.publish e).trace := by
  rw [publish_eq_sendEach hr he]
  exact ⟨(sendEach_spec hr _).1, (sendEach_spec hr _).2.2.1⟩

omit hr in
private theorem taken_partyNotices (e : TradeExecution) :
    Channels.taken Socket.send s.channels (partyNotices e) =
      (if (s.channels e.buyerFd).isSome then
        [(e.buyerFd, .bought e.instrument e.quantity e.price)] else []) ++
      (if (Channels.post Socket.send s.channels
          (e.buyerFd, .bought e.instrument e.quantity e.price) e.sellerFd).isSome then
        [(e.sellerFd, .sold e.instrument e.quantity e.price)] else []) := by
  simp [partyNotices, Channels.taken]

end Publish

/-- In a self-trade the second notice goes to a session the first one may have
dropped. -/
def KeepsSelf (s : ExchangeServer) (e : TradeExecution) : Prop :=
  e.buyerFd = e.sellerFd → (s.channels e.buyerFd).isSome = true →
    (Channels.feed Socket.send (s.channels e.buyerFd)
      [.bought e.instrument e.quantity e.price]).isSome = true

private theorem owed_eq (s : ExchangeServer) (e : TradeExecution) :
    s.owed e =
      ((if (s.channels e.buyerFd).isSome then
        [(e.buyerFd, .bought e.instrument e.quantity e.price)] else []) ++
      (if (s.channels e.sellerFd).isSome then
        [(e.sellerFd, .sold e.instrument e.quantity e.price)] else [])) ++
      s.tradeNotices e := by
  rw [owed, partyNotices, List.filter_cons, List.filter_cons, List.filter_nil]
  simp only [connected_eq_channels]
  split <;> split <;> rfl

section Publish

variable {o : ExchangeServer} {es : List TradeExecution} {s : ExchangeServer}
  (hr : Ready o es s)

include hr

theorem publish_queued_length_le {e : TradeExecution} (he : e ∈ es) :
    (queuedSince s (s.publish e)).length ≤ (s.owed e).length := by
  rw [publish_queued hr he, taken_partyNotices, owed_eq]
  have hsold : Channels.post Socket.send s.channels
      (e.buyerFd, .bought e.instrument e.quantity e.price) e.sellerFd ≠ none →
        s.channels e.sellerFd ≠ none := by
    intro hpost
    exact Option.isSome_iff_ne_none.mp
      (Channels.isSome_of_post (Option.isSome_iff_ne_none.mpr hpost))
  simp only [List.length_append, Option.isSome_iff_ne_none]
  by_cases hpost : Channels.post Socket.send s.channels
      (e.buyerFd, .bought e.instrument e.quantity e.price) e.sellerFd = none
  · simp [hpost]
  · simp [hpost, hsold hpost]

theorem publish_queued_eq_iff {e : TradeExecution} (he : e ∈ es) :
    queuedSince s (s.publish e) = s.owed e ↔ KeepsSelf s e := by
  rw [publish_queued hr he, taken_partyNotices, owed_eq, List.append_cancel_right_eq,
    List.append_cancel_left_eq, Channels.post_apply]
  unfold KeepsSelf
  by_cases hself : e.buyerFd = e.sellerFd
  · rw [if_pos hself.symm, ← hself]
    simp only [Channels.feed, Loop.run_cons, Loop.run_nil, forall_const]
    cases hbuyer : s.channels e.buyerFd with
    | none => simp
    | some x => cases hsent : x.send (.bought e.instrument e.quantity e.price) <;> simp [hsent]
  · rw [if_neg (Ne.symm hself)]
    exact iff_of_true rfl fun heq => absurd heq hself

omit hr in
theorem Ready.tail {e : TradeExecution} (hr : Ready o (e :: es) s) :
    Ready o es (s.publish e) := by
  obtain ⟨hready, _⟩ := hr.publish (List.mem_cons_self)
  exact ⟨hready.base, hready.registry, hready.client,
    fun e' he' => hready.parties e' (by simp [he'])⟩

theorem connected_of_publish {e : TradeExecution} (he : e ∈ es) {fd : Int}
    (h : (s.publish e).connected fd = true) : s.connected fd = true := by
  rw [connected_eq_channels] at h ⊢
  rw [publish_eq_sendEach hr he, (sendEach_spec hr _).2.1, Channels.run_post_apply] at h
  cases hfd : s.channels fd with
  | none => rw [hfd, Channels.feed_none] at h; exact h
  | some x => rfl

end Publish

/-! ## The publishing loop -/

/-- The state when the turn of the next execution comes. -/
def turnOf (s : ExchangeServer) (before : List TradeExecution) : ExchangeServer :=
  Loop.run publish s before

section Loop

variable {o : ExchangeServer} {fd : Int}

theorem publishAll_grows {es : List TradeExecution} {s : ExchangeServer} (hr : Ready o es s) :
    s.trace <+: (publishAll fd es s).trace := by
  induction es generalizing s with
  | nil => exact List.prefix_rfl
  | cons e es ih =>
      obtain ⟨_, hgrows⟩ := hr.publish List.mem_cons_self
      unfold publishAll
      dsimp only
      split
      · exact hgrows
      · exact hgrows.trans (ih hr.tail)

/-- The loop publishes one execution, and goes on if the submitter is left. -/
theorem publishAll_queued {e : TradeExecution} {es : List TradeExecution}
    {s : ExchangeServer} (hr : Ready o (e :: es) s) :
    queuedSince s (publishAll fd (e :: es) s) = queuedSince s (s.publish e) ++
      if (s.publish e).connected fd then
        queuedSince (s.publish e) (publishAll fd es (s.publish e)) else [] := by
  obtain ⟨_, hgrows⟩ := hr.publish List.mem_cons_self
  have hstep : publishAll fd (e :: es) s =
      if !(s.publish e).connected fd then s.publish e else publishAll fd es (s.publish e) := rfl
  rw [hstep]
  cases h : (s.publish e).connected fd with
  | false => simp
  | true =>
      simp only [Bool.not_true, Bool.false_eq_true, if_false, if_true]
      exact queuedSince_trans hgrows (publishAll_grows hr.tail)

theorem publishAll_queued_length_le (fd : Int) {es : List TradeExecution}
    {s : ExchangeServer} (hr : Ready o es s) :
    (queuedSince s (publishAll fd es s)).length ≤ (owedFrom es s).length := by
  induction es generalizing s with
  | nil => rw [publishAll, queuedSince_self]; rfl
  | cons e es ih =>
      have hhead := publish_queued_length_le hr List.mem_cons_self
      have htail := ih hr.tail
      rw [publishAll_queued hr, owedFrom, List.length_append, List.length_append]
      split
      · omega
      · rw [List.length_nil]
        omega

/-- Who is gone stays gone. -/
theorem Ready.turnOf {before after : List TradeExecution} {s : ExchangeServer}
    (hr : Ready o (before ++ after) s) : Ready o after (turnOf s before) ∧
      ∀ fd, (turnOf s before).connected fd = true → s.connected fd = true := by
  induction before generalizing s with
  | nil => exact ⟨hr, fun _ h => h⟩
  | cons e before ih =>
      obtain ⟨hready, hback⟩ := ih hr.tail
      refine ⟨hready, fun fd h => ?_⟩
      exact connected_of_publish hr List.mem_cons_self (hback fd h)

/-- Where nothing is owed, the parties are gone. -/
theorem keepsSelf_of_owed_eq_nil {s : ExchangeServer} {e : TradeExecution}
    (h : s.owed e = []) : KeepsSelf s e := by
  intro _ hopen
  rw [owed_eq, if_pos hopen] at h
  simp at h

/-- Nothing is owed any more. -/
theorem owedFrom_eq_nil_iff {es : List TradeExecution} {s : ExchangeServer} :
    owedFrom es s = [] ↔ Log.Each (fun before e => (turnOf s before).owed e = []) es := by
  induction es generalizing s with
  | nil => exact iff_of_true rfl Log.each_nil
  | cons e es ih =>
      rw [owedFrom, List.append_eq_nil_iff, Log.each_cons, ih]
      rfl

/-- Two halves that can only fall short are exact if the whole is. -/
private theorem append_eq_append_iff_of_le {α : Type*} {a b c d : List α}
    (hab : a.length ≤ b.length) (hcd : c.length ≤ d.length) :
    a ++ c = b ++ d ↔ a = b ∧ c = d := by
  constructor
  · intro h
    have hlength := congrArg List.length h
    rw [List.length_append, List.length_append] at hlength
    exact List.append_inj h (by omega)
  · rintro ⟨rfl, rfl⟩
    rfl

/-- **What the loop delivers.**  It queues all that is owed if and only if, from
the second execution on, the submitter is connected or nobody is left to be told,
and no self-trade loses its session between the two notices. -/
theorem publishAll_exact_iff {es : List TradeExecution} {s : ExchangeServer}
    (hr : Ready o es s) :
    queuedSince s (publishAll fd es s) = owedFrom es s ↔
      Log.Each (fun before e => (before ≠ [] → (turnOf s before).connected fd = true ∨
        (turnOf s before).owed e = []) ∧ KeepsSelf (turnOf s before) e) es := by
  induction es generalizing s with
  | nil =>
      rw [publishAll, queuedSince_self]
      exact iff_of_true rfl Log.each_nil
  | cons e es ih =>
      have hhead := publish_queued_length_le hr List.mem_cons_self
      have htail := publishAll_queued_length_le fd hr.tail
      rw [publishAll_queued hr, owedFrom, Log.each_cons,
        append_eq_append_iff_of_le hhead (by split; exacts [htail, Nat.zero_le _]),
        publish_queued_eq_iff hr List.mem_cons_self]
      refine and_congr ?_ ?_
      · exact ⟨fun h => ⟨fun hne => absurd rfl hne, h⟩, fun h => h.2⟩
      · cases hleft : (s.publish e).connected fd with
        | true =>
            -- the second execution finds the submitter connected
            rw [if_pos rfl, ih hr.tail]
            constructor
            · intro h before e' after hes
              obtain ⟨hcond, hself⟩ := h before e' after hes
              refine ⟨fun _ => ?_, hself⟩
              by_cases hnil : before = []
              · exact Or.inl (hnil ▸ hleft)
              · exact hcond hnil
            · intro h before e' after hes
              obtain ⟨hcond, hself⟩ := h before e' after hes
              exact ⟨fun _ => hcond (by simp), hself⟩
        | false =>
            -- the loop is left, and the submitter stays away
            rw [if_neg (by decide), eq_comm, owedFrom_eq_nil_iff]
            constructor
            · intro h before e' after hes
              have hnone := h before e' after hes
              exact ⟨fun _ => Or.inr hnone, keepsSelf_of_owed_eq_nil hnone⟩
            · intro h before e' after hes
              refine ((h before e' after hes).1 (by simp)).resolve_left fun hback => ?_
              have hready : Ready o (before ++ e' :: after) (s.publish e) := hes ▸ hr.tail
              have := hready.turnOf.2 fd hback
              rw [hleft] at this
              cases this

end Loop

/-! ## Seen from the state before the order -/

namespace ExchangeServer

/-- The messages an execution means for one client. -/
def noticesTo (s : ExchangeServer) (dest : Int) (e : TradeExecution) : List Response :=
  (if dest = e.buyerFd then [.bought e.instrument e.quantity e.price] else []) ++
  (if dest = e.sellerFd then [.sold e.instrument e.quantity e.price] else []) ++
  (if dest ∈ subscribersOf s.subscribers e.instrument then
    [.trade e.instrument e.quantity e.price] else [])

/-- The messages an order of `fd` and its first executions mean for one client. -/
def addressedTo (s : ExchangeServer) (fd : Int) (cmd : ParsedCommand)
    (before : List TradeExecution) (dest : Int) : List Response :=
  (if dest = fd then [.orderAccepted (s.addResult fd cmd).orderId] else []) ++
    before.flatMap (s.noticesTo dest)

/-- The client is connected, and still is once these messages have been written to
its socket: no `send` fails and the backlog stays within `kMaxOutputBytes`. -/
def Survives (s : ExchangeServer) (dest : Int) (messages : List Response) : Prop :=
  (Channels.feed Socket.send (s.channels dest) messages).isSome = true

end ExchangeServer

/-- An execution concerns its parties and the subscribers. -/
theorem noticesTo_ne_nil_iff (s : ExchangeServer) (dest : Int) (e : TradeExecution) :
    s.noticesTo dest e ≠ [] ↔ dest = e.buyerFd ∨ dest = e.sellerFd ∨
      dest ∈ subscribersOf s.subscribers e.instrument := by
  unfold noticesTo
  by_cases hbuyer : dest = e.buyerFd
  · simp [hbuyer]
  · by_cases hseller : dest = e.sellerFd
    · simp [hseller]
    · simp [hbuyer, hseller]

section Origin

variable {o : ExchangeServer} (ho : Registry o) {es : List TradeExecution}
  {s : ExchangeServer}

include ho

/-- Whoever is left has the subscriptions it had. -/
theorem Ready.subscriber_iff (hr : Ready o es s) {dest : Int}
    (h : (s.channels dest).isSome = true) (instrument : Bytes) :
    dest ∈ subscribersOf s.subscribers instrument ↔
      dest ∈ subscribersOf o.subscribers instrument := by
  rw [← connected_eq_channels, connected_iff] at h
  obtain ⟨y, hy⟩ := h
  obtain ⟨x, hx, hclient⟩ := hr.client dest y hy
  have hsame := subscriptions_of_client hclient
  rw [hr.registry.subscriber_iff, ho.subscriber_iff]
  constructor
  · rintro ⟨y', hy', hmem⟩
    rw [hy] at hy'
    cases hy'
    exact ⟨x, hx, hsame ▸ hmem⟩
  · rintro ⟨x', hx', hmem⟩
    rw [hx] at hx'
    cases hx'
    exact ⟨y, hy, hsame ▸ hmem⟩

/-- What one execution makes of a socket. -/
theorem publish_channels (hr : Ready o es s) {e : TradeExecution} (he : e ∈ es) (dest : Int) :
    (s.publish e).channels dest =
      Channels.feed Socket.send (s.channels dest) (o.noticesTo dest e) := by
  rw [publish_eq_sendEach hr he, (sendEach_spec hr _).2.1, Channels.run_post_apply]
  cases h : s.channels dest with
  | none => rw [Channels.feed_none, Channels.feed_none]
  | some x =>
      have hsub := hr.subscriber_iff ho (by rw [h]; rfl : (s.channels dest).isSome = true)
        e.instrument
      have hnodup := (s.kernel.order.walk_perm (subscribersOf s.subscribers
        e.instrument)).nodup_iff.mpr (hr.registry.subscriber_nodup e.instrument)
      rw [Channels.messagesFor_append, tradeNotices, Channels.messagesFor_map _ _ hnodup]
      simp only [HashOrder.mem_walk, hsub, noticesTo, partyNotices, Channels.messagesFor_cons]
      congr 2
      split <;> split <;> rfl

/-- **Each socket goes its own way.** -/
theorem turnOf_channels {before after : List TradeExecution}
    (hr : Ready o (before ++ after) s) (dest : Int) :
    (turnOf s before).channels dest =
      Channels.feed Socket.send (s.channels dest) (before.flatMap (o.noticesTo dest)) := by
  induction before generalizing s with
  | nil => rfl
  | cons e before ih =>
      have hstep : turnOf s (e :: before) = turnOf (s.publish e) before := rfl
      rw [hstep, ih hr.tail, publish_channels ho hr List.mem_cons_self, List.flatMap_cons,
        Channels.feed_append]

/-- Nothing is owed if nobody is left whom the execution concerns. -/
theorem owed_eq_nil_iff (hr : Ready o es s) (e : TradeExecution) :
    s.owed e = [] ↔ ∀ dest, o.noticesTo dest e ≠ [] → (s.channels dest).isSome ≠ true := by
  have htrade : s.tradeNotices e = [] ↔
      ∀ dest, dest ∉ subscribersOf s.subscribers e.instrument := by
    rw [tradeNotices, List.map_eq_nil_iff, List.eq_nil_iff_forall_not_mem]
    simp only [HashOrder.mem_walk]
  have hif : ∀ (c : Bool) (p : Int × Response), (if c then [p] else []) = [] ↔ c ≠ true := by
    intro c p
    cases c <;> simp
  rw [owed_eq, List.append_eq_nil_iff, List.append_eq_nil_iff, htrade, hif, hif]
  simp only [noticesTo_ne_nil_iff]
  constructor
  · rintro ⟨⟨hbuyer, hseller⟩, hsubs⟩ dest (rfl | rfl | hmem) hopen
    · exact hbuyer hopen
    · exact hseller hopen
    · exact hsubs dest ((hr.subscriber_iff ho hopen e.instrument).mpr hmem)
  · intro hgone
    refine ⟨⟨hgone _ (Or.inl rfl), hgone _ (Or.inr (Or.inl rfl))⟩, ?_⟩
    intro dest hmem
    obtain ⟨session, hsession, _⟩ := (hr.registry.subscriber_iff dest e.instrument).mp hmem
    have hopen : (s.channels dest).isSome = true := by simp [channels, hsession]
    exact hgone dest
      (Or.inr (Or.inr ((hr.subscriber_iff ho hopen e.instrument).mp hmem))) hopen

end Origin

/-! ## The order -/

/-- Traders have no subscriptions. -/
theorem Registry.trader_unsubscribed {s : ExchangeServer} (hr : Registry s) {fd : Int}
    {session : ClientSession} (h : s.sessions.lookup fd = some session)
    (hrole : session.role = .trader) : session.subscriptions = [] := by
  rw [List.eq_nil_iff_forall_not_mem]
  intro instrument hmem
  have hmarket := hr.subscriber_role fd session h instrument hmem
  rw [hrole] at hmarket
  cases hmarket

/-- The parties of an execution are the submitter and the owner of an order that
was resting. -/
theorem execution_parties {s : ExchangeServer} (hr : Registry s) {fd : Int}
    {cmd : ParsedCommand} {e : TradeExecution}
    (he : e ∈ (s.addResult fd cmd).executions) {dest : Int}
    (hdest : dest = e.buyerFd ∨ dest = e.sellerFd) :
    dest = fd ∨ ∃ q, ∃ n ∈ s.book.queue q, n.order.ownerFd = dest := by
  obtain ⟨f, hf, rfl⟩ := List.mem_map.mp he
  rw [addResult, addOrder_fills] at hf
  obtain ⟨t, ht, rfl⟩ := List.mem_map.mp hf
  obtain ⟨_, _, _, n, hn, hnt⟩ := matched_taken hr.book _ _ _ _ t ht
  have hresting : dest = t.1.ownerFd → ∃ q, ∃ n ∈ s.book.queue q, n.order.ownerFd = dest := by
    rintro rfl
    exact ⟨_, n, hn, by rw [hnt]⟩
  cases hside : sideOf cmd.type with
  | buy =>
      simp only [Incoming.fill, Book.incoming, hside] at hdest
      exact hdest.imp_right hresting
  | sell =>
      simp only [Incoming.fill, Book.incoming, hside] at hdest
      exact hdest.symm.imp_right hresting

namespace ExchangeServer

/-- The server when the first execution of an order is about to be published. -/
def accepted (s : ExchangeServer) (fd : Int) (cmd : ParsedCommand) : ExchangeServer :=
  (s.submit fd cmd).sendTo fd (.orderAccepted (s.addResult fd cmd).orderId)

end ExchangeServer

/-- The messages queued while the line is handled are the acknowledgement and then,
execution by execution, all that is owed when its turn comes. -/
def Delivered (s : ExchangeServer) (fd : Int) (line : Bytes) : Prop :=
  queuedSince s (s.handleMessage fd line) =
    (fd, .orderAccepted (s.addResult fd (parse line)).orderId) ::
      owedFrom (s.addResult fd (parse line)).executions (s.accepted fd (parse line))

/-- At every execution but the first, the submitter has survived the messages
addressed to it before, or nobody has whom the execution concerns.  In a self-trade
the session, if it is still there, survives BOUGHT. -/
def ExchangeServer.InformsAll (s : ExchangeServer) (fd : Int) (cmd : ParsedCommand) : Prop :=
  Log.Each (fun before e =>
    (before ≠ [] → s.Survives fd (s.addressedTo fd cmd before fd) ∨
      ∀ dest, s.noticesTo dest e ≠ [] →
        ¬ s.Survives dest (s.addressedTo fd cmd before dest)) ∧
    (e.buyerFd = e.sellerFd →
      s.Survives e.buyerFd (s.addressedTo fd cmd before e.buyerFd) →
      s.Survives e.buyerFd (s.addressedTo fd cmd before e.buyerFd ++
        [.bought e.instrument e.quantity e.price])))
    (s.addResult fd cmd).executions

section Order

variable {s : ExchangeServer} (hb : Base s) (hr : Registry s) {fd : Int}
  {session : ClientSession} (h : s.sessions.lookup fd = some session)
  (hin : session.loggedIn = true)

include hr h hin

omit hr in
/-- An order of a trader is not rejected. -/
theorem handleOrder_of_trader (hrole : session.role = .trader) (cmd : ParsedCommand) :
    s.handleOrder fd cmd =
      publishAll fd (s.addResult fd cmd).executions (s.accepted fd cmd) := by
  have hpass : s.requireLoggedInTrader fd cmd.type = (s, true) := by
    simp [requireLoggedInTrader, rejectWrongRole, sessionAt_of_lookup h, hrole, hin]
  simp only [handleOrder, hpass, Bool.not_true, Bool.false_eq_true, if_false]
  rfl

include hb

theorem accepted_ready (cmd : ParsedCommand) (hcmd : 0 < cmd.quantity) :
    Ready s (s.addResult fd cmd).executions (s.accepted fd cmd) := by
  have hrole := (hr.trader_iff fd session h).mpr hin
  have hsubmit := Act.submit s session cmd h (Or.inr hrole) hin hcmd
  have hready : Ready s (s.addResult fd cmd).executions (s.submit fd cmd) := by
    refine ⟨hsubmit.base hb, hsubmit.registry hr, fun _ y hy => ⟨y, hy, rfl⟩, ?_⟩
    intro e he dest hdest x hx
    rcases execution_parties hr he hdest with rfl | ⟨q, n, hn, rfl⟩
    · rw [h] at hx
      cases hx
      exact hr.trader_unsubscribed h hrole
    · obtain ⟨owner, howner, htrader⟩ := hr.owner q n hn
      rw [howner] at hx
      cases hx
      exact hr.trader_unsubscribed howner htrader
  exact hready.sendTo _ _

/-- The acknowledgement is the first message. -/
theorem accepted_queued (cmd : ParsedCommand) (hcmd : 0 < cmd.quantity) :
    s.trace <+: (s.accepted fd cmd).trace ∧
      queuedSince s (s.accepted fd cmd) =
        [(fd, .orderAccepted (s.addResult fd cmd).orderId)] := by
  have hrole := (hr.trader_iff fd session h).mpr hin
  have hb' := (Act.submit s session cmd h (Or.inr hrole) hin hcmd).base hb
  have hsubmit : s.trace <+: (s.submit fd cmd).trace := List.prefix_append _ _
  have hnone : queuedSince s (s.submit fd cmd) = [] := by
    simp [queuedSince, submit, observe, Obs.queuedPair]
  have hconnected : (s.submit fd cmd).connected fd = true := connected_iff.mpr ⟨session, h⟩
  obtain ⟨hgrows, hqueued⟩ := sendTo_queued hb' fd
    (.orderAccepted (s.addResult fd cmd).orderId)
  refine ⟨hsubmit.trans hgrows, ?_⟩
  rw [accepted, queuedSince_trans hsubmit hgrows, hnone, hqueued, if_pos hconnected,
    List.nil_append]

/-- **Who is connected when the turn of an execution comes** is decided by the
socket as it was before the order. -/
theorem turnOf_survives {cmd : ParsedCommand} (hcmd : 0 < cmd.quantity)
    {before after : List TradeExecution}
    (hes : (s.addResult fd cmd).executions = before ++ after) (dest : Int) :
    (turnOf (s.accepted fd cmd) before).channels dest =
      Channels.feed Socket.send (s.channels dest) (s.addressedTo fd cmd before dest) := by
  have hrole := (hr.trader_iff fd session h).mpr hin
  have hb' := (Act.submit s session cmd h (Or.inr hrole) hin hcmd).base hb
  have hready := accepted_ready hb hr h hin cmd hcmd
  rw [hes] at hready
  have haccepted : (s.accepted fd cmd).channels dest =
      Channels.feed Socket.send (s.channels dest)
        (if dest = fd then [.orderAccepted (s.addResult fd cmd).orderId] else []) := by
    rw [accepted, sendTo_channels hb', Channels.post_apply]
    split
    · next heq =>
      obtain rfl : dest = fd := heq
      rfl
    · rfl
  rw [turnOf_channels hr hready, haccepted, addressedTo, Channels.feed_append]

/-- The condition of the loop, seen from the state before the order. -/
theorem informsAll_iff {cmd : ParsedCommand} (hcmd : 0 < cmd.quantity) :
    s.InformsAll fd cmd ↔ Log.Each (fun before e =>
      (before ≠ [] → (turnOf (s.accepted fd cmd) before).connected fd = true ∨
        (turnOf (s.accepted fd cmd) before).owed e = []) ∧
      KeepsSelf (turnOf (s.accepted fd cmd) before) e) (s.addResult fd cmd).executions := by
  refine Log.each_congr fun before e after hes => ?_
  have hturn := turnOf_survives hb hr h hin hcmd hes
  have hready := accepted_ready hb hr h hin cmd hcmd
  rw [hes] at hready
  rw [connected_eq_channels, owed_eq_nil_iff hr hready.turnOf.1, KeepsSelf]
  simp only [hturn, ← Channels.feed_append]
  exact Iff.rfl

end Order

/-- **Exactly when every execution reaches the clients.**  For a BUY or SELL of a
logged-in trader in any reachable state, with any results of the `send` calls: all
that is owed is queued, execution by execution, if and only if the order informs
all.  What goes wrong otherwise is that the loop is left because the submitter is
gone, or that a self-trade loses its session between its two notices. -/
theorem delivered_iff {c : Setup} {s : ExchangeServer} (hreach : Reachable c s) {fd : Int}
    {session : ClientSession} (h : s.sessions.lookup fd = some session)
    (hin : session.loggedIn = true) {line : Bytes} (hvalid : (parse line).valid = true)
    (htype : (parse line).type = .buy ∨ (parse line).type = .sell) :
    Delivered s fd line ↔ s.InformsAll fd (parse line) := by
  have hb := hreach.base
  have hr := hreach.registry
  have hrole := (hr.trader_iff fd session h).mpr hin
  have hcmd := (parse_order_pos hvalid htype).1
  have hready := accepted_ready hb hr h hin (parse line) hcmd
  obtain ⟨hgrows, hqueued⟩ := accepted_queued hb hr h hin (parse line) hcmd
  have hhandle : s.handleMessage fd line = publishAll fd
      (s.addResult fd (parse line)).executions (s.accepted fd (parse line)) := by
    rw [← handleOrder_of_trader h hin hrole]
    rcases htype with htype | htype <;> simp [handleMessage, hvalid, htype]
  rw [Delivered, hhandle, queuedSince_trans hgrows (publishAll_grows hready), hqueued,
    List.singleton_append, List.cons.injEq, eq_self_iff_true, true_and,
    publishAll_exact_iff hready, informsAll_iff hb hr h hin hcmd]

/-- Clients 5 and 6 each offer five units at the same price; client 7 has logged
in. -/
private def twoOffers : List Turn :=
  [{ input := .event { fd := 3, readable := true }
     answers := { accepts :=
       [.connection 5 [] true, .connection 6 [] true, .connection 7 [] true] } },
   { input := .event { fd := 5, readable := true }
     answers := { recvs :=
       [.data ⟨ascii "LOGIN a\nSELL JNST 5 100\n", by decide, by decide⟩] } },
   { input := .event { fd := 6, readable := true }
     answers := { recvs :=
       [.data ⟨ascii "LOGIN b\nSELL JNST 5 100\n", by decide, by decide⟩] } },
   { input := .event { fd := 7, readable := true }
     answers := { recvs := [.data ⟨ascii "LOGIN c\n", by decide, by decide⟩] } }]

/-- The server with two offers in its book, as the next event finds it. -/
private def withTwoOffers (sends : Int → List SendOutcome) : ExchangeServer :=
  (run {} twoOffers).load { sends := sends }

private theorem withTwoOffers_reachable (sends : Int → List SendOutcome) :
    Reachable {} (withTwoOffers sends) :=
  Relation.ReflTransGen.tail (run_reachable {} twoOffers) (Move.env _ (Env.load _ _))

/-- Client 7 buys both offers, and all sockets are full but fine. -/
theorem delivered_iff_two_offers :
    Delivered (withTwoOffers fun _ => []) 7 (ascii "BUY JNST 10 100") ∧
      (withTwoOffers fun _ => []).InformsAll 7 (parse (ascii "BUY JNST 10 100")) := by
  have hlookup : ∃ session, (withTwoOffers fun _ => []).sessions.lookup 7 = some session ∧
      session.loggedIn = true := by
    have hsome : ((withTwoOffers fun _ => []).sessions.lookup 7).any (·.loggedIn) = true := by
      decide +kernel
    simpa [Option.any_eq_true] using hsome
  obtain ⟨session, h, hin⟩ := hlookup
  have hdelivered : Delivered (withTwoOffers fun _ => []) 7 (ascii "BUY JNST 10 100") := by
    unfold Delivered
    decide +kernel
  exact ⟨hdelivered, (delivered_iff (withTwoOffers_reachable _) h hin (by decide +kernel)
    (by decide +kernel)).mp hdelivered⟩

/-- The same, but the socket of client 7 fails at its next `send`. -/
private def buyerFails : ExchangeServer :=
  withTwoOffers fun fd => if fd = 7 then [.failed] else []

/-- **An execution is lost.**  Client 7 buys both offers, and its socket fails at the
acknowledgement.  The order is executed against both offers, but client 6, which
stays connected, is not told that it sold. -/
theorem second_execution_lost :
    Reachable {} buyerFails ∧
    (buyerFails.sessions.lookup 7).any (·.loggedIn) = true ∧
    (parse (ascii "BUY JNST 10 100")).valid = true ∧
    (parse (ascii "BUY JNST 10 100")).type = .buy ∧
    (buyerFails.addResult 7 (parse (ascii "BUY JNST 10 100"))).executions =
      [⟨7, 5, ascii "JNST", 5, 100⟩, ⟨7, 6, ascii "JNST", 5, 100⟩] ∧
    (buyerFails.handleMessage 7 (ascii "BUY JNST 10 100")).connected 6 = true ∧
    queuedSince buyerFails (buyerFails.handleMessage 7 (ascii "BUY JNST 10 100")) =
      [(7, .orderAccepted 3), (5, .sold (ascii "JNST") 5 100)] ∧
    ¬ Delivered buyerFails 7 (ascii "BUY JNST 10 100") := by
  refine ⟨withTwoOffers_reachable _, by decide +kernel, by decide +kernel, by decide +kernel,
    by decide +kernel, by decide +kernel, by decide +kernel, ?_⟩
  unfold Delivered
  decide +kernel

end SocketExchange.Server
