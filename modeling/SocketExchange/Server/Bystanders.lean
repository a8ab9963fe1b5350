import SocketExchange.Server.Enrolment
import SocketExchange.Server.Notifications
import SocketExchange.Trading.SameBook

/-!
# What the others can tell

Two states of the server are compared as everybody but one client `m` sees them.
`Alike m` asks that the book, the names in use and every other session be the same,
and that every other connection have been through the same; what `m` holds, and
what the event loop knows, may differ.

The relation is used in two ways.  What is done on behalf of a market-data client
leads to a state that is alike (`handleMessage_unseen` and its kin), and what is done
on behalf of anybody else keeps alike states alike (`Twins.handleMessage`).  The
first applies to any market-data client, not only to `m`; that is why an execution
can be passed on to the subscribers in any order (`sendTo_comm`).
-/

namespace SocketExchange.Server

open SocketExchange.Lib
open SocketExchange.Lib.Bytes
open SocketExchange.Network
open SocketExchange.Protocol
open SocketExchange.Trading.OrderBook
open ExchangeServer

/-! ## The relation -/

/-- The connection an observation is about. -/
def Obs.fd : Obs → Int
  | .accepted fd => fd
  | .refused fd => fd
  | .bounced fd => fd
  | .dropped fd _ => fd
  | .closed fd => fd
  | .received fd _ => fd
  | .handling fd _ => fd
  | .handled fd _ _ => fd
  | .leaving fd _ => fd
  | .queued fd _ => fd
  | .sent fd _ => fd
  | .loggedIn fd _ => fd
  | .subscribed fd _ => fd
  | .unsubscribed fd _ => fd
  | .submitted o _ _ => o.ownerFd
  | .cancelled fd _ => fd

/-- What one connection has been through: all that was received from it, queued and
sent to it, and done on its behalf. -/
def lifeOf (fd : Int) (trace : List Obs) : List Obs := trace.filter fun o => o.fd == fd

/-- Nobody but `m` can tell the two states apart. -/
structure Alike (m : Int) (s s' : ExchangeServer) : Prop where
  listener : s.listenerFd = s'.listenerFd
  book : SameBook s.book s'.book
  usernames : s.usernames = s'.usernames
  session : ∀ fd, fd ≠ m → s.sessions.lookup fd = s'.sessions.lookup fd
  isOpen : ∀ fd, fd ≠ m → (fd ∈ s.kernel.openFds ↔ fd ∈ s'.kernel.openFds)
  closed : ∀ fd, fd ≠ m → (fd ∈ s.closedFds ↔ fd ∈ s'.closedFds)
  executions : s.trace.flatMap Obs.executions = s'.trace.flatMap Obs.executions
  life : ∀ fd, fd ≠ m → lifeOf fd s.trace = lifeOf fd s'.trace

/-- Alike, and so are the next results of `send` on the other sockets. -/
structure InStep (m : Int) (s s' : ExchangeServer) : Prop extends Alike m s s' where
  sends : ∀ fd, fd ≠ m → s.kernel.sends fd = s'.kernel.sends fd

section Relation

variable {m : Int} {s s' s'' : ExchangeServer}

theorem Alike.refl (m : Int) (s : ExchangeServer) : Alike m s s :=
  ⟨rfl, SameBook.refl _, rfl, fun _ _ => rfl, fun _ _ => Iff.rfl, fun _ _ => Iff.rfl, rfl,
    fun _ _ => rfl⟩

theorem Alike.symm (h : Alike m s s') : Alike m s' s where
  listener := h.listener.symm
  book := h.book.symm
  usernames := h.usernames.symm
  session := fun fd hne => (h.session fd hne).symm
  isOpen := fun fd hne => (h.isOpen fd hne).symm
  closed := fun fd hne => (h.closed fd hne).symm
  executions := h.executions.symm
  life := fun fd hne => (h.life fd hne).symm

theorem Alike.trans (h : Alike m s s') (h' : Alike m s' s'') : Alike m s s'' where
  listener := h.listener.trans h'.listener
  book := h.book.trans h'.book
  usernames := h.usernames.trans h'.usernames
  session := fun fd hne => (h.session fd hne).trans (h'.session fd hne)
  isOpen := fun fd hne => (h.isOpen fd hne).trans (h'.isOpen fd hne)
  closed := fun fd hne => (h.closed fd hne).trans (h'.closed fd hne)
  executions := h.executions.trans h'.executions
  life := fun fd hne => (h.life fd hne).trans (h'.life fd hne)

theorem InStep.refl (m : Int) (s : ExchangeServer) : InStep m s s :=
  ⟨Alike.refl m s, fun _ _ => rfl⟩

theorem InStep.symm (h : InStep m s s') : InStep m s' s :=
  ⟨h.toAlike.symm, fun fd hne => (h.sends fd hne).symm⟩

theorem InStep.trans (h : InStep m s s') (h' : InStep m s' s'') : InStep m s s'' :=
  ⟨h.toAlike.trans h'.toAlike, fun fd hne => (h.sends fd hne).trans (h'.sends fd hne)⟩

/-- States that neither of two clients can be blamed for are alike to everybody. -/
theorem InStep.of_two {a b : Int} (hab : a ≠ b) (ha : InStep a s s') (hb : InStep b s s') :
    InStep m s s' := by
  have hpick : ∀ {P : Int → Prop}, (∀ fd, fd ≠ a → P fd) → (∀ fd, fd ≠ b → P fd) →
      ∀ fd, fd ≠ m → P fd := by
    intro P hPa hPb fd _
    by_cases hfd : fd = a
    · exact hPb fd fun hfdb => hab (hfd.symm.trans hfdb)
    · exact hPa fd hfd
  exact
    { listener := ha.listener
      book := ha.book
      usernames := ha.usernames
      session := hpick ha.session hb.session
      isOpen := hpick ha.isOpen hb.isOpen
      closed := hpick ha.closed hb.closed
      executions := ha.executions
      life := hpick ha.life hb.life
      sends := hpick ha.sends hb.sends }

theorem Alike.connected (h : Alike m s s') {fd : Int} (hne : fd ≠ m) :
    s.connected fd = s'.connected fd := by
  rw [ExchangeServer.connected, ExchangeServer.connected, h.session fd hne]

theorem Alike.lineOutcome (h : Alike m s s') {fd : Int} (hne : fd ≠ m) :
    s.lineOutcome fd = s'.lineOutcome fd := by
  rw [ExchangeServer.lineOutcome, ExchangeServer.lineOutcome, h.session fd hne]

end Relation

/-! ## Writes to single tables -/

theorem lifeOf_append (fd : Int) (trace new : List Obs) :
    lifeOf fd (trace ++ new) = lifeOf fd trace ++ lifeOf fd new :=
  List.filter_append _ _

section Writes

variable {m : Int} {s s' : ExchangeServer}

theorem InStep.observe (h : InStep m s s') (o : Obs) :
    InStep m (s.observe o) (s'.observe o) :=
  { h with
    executions := by
      simp only [ExchangeServer.observe, List.flatMap_append, h.executions]
    life := fun fd hne => by
      simp only [ExchangeServer.observe, lifeOf_append, h.life fd hne] }

/-- A note about `m`. -/
theorem InStep.note (h : InStep m s s') {o : Obs} (ho : o.fd = m) (he : o.executions = []) :
    InStep m s (s'.observe o) :=
  { h with
    executions := by
      simp only [ExchangeServer.observe, List.flatMap_append, List.flatMap_cons,
        List.flatMap_nil, he, List.append_nil, h.executions]
    life := fun fd hne => by
      have hnone : lifeOf fd [o] = [] := by
        simp only [lifeOf, List.filter_cons, List.filter_nil, ho]
        rw [if_neg]
        simpa using hne.symm
      simp only [ExchangeServer.observe, lifeOf_append, hnone, List.append_nil, h.life fd hne] }

theorem InStep.put (h : InStep m s s') (fd : Int) (session : ClientSession) :
    InStep m (s.putSession fd session) (s'.putSession fd session) :=
  { h with
    session := fun fd' hne => by
      simp only [putSession, lookup_insert, h.session fd' hne] }

/-- A write to the session of `m`. -/
theorem InStep.putUnseen (h : InStep m s s') (session : ClientSession) :
    InStep m s (s'.putSession m session) :=
  { h with
    session := fun fd' hne => by
      simp only [putSession, lookup_insert, if_neg hne, h.session fd' hne] }

theorem InStep.written (h : InStep m s s') (fd : Int) (f : Flushed) :
    InStep m (s.written fd fd f) (s'.written fd fd f) :=
  { (h.put fd f.session).observe (.sent fd f.sent) with
    sends := fun fd' hne => by
      simp only [ExchangeServer.written, Kernel.setSends, h.sends fd' hne] }

theorem InStep.writtenUnseen (h : InStep m s s') (f : Flushed) :
    InStep m s (s'.written m m f) :=
  { (h.putUnseen f.session).note (o := .sent m f.sent) rfl rfl with
    sends := fun fd' hne => by
      simp only [ExchangeServer.written, Kernel.setSends, if_neg hne, h.sends fd' hne] }

/-- What the event loop knows is nobody's business. -/
theorem InStep.relist (h : InStep m s s') (loop loop' : EventLoop) :
    InStep m { s with loop := loop } { s' with loop := loop' } := { h with }

theorem InStep.relistUnseen (h : InStep m s s') (loop : EventLoop) :
    InStep m s { s' with loop := loop } := { h with }

end Writes

/-! ## Dropping and sending -/

/-- The client owns nothing that the others share. -/
structure Modest (m : Int) (s : ExchangeServer) : Prop where
  book : s.book.WF
  loggedOut : ∀ session, s.sessions.lookup m = some session → session.loggedIn = false
  ordersNone : ∀ q, ∀ n ∈ s.book.queue q, n.order.ownerFd ≠ m

section Drop

variable {m : Int} {s s' : ExchangeServer}

/-- Its session is rewritten. -/
private theorem Modest.put (hm : Modest m s) {session : ClientSession}
    (hs : s'.sessions = s.sessions.insert m session) (hbook : s'.book = s.book)
    (hout : session.loggedIn = false) : Modest m s' := by
  refine ⟨hbook ▸ hm.book, ?_, hbook ▸ hm.ordersNone⟩
  intro x hx
  rw [hs, lookup_insert, if_pos rfl] at hx
  cases hx
  exact hout

theorem InStep.drop (h : InStep m s s') (hwf : s.book.WF) (hwf' : s'.book.WF) {fd : Int}
    (hne : fd ≠ m) (reason : DropReason) : InStep m (s.drop fd reason) (s'.drop fd reason) := by
  cases hsession : s.sessions.lookup fd with
  | none =>
      rw [drop_of_lookup_none hsession, drop_of_lookup_none (h.session fd hne ▸ hsession)]
      exact h
  | some session =>
      have hsession' : s'.sessions.lookup fd = some session := by
        rw [← h.session fd hne]
        exact hsession
      have hnoted := h.observe (.dropped fd reason)
      simp only [ExchangeServer.drop, hsession, hsession']
      exact
        { hnoted with
          book := h.book.removeOrdersOf hwf hwf' _ _ fd
          usernames := by
            dsimp only
            rw [h.usernames]
          session := fun fd' hne' => by
            dsimp only
            rw [lookup_erase, lookup_erase, h.session fd' hne']
          closed := fun fd' hne' => by
            dsimp only
            rw [List.mem_append, List.mem_append, h.closed fd' hne'] }

/-- A modest client leaves no gap. -/
theorem drop_unseen (hm : Modest m s) (reason : DropReason) : InStep m s (s.drop m reason) := by
  cases hsession : s.sessions.lookup m with
  | none =>
      rw [drop_of_lookup_none hsession]
      exact InStep.refl m s
  | some session =>
      have hnoted := (InStep.refl m s).note (o := .dropped m reason) rfl rfl
      simp only [ExchangeServer.drop, hsession]
      exact
        { hnoted with
          book := sameBook_removeOrdersOf hm.book _ hm.ordersNone
          usernames := by
            dsimp only
            rw [hm.loggedOut session hsession]
            rfl
          session := fun fd hne => by
            dsimp only
            rw [lookup_erase, if_neg hne]
          closed := fun fd hne => by
            dsimp only
            rw [List.mem_append, List.mem_singleton, or_iff_left hne] }

theorem InStep.flush (h : InStep m s s') (hwf : s.book.WF) (hwf' : s'.book.WF) {key : Int}
    (hne : key ≠ m) {session : ClientSession} (hkey : session.fd = key) :
    InStep m (s.flush key session) (s'.flush key session) := by
  subst hkey
  have hwritten := h.written session.fd (session.flush (s.kernel.sends session.fd))
  unfold ExchangeServer.flush
  rw [← h.sends session.fd hne]
  dsimp only
  split
  · exact hwritten.drop hwf hwf' hne _
  · exact hwritten.relist _ _
  · exact hwritten

theorem flush_unseen (hm : Modest m s) {session : ClientSession} (hkey : session.fd = m)
    (hout : session.loggedIn = false) : InStep m s (s.flush m session) := by
  subst hkey
  have hwritten := (InStep.refl session.fd s).writtenUnseen
    (session.flush (s.kernel.sends session.fd))
  unfold ExchangeServer.flush
  dsimp only
  split
  · have hm' : Modest session.fd (s.written session.fd session.fd
        (session.flush (s.kernel.sends session.fd))) :=
      hm.put rfl rfl ((loggedIn_of_client (flush_client _ _)).trans hout)
    exact hwritten.trans (drop_unseen hm' _)
  · exact hwritten.relistUnseen _
  · exact hwritten

theorem InStep.sendTo (h : InStep m s s') (hb : Base s) (hwf : s.book.WF) (hwf' : s'.book.WF)
    {dest : Int} (hne : dest ≠ m) (message : Response) :
    InStep m (s.sendTo dest message) (s'.sendTo dest message) := by
  unfold ExchangeServer.sendTo
  rw [← h.session dest hne]
  split
  · exact h
  · next session hsession =>
    have hqueued := (h.put dest (session.append message.render)).observe (.queued dest message)
    exact hqueued.flush hwf hwf' hne (hb.own dest session hsession)

theorem sendTo_unseen (hm : Modest m s) (hb : Base s) (message : Response) :
    InStep m s (s.sendTo m message) := by
  unfold ExchangeServer.sendTo
  split
  · exact InStep.refl m s
  · next session hsession =>
    have hqueued : InStep m s ((s.putSession m (session.append message.render)).observe
        (.queued m message)) :=
      ((InStep.refl m s).putUnseen _).note rfl rfl
    have hout := hm.loggedOut session hsession
    have hm' : Modest m ((s.putSession m (session.append message.render)).observe
        (.queued m message)) := hm.put rfl rfl hout
    exact hqueued.trans (flush_unseen hm' (hb.own m session hsession) hout)

theorem InStep.beginOrderlyClose (h : InStep m s s') (hwf : s.book.WF) (hwf' : s'.book.WF)
    {fd : Int} (hne : fd ≠ m) (reason : DropReason) :
    InStep m (s.beginOrderlyClose fd reason) (s'.beginOrderlyClose fd reason) := by
  unfold ExchangeServer.beginOrderlyClose
  rw [← h.session fd hne]
  split
  · exact h
  · next session hsession =>
    have hleaving := (h.put fd { session with closing := true, inbuf := [] }).observe
      (.leaving fd reason)
    dsimp only
    split
    · exact hleaving.drop hwf hwf' hne reason
    · exact (hleaving.put fd _).relist _ _

theorem beginOrderlyClose_unseen (hm : Modest m s) (reason : DropReason) :
    InStep m s (s.beginOrderlyClose m reason) := by
  unfold ExchangeServer.beginOrderlyClose
  split
  · exact InStep.refl m s
  · next session hsession =>
    have hleaving : InStep m s ((s.putSession m
        { session with closing := true, inbuf := [] }).observe (.leaving m reason)) :=
      ((InStep.refl m s).putUnseen _).note rfl rfl
    dsimp only
    split
    · have hm' : Modest m ((s.putSession m
          { session with closing := true, inbuf := [] }).observe (.leaving m reason)) :=
        hm.put rfl rfl (hm.loggedOut session hsession)
      exact hleaving.trans (drop_unseen hm' reason)
    · exact (hleaving.putUnseen _).relistUnseen _

end Drop

/-! ## Market-data clients -/

/-- If `m` is connected, it is a market-data client. -/
def Watcher (m : Int) (s : ExchangeServer) : Prop :=
  ∀ session, s.sessions.lookup m = some session → session.role = .marketData

/-- The tables are in order, and `m` is a market-data client or gone. -/
structure Sound (m : Int) (s : ExchangeServer) : Prop where
  base : Base s
  registry : Registry s
  watcher : Watcher m s

theorem Sound.loggedOut {m : Int} {s : ExchangeServer} (h : Sound m s) {session : ClientSession}
    (hsession : s.sessions.lookup m = some session) : session.loggedIn = false := by
  cases hin : session.loggedIn with
  | false => rfl
  | true =>
      have htrader := (h.registry.trader_iff m session hsession).mpr hin
      rw [h.watcher session hsession] at htrader
      cases htrader

/-- **A market-data client owns nothing that the others share.** -/
theorem Sound.modest {m : Int} {s : ExchangeServer} (h : Sound m s) : Modest m s where
  book := h.registry.book
  loggedOut := fun _ hsession => h.loggedOut hsession
  ordersNone := by
    intro q n hn howner
    obtain ⟨session, hsession, htrader⟩ := h.registry.owner q n hn
    rw [howner] at hsession
    rw [h.watcher session hsession] at htrader
    cases htrader

section Watcher

variable {m : Int} {s s' : ExchangeServer} (hw : Watcher m s)

include hw

private theorem Watcher.put {fd : Int} {session session' : ClientSession}
    (h : s.sessions.lookup fd = some session) (hs : s'.sessions = s.sessions.insert fd session')
    (hrole : session.role = .marketData → session'.role = .marketData) : Watcher m s' := by
  intro x hx
  rw [hs, lookup_insert] at hx
  split at hx
  · next heq =>
    cases hx
    rw [← heq] at h
    exact hrole (hw session h)
  · exact hw x hx

theorem Act.watcher {fd : Int} (hact : Act fd s s') : Watcher m s' := by
  have hmarket : ∀ session : ClientSession, session.role = .marketData →
      (assumeMarketData session).role = .marketData := by
    intro session hrole
    unfold assumeMarketData
    split
    · rfl
    · exact hrole
  cases hact with
  | queue dest session message h howed => exact hw.put h rfl id
  | write dest session h =>
      exact hw.put h rfl fun hrole => (role_of_client (flush_client _ _)).trans hrole
  | drop dest reason h => exact fun x hx => hw x (lookup_of_drop hx).2
  | relist loop => exact hw
  | leave session reason h => exact hw.put h rfl id
  | interest session wantRead wantWrite h => exact hw.put h rfl id
  | login session username h hrole hout hfree =>
      refine hw.put h rfl fun hmarket => ?_
      rw [hmarket] at hrole
      rcases hrole with hrole | hrole <;> cases hrole
  | subscribe session instrument h hrole => exact hw.put h rfl (hmarket session)
  | unsubscribe session instrument h hrole hin => exact hw.put h rfl (hmarket session)
  | submit session cmd h hrole hin hcmd => exact hw
  | cancel session orderId h hin hok => exact hw

theorem Serve.watcher {fd : Int} (hserve : Serve fd s s') : Watcher m s' := by
  cases hserve with
  | act hact => exact hact.watcher hw
  | receive session bytes h hopen => exact hw.put h rfl id
  | take session line tail h hline => exact hw.put h rfl id
  | handled line => exact hw

end Watcher

theorem Sound.serves {m fd : Int} {s s' : ExchangeServer} (h : Sound m s)
    (hserves : Serves fd s s') : Sound m s' := by
  refine hserves.invariant (fun a b hserve ha => ?_) h
  exact ⟨hserve.base ha.base, (Move.serve a hserve).registry ha.registry,
    hserve.watcher ha.watcher⟩

theorem Sound.sendTo {m : Int} {s : ExchangeServer} (h : Sound m s) (dest : Int)
    (message : Response) : Sound m (s.sendTo dest message) where
  base := sendTo_base h.base dest message
  registry := sendTo_registry h.base h.registry dest message
  watcher := by
    intro y hy
    obtain ⟨x, hx, hclient⟩ := sendTo_client h.base dest message hy
    rw [role_of_client hclient]
    exact h.watcher x hx

/-! ## Pairs of states -/

/-- Two sound states that only `m` can tell apart. -/
structure Twins (m : Int) (s s' : ExchangeServer) : Prop where
  inStep : InStep m s s'
  left : Sound m s
  right : Sound m s'

section Twins

variable {m : Int} {s s' s'' t t' : ExchangeServer}

theorem Twins.refl (h : Sound m s) : Twins m s s := ⟨InStep.refl m s, h, h⟩

theorem Twins.symm (h : Twins m s s') : Twins m s' s := ⟨h.inStep.symm, h.right, h.left⟩

theorem Twins.trans (h : Twins m s s') (h' : Twins m s' s'') : Twins m s s'' :=
  ⟨h.inStep.trans h'.inStep, h.left, h'.right⟩

/-- Both sides take steps. -/
theorem Twins.serves {fd fd' : Int} (h : Twins m s s') (hs : Serves fd s t)
    (hs' : Serves fd' s' t') (hi : InStep m t t') : Twins m t t' :=
  ⟨hi, h.left.serves hs, h.right.serves hs'⟩

theorem Twins.serve {fd : Int} (h : Twins m s s') (hs : Serve fd s t) (hs' : Serve fd s' t')
    (hi : InStep m t t') : Twins m t t' :=
  h.serves (Relation.ReflTransGen.single hs) (Relation.ReflTransGen.single hs') hi

/-- One side takes steps. -/
theorem Sound.unseen {fd : Int} (h : Sound m s) (hs : Serves fd s t) (hi : InStep m s t) :
    Twins m s t :=
  ⟨hi, h, h.serves hs⟩

theorem Sound.sendUnseen (h : Sound m s) (message : Response) :
    Twins m s (s.sendTo m message) :=
  ⟨sendTo_unseen h.modest h.base message, h, h.sendTo m message⟩

/-- **Sending the same message in both states**, to whomever. -/
theorem Twins.sendTo (h : Twins m s s') (dest : Int) (message : Response) :
    Twins m (s.sendTo dest message) (s'.sendTo dest message) := by
  by_cases hdest : dest = m
  · subst hdest
    exact ((h.left.sendUnseen message).symm.trans h).trans (h.right.sendUnseen message)
  · exact ⟨h.inStep.sendTo h.left.base h.left.registry.book h.right.registry.book hdest message,
      h.left.sendTo dest message, h.right.sendTo dest message⟩

/-- **Two market-data clients can be served in either order.**  Neither send can be
noticed by anyone but its own client, so each of the two clients may in turn play the
part of the one that is left out. -/
theorem sendTo_comm (h : Sound m s) {a b : Int} (ha : Watcher a s) (hb : Watcher b s)
    (message : Response) :
    Twins m ((s.sendTo a message).sendTo b message)
      ((s.sendTo b message).sendTo a message) := by
  by_cases hab : a = b
  · subst hab
    exact Twins.refl ((h.sendTo a message).sendTo a message)
  · have hsa : Sound a s := ⟨h.base, h.registry, ha⟩
    have hsb : Sound b s := ⟨h.base, h.registry, hb⟩
    have hwithoutA : Twins a ((s.sendTo a message).sendTo b message)
        ((s.sendTo b message).sendTo a message) :=
      ((hsa.sendUnseen message).sendTo b message).symm.trans
        ((hsa.sendTo b message).sendUnseen message)
    have hwithoutB : Twins b ((s.sendTo a message).sendTo b message)
        ((s.sendTo b message).sendTo a message) :=
      ((hsb.sendTo a message).sendUnseen message).symm.trans
        ((hsb.sendUnseen message).sendTo a message)
    exact ⟨hwithoutA.inStep.of_two hab hwithoutB.inStep, (h.sendTo a message).sendTo b message,
      (h.sendTo b message).sendTo a message⟩

end Twins

/-! ## Publishing -/

namespace ExchangeServer

/-- The same message to each of a list of clients. -/
def fanOut (message : Response) (s : ExchangeServer) (fds : List Int) : ExchangeServer :=
  Loop.run (fun s fd => s.sendTo fd message) s fds

/-- The server when the two parties of an execution have been told. -/
def tellParties (s : ExchangeServer) (e : TradeExecution) : ExchangeServer :=
  (s.sendTo e.buyerFd (boughtOf e)).sendTo e.sellerFd (soldOf e)

/-- The subscribers of an instrument, as they are walked. -/
def audience (s : ExchangeServer) (instrument : Bytes) : List Int :=
  s.kernel.order.walk (subscribersOf s.subscribers instrument)

end ExchangeServer

theorem publish_eq_fanOut (s : ExchangeServer) (e : TradeExecution) :
    s.publish e = (s.tellParties e).fanOut (tradeOf e)
      ((s.tellParties e).audience e.instrument) := by
  unfold publish audience subscribersOf
  dsimp only
  cases h : (s.tellParties e).subscribers.lookup e.instrument with
  | none =>
      have hempty : (s.tellParties e).kernel.order.walk (Option.getD none [] : List Int) = [] :=
        ((s.tellParties e).kernel.order.walk_perm []).eq_nil
      unfold tellParties at h hempty ⊢
      unfold boughtOf soldOf at h hempty ⊢
      rw [h, hempty]
      rfl
  | some targets =>
      unfold tellParties boughtOf soldOf at h ⊢
      rw [h]
      rfl

section Publish

variable {m : Int} {s s' : ExchangeServer}

theorem Twins.fanOut (h : Twins m s s') (message : Response) (fds : List Int) :
    Twins m (s.fanOut message fds) (s'.fanOut message fds) :=
  Loop.run_related (P := fun _ => True) (fun _ _ fd _ h => h.sendTo fd message) h
    fun _ _ => trivial

/-- The clients may be served in any order. -/
private theorem fanOut_perm (h : Sound m s) (message : Response) {fds fds' : List Int}
    (hperm : fds.Perm fds') (hw : ∀ fd ∈ fds, Watcher fd s) :
    Twins m (s.fanOut message fds) (s.fanOut message fds') := by
  refine Loop.run_perm (I := fun s => Sound m s ∧ ∀ fd ∈ fds, Watcher fd s)
    (P := fun fd => fd ∈ fds) ?_ (fun _ hs => Twins.refl hs.1) Twins.trans
    (fun _ _ fd _ h => h.sendTo fd message)
    (fun _ a b ha hb hs => sendTo_comm hs.1 (hs.2 a ha) (hs.2 b hb) message) hperm ⟨h, hw⟩
    (fun _ hfd => hfd)
  rintro s fd _ ⟨hs, hw⟩
  refine ⟨hs.sendTo fd message, fun fd' hfd' => ?_⟩
  have hs' : Sound fd' s := ⟨hs.base, hs.registry, hw fd' hfd'⟩
  exact (hs'.sendTo fd message).watcher

/-- Leaving out `m`. -/
private theorem fanOut_without (h : Sound m s) (message : Response) (fds : List Int) :
    Twins m (s.fanOut message fds) (s.fanOut message (fds.filter (· ≠ m))) := by
  induction fds generalizing s with
  | nil => exact Twins.refl h
  | cons fd fds ih =>
      have hrest := ih (h.sendTo fd message)
      by_cases hfd : fd = m
      · subst hfd
        rw [List.filter_cons_of_neg (by simp)]
        exact hrest.trans ((h.sendUnseen message).symm.fanOut message _)
      · rw [List.filter_cons_of_pos (by simpa using hfd)]
        exact hrest

/-- The audience is the same but for `m`. -/
private theorem Twins.audience (h : Twins m s s') (instrument : Bytes) :
    ((s.audience instrument).filter (· ≠ m)).Perm
      ((s'.audience instrument).filter (· ≠ m)) := by
  have hnodup : ∀ s, Sound m s → ((s.audience instrument).filter (· ≠ m)).Nodup := by
    intro s hs
    refine List.Nodup.filter _ ?_
    exact (s.kernel.order.walk_perm _).nodup_iff.mpr (hs.registry.subscriber_nodup instrument)
  refine (List.perm_ext_iff_of_nodup (hnodup s h.left) (hnodup s' h.right)).mpr fun fd => ?_
  rw [List.mem_filter, List.mem_filter]
  refine and_congr_left fun hne => ?_
  have hne' : fd ≠ m := by simpa using hne
  rw [ExchangeServer.audience, ExchangeServer.audience, HashOrder.mem_walk, HashOrder.mem_walk,
    h.left.registry.subscriber_iff, h.right.registry.subscriber_iff, h.inStep.session fd hne']

/-- The audience consists of market-data clients. -/
private theorem audience_watchers (h : Sound m s) {instrument : Bytes} {fd : Int}
    (hfd : fd ∈ s.audience instrument) : Watcher fd s := by
  rw [ExchangeServer.audience, HashOrder.mem_walk, h.registry.subscriber_iff] at hfd
  obtain ⟨session, hsession, hmem⟩ := hfd
  intro x hx
  rw [hsession] at hx
  cases hx
  exact h.registry.subscriber_role fd session hsession instrument hmem

/-- **One execution is published in both states.**  Whether `m` is among the subscribers,
and what becomes of it there, makes no difference. -/
theorem Twins.publish (h : Twins m s s') (e : TradeExecution) :
    Twins m (s.publish e) (s'.publish e) := by
  have hparties : Twins m (s.tellParties e) (s'.tellParties e) :=
    (h.sendTo e.buyerFd (boughtOf e)).sendTo e.sellerFd (soldOf e)
  rw [publish_eq_fanOut, publish_eq_fanOut]
  refine (fanOut_without hparties.left (tradeOf e) _).trans ?_
  refine (hparties.fanOut (tradeOf e) _).trans ?_
  refine (fanOut_perm hparties.right (tradeOf e) (hparties.audience e.instrument) ?_).trans
    (fanOut_without hparties.right (tradeOf e) _).symm
  intro fd hfd
  have hmem := ((hparties.audience e.instrument).mem_iff).mp hfd
  exact audience_watchers hparties.right (List.mem_of_mem_filter hmem)

theorem Twins.publishAll (h : Twins m s s') {fd : Int} (hne : fd ≠ m)
    (es : List TradeExecution) :
    Twins m (publishAll fd es s) (ExchangeServer.publishAll fd es s') := by
  induction es generalizing s s' with
  | nil => exact h
  | cons e es ih =>
      have hpublish := h.publish e
      unfold ExchangeServer.publishAll
      dsimp only
      rw [← hpublish.inStep.connected hne]
      split
      · exact hpublish
      · exact ih hpublish

end Publish

/-! ## A line of somebody else -/

section Lines

variable {m : Int} {s s' : ExchangeServer} (h : Twins m s s') {fd : Int} (hne : fd ≠ m)
  {session : ClientSession} (hsession : s.sessions.lookup fd = some session)

include h

private theorem Twins.act {t t' : ExchangeServer} (ha : Act fd s t) (ha' : Act fd s' t')
    (hi : InStep m t t') : Twins m t t' :=
  h.serve (Serve.act _ ha) (Serve.act _ ha') hi

include hne hsession

theorem Twins.lookup : s'.sessions.lookup fd = some session :=
  (h.inStep.session fd hne).symm.trans hsession

private theorem rejectWrongRole_paired (required : ClientRole) (type : CommandType) :
    ((session.role = .unknown ∨ session.role = required) ∧
      s.rejectWrongRole fd required type = (s, false) ∧
      s'.rejectWrongRole fd required type = (s', false)) ∨
    ∃ reason, s.rejectWrongRole fd required type = (s.sendTo fd (.error reason), true) ∧
      s'.rejectWrongRole fd required type = (s'.sendTo fd (.error reason), true) := by
  unfold rejectWrongRole
  rw [sessionAt_of_lookup hsession, sessionAt_of_lookup (h.lookup hne hsession)]
  dsimp only
  split
  · next hrole => exact Or.inl ⟨hrole, rfl, rfl⟩
  · exact Or.inr ⟨_, rfl, rfl⟩

private theorem requireLoggedInTrader_paired (type : CommandType) :
    ((session.role = .unknown ∨ session.role = .trader) ∧ session.loggedIn = true ∧
      s.requireLoggedInTrader fd type = (s, true) ∧
      s'.requireLoggedInTrader fd type = (s', true)) ∨
    ∃ reason, s.requireLoggedInTrader fd type = (s.sendTo fd (.error reason), false) ∧
      s'.requireLoggedInTrader fd type = (s'.sendTo fd (.error reason), false) := by
  unfold requireLoggedInTrader
  rcases rejectWrongRole_paired h hne hsession .trader type with
    ⟨hrole, hpass, hpass'⟩ | ⟨reason, hreject, hreject'⟩
  · rw [hpass, hpass']
    dsimp only
    rw [sessionAt_of_lookup hsession, sessionAt_of_lookup (h.lookup hne hsession)]
    dsimp only
    cases hin : session.loggedIn with
    | false => exact Or.inr ⟨_, rfl, rfl⟩
    | true => exact Or.inl ⟨hrole, rfl, rfl, rfl⟩
  · rw [hreject, hreject']
    exact Or.inr ⟨reason, rfl, rfl⟩

private theorem Twins.login {username : Bytes}
    (hrole : session.role = .unknown ∨ session.role = .trader)
    (hout : session.loggedIn = false) (hfree : username ∉ s.usernames) :
    Twins m
      ({ s.putSession fd
          { session with role := .trader, username := username, loggedIn := true } with
        usernames := s.usernames.insert username }.observe (.loggedIn fd username))
      ({ s'.putSession fd
          { session with role := .trader, username := username, loggedIn := true } with
        usernames := s'.usernames.insert username }.observe (.loggedIn fd username)) := by
  have hfree' : username ∉ s'.usernames := by
    rw [← h.inStep.usernames]
    exact hfree
  refine h.act (Act.login s session username hsession hrole hout hfree)
    (Act.login s' session username (h.lookup hne hsession) hrole hout hfree') ?_
  have hnoted := (h.inStep.put fd
    { session with role := .trader, username := username, loggedIn := true }).observe
      (.loggedIn fd username)
  exact
    { hnoted with
      usernames := by
        show s.usernames.insert username = s'.usernames.insert username
        rw [h.inStep.usernames] }

theorem Twins.handleLogin (cmd : ParsedCommand) :
    Twins m (s.handleLogin fd cmd) (s'.handleLogin fd cmd) := by
  unfold ExchangeServer.handleLogin
  rcases rejectWrongRole_paired h hne hsession .trader cmd.type with
    ⟨hrole, hpass, hpass'⟩ | ⟨reason, hreject, hreject'⟩
  · rw [hpass, hpass']
    dsimp only
    rw [sessionAt_of_lookup hsession, sessionAt_of_lookup (h.lookup hne hsession)]
    dsimp only
    rw [← h.inStep.usernames]
    split
    · next hfalse => exact absurd hfalse (by decide)
    · split
      · exact h.sendTo fd _
      · next hout =>
        split
        · exact h.sendTo fd _
        · next hfree =>
          exact (h.login hne hsession hrole (by simpa using hout) hfree).sendTo fd .ok
  · rw [hreject, hreject']
    exact h.sendTo fd _

theorem Twins.handleSubscription (cmd : ParsedCommand) :
    Twins m (s.handleSubscription fd cmd) (s'.handleSubscription fd cmd) := by
  have hsession' := h.lookup hne hsession
  unfold ExchangeServer.handleSubscription
  rcases rejectWrongRole_paired h hne hsession .marketData cmd.type with
    ⟨hrole, hpass, hpass'⟩ | ⟨reason, hreject, hreject'⟩
  · rw [hpass, hpass']
    dsimp only
    rw [sessionAt_of_lookup hsession, sessionAt_of_lookup hsession']
    dsimp only
    split
    · next hfalse => exact absurd hfalse (by decide)
    · split
      · exact h.sendTo fd _
      · next hin =>
        split
        · refine (h.act (Act.subscribe s session cmd.instrument hsession hrole)
            (Act.subscribe s' session cmd.instrument hsession' hrole) ?_).sendTo fd .ok
          exact { (h.inStep.put fd _).observe (.subscribed fd cmd.instrument) with }
        · next htype =>
          have hmem : cmd.instrument ∈ session.subscriptions := by
            by_contra hnot
            exact hin ⟨htype, hnot⟩
          refine (h.act (Act.unsubscribe s session cmd.instrument hsession hrole hmem)
            (Act.unsubscribe s' session cmd.instrument hsession' hrole hmem) ?_).sendTo fd .ok
          exact { (h.inStep.put fd _).observe (.unsubscribed fd cmd.instrument) with }
  · rw [hreject, hreject']
    exact h.sendTo fd _

omit hne hsession in
/-- The two orders get the same id and are executed alike. -/
private theorem Twins.addResult (fd : Int) (cmd : ParsedCommand) :
    (s.addResult fd cmd).orderId = (s'.addResult fd cmd).orderId ∧
      (s.addResult fd cmd).fills = (s'.addResult fd cmd).fills ∧
      SameBook (s.addResult fd cmd).book (s'.addResult fd cmd).book :=
  ⟨h.inStep.book.nextOrderId, h.inStep.book.addOrder_fills _ _ _ _ _,
    h.inStep.book.addOrder _ _ _ _ _ h.left.registry.book h.right.registry.book⟩

omit hne hsession in
private theorem InStep.submit (fd : Int) (cmd : ParsedCommand) :
    InStep m (s.submit fd cmd) (s'.submit fd cmd) := by
  obtain ⟨hid, hfills, hbook⟩ := h.addResult fd cmd
  unfold ExchangeServer.submit
  dsimp only
  rw [← hid, ← hfills]
  exact { h.inStep.observe _ with book := hbook }

theorem Twins.handleOrder (cmd : ParsedCommand) (hcmd : 0 < cmd.quantity) :
    Twins m (s.handleOrder fd cmd) (s'.handleOrder fd cmd) := by
  unfold ExchangeServer.handleOrder
  rcases requireLoggedInTrader_paired h hne hsession cmd.type with
    ⟨hrole, hin, hpass, hpass'⟩ | ⟨reason, hreject, hreject'⟩
  · obtain ⟨hid, hfills, _⟩ := h.addResult fd cmd
    have hsubmit := h.act (Act.submit s session cmd hsession hrole hin hcmd)
      (Act.submit s' session cmd (h.lookup hne hsession) hrole hin hcmd)
      (InStep.submit h fd cmd)
    have hexecutions : (s.addResult fd cmd).executions = (s'.addResult fd cmd).executions := by
      rw [AddResult.executions, AddResult.executions, hfills]
    rw [hpass, hpass']
    dsimp only
    rw [← hid, ← hexecutions]
    exact (hsubmit.sendTo fd _).publishAll hne _
  · rw [hreject, hreject']
    exact h.sendTo fd _

theorem Twins.handleCancel (cmd : ParsedCommand) :
    Twins m (s.handleCancel fd cmd) (s'.handleCancel fd cmd) := by
  unfold ExchangeServer.handleCancel
  rcases requireLoggedInTrader_paired h hne hsession cmd.type with
    ⟨hrole, hin, hpass, hpass'⟩ | ⟨reason, hreject, hreject'⟩
  · obtain ⟨hok, herror⟩ := h.inStep.book.cancelOrder_answer cmd.orderId fd
    have hbook := h.inStep.book.cancelOrder h.left.registry.book h.right.registry.book
      cmd.orderId fd
    rw [hpass, hpass']
    dsimp only
    rw [← hok, ← herror]
    cases hgranted : (s.book.cancelOrder cmd.orderId fd).ok with
    | true =>
        refine (h.act (Act.cancel s session cmd.orderId hsession hin hgranted)
          (Act.cancel s' session cmd.orderId (h.lookup hne hsession) hin
            (hok.symm.trans hgranted)) ?_).sendTo fd _
        exact { h.inStep.observe (.cancelled fd cmd.orderId) with book := hbook }
    | false =>
        rw [cancelOrder_book_of_not_ok hgranted,
          cancelOrder_book_of_not_ok (hok.symm.trans hgranted)]
        exact h.sendTo fd _
  · rw [hreject, hreject']
    exact h.sendTo fd _

omit hsession in
theorem Twins.beginOrderlyClose (reason : DropReason) :
    Twins m (s.beginOrderlyClose fd reason) (s'.beginOrderlyClose fd reason) :=
  h.serves (beginOrderlyClose_acts fd reason).serves (beginOrderlyClose_acts fd reason).serves
    (h.inStep.beginOrderlyClose h.left.registry.book h.right.registry.book hne reason)

/-- **The same line in both states.** -/
theorem Twins.handleMessage (line : Bytes) :
    Twins m (s.handleMessage fd line) (s'.handleMessage fd line) := by
  unfold ExchangeServer.handleMessage
  dsimp only
  split
  · exact h.sendTo fd _
  · next hvalid =>
    have hvalid' : (parse line).valid = true := by simpa using hvalid
    split
    · exact h.beginOrderlyClose hne .quit
    · exact h.handleLogin hne hsession _
    · exact h.handleSubscription hne hsession _
    · exact h.handleSubscription hne hsession _
    · next htype =>
      exact h.handleOrder hne hsession _ (parse_order_pos hvalid' (Or.inl htype)).1
    · next htype =>
      exact h.handleOrder hne hsession _ (parse_order_pos hvalid' (Or.inr htype)).1
    · exact h.handleCancel hne hsession _
    · exact h.sendTo fd _

end Lines

end SocketExchange.Server
