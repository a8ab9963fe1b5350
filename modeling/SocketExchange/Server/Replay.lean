import SocketExchange.Server.Beats
import SocketExchange.Server.Exchange
import SocketExchange.Server.Stretches

/-!
# The server and the exchange it stands for

Connections, lines and drops are happenings, and the trace has them in the order in which
they took place.  Playing them to the exchange gives its state; the server's tables hold
the same state, spread over `sessions_`, `usernames_`, `subscribers_` and `book_`.

A line changes the tables before anything is sent.  A client that is lost while the reply
and the notices go out is therefore one that leaves after the line, and the two accounts
agree at every moment between the two.
-/

namespace SocketExchange.Server

open SocketExchange.Lib
open SocketExchange.Lib.Bytes
open SocketExchange.Network
open SocketExchange.Protocol
open SocketExchange.Trading.OrderBook
open ExchangeServer

/-! ## Happenings -/

/-- What an observation of the server is to the exchange. -/
def Obs.happening : Obs → Option Happening
  | .accepted fd => some (.joins fd)
  | .refused fd => some (.leaves fd)
  | .dropped fd _ => some (.leaves fd)
  | .handling fd line => some (.speaks fd line)
  | _ => none

/-- The exchange, as the trace tells it. -/
def replay (trace : List Obs) : Exchange := exchange.after (trace.filterMap Obs.happening)

theorem replay_append_silent {trace new : List Obs} (h : ∀ o ∈ new, o.happening = none) :
    replay (trace ++ new) = replay trace := by
  rw [replay, replay, List.filterMap_append, List.filterMap_eq_nil_iff.mpr h, List.append_nil]

theorem replay_concat (trace : List Obs) {o : Obs} {happening : Happening}
    (h : o.happening = some happening) :
    replay (trace ++ [o]) = (replay trace).next happening := by
  have hlast : [o].filterMap Obs.happening = [happening] := by simp [h]
  rw [replay, List.filterMap_append, hlast]
  exact Loop.run_concat _ _ _ _

/-! ## The tables and the exchange -/

/-- What a session says about its client. -/
def memberOf (session : ClientSession) : Member :=
  match session.role with
  | .unknown => .guest
  | .trader => .trader session.username
  | .marketData => .watcher session.subscriptions

theorem memberOf_of_client {a b : ClientSession} (h : a.client = b.client) :
    memberOf a = memberOf b := by
  rw [memberOf, memberOf, role_of_client h, username_of_client h, subscriptions_of_client h]

/-- The tables of the server hold the state of the exchange. -/
structure Stands (s : ExchangeServer) (x : Exchange) : Prop where
  members : ∀ fd, x.members.lookup fd = (s.sessions.lookup fd).map memberOf
  market : Represents s.book x.market

/-- The server stands where its trace says the exchange is. -/
def Replayed (s : ExchangeServer) : Prop := Stands s (replay s.trace)

theorem lookup_enrol (x : Exchange) (fd fd' : Int) (member : Member) :
    (x.enrol fd member).members.lookup fd' =
      if fd' = fd then some member else x.members.lookup fd' := by
  by_cases h : fd' = fd
  · subst h
    rw [if_pos rfl]
    exact AList.lookup_insert _
  · rw [if_neg h]
    exact AList.lookup_insert_ne h

section Stands

variable {s s' : ExchangeServer} {x : Exchange} (h : Stands s x)

include h

/-- Nothing of what the exchange knows has changed. -/
theorem Stands.same (hsessions : s'.sessions = s.sessions) (hbook : s'.book = s.book) :
    Stands s' x where
  members := by
    rw [hsessions]
    exact h.members
  market := by
    rw [hbook]
    exact h.market

/-- A session was written, and its client is somebody new to the exchange. -/
theorem Stands.enrol {fd : Int} {session' : ClientSession} {member : Member}
    (hsessions : s'.sessions = s.sessions.insert fd session') (hmember : memberOf session' = member)
    (hbook : s'.book = s.book) : Stands s' (x.enrol fd member) where
  members := by
    intro fd'
    rw [hsessions, lookup_enrol, lookup_insert]
    split
    · rw [Option.map_some, hmember]
    · exact h.members fd'
  market := by
    rw [hbook]
    exact h.market

/-- A session was written, and its client is who it was. -/
theorem Stands.put {fd : Int} {session session' : ClientSession}
    (hlookup : s.sessions.lookup fd = some session)
    (hsessions : s'.sessions = s.sessions.insert fd session')
    (hmember : memberOf session' = memberOf session) (hbook : s'.book = s.book) :
    Stands s' x where
  members := by
    intro fd'
    rw [hsessions, lookup_insert, h.members]
    split
    · next heq => rw [heq, hlookup, Option.map_some, Option.map_some, hmember]
    · rfl
  market := by
    rw [hbook]
    exact h.market

/-- A client has left, and its orders with it. -/
theorem Stands.leave {fd : Int}
    (hsessions : ∀ fd', s'.sessions.lookup fd' = if fd' = fd then none else s.sessions.lookup fd')
    (hbook : Kept (fun o => decide (o.ownerFd ≠ fd)) s.book s'.book) :
    Stands s' (x.next (.leaves fd)) where
  members := by
    intro fd'
    rw [hsessions]
    show (x.members.erase fd).lookup fd' = _
    by_cases heq : fd' = fd
    · rw [if_pos heq, heq, AList.lookup_erase, Option.map_none]
    · rw [if_neg heq, AList.lookup_erase_ne heq, h.members]
  market := h.market.keep hbook

/-- The names of the traders. -/
theorem Stands.named (hr : Registry s) (username : Bytes) :
    x.named username = true ↔ username ∈ s.usernames := by
  have hmember : ∀ fd, x.members.lookup fd = some (.trader username) ↔ ∃ session,
      s.sessions.lookup fd = some session ∧ session.loggedIn = true ∧
        session.username = username := by
    intro fd
    rw [h.members, Option.map_eq_some_iff]
    refine exists_congr fun session => and_congr_right fun hsession => ?_
    rw [← hr.trader_iff fd session hsession, memberOf]
    cases session.role <;> simp
  rw [hr.username_iff, Exchange.named, List.any_eq_true]
  constructor
  · rintro ⟨⟨fd, member⟩, hmem, heq⟩
    obtain rfl : member = .trader username := of_decide_eq_true heq
    exact ⟨fd, (hmember fd).mp (AList.mem_lookup_iff.mpr hmem)⟩
  · rintro ⟨fd, hfd⟩
    exact ⟨⟨fd, _⟩, AList.mem_lookup_iff.mp ((hmember fd).mpr hfd), decide_eq_true rfl⟩

/-- The subscribers of an instrument. -/
theorem Stands.subscriber (hr : Registry s) (fd : Int) (instrument : Bytes) :
    fd ∈ subscribersOf s.subscribers instrument ↔
      ∃ instruments, x.members.lookup fd = some (.watcher instruments) ∧
        instrument ∈ instruments := by
  rw [hr.subscriber_iff, h.members]
  constructor
  · rintro ⟨session, hsession, hmem⟩
    refine ⟨session.subscriptions, ?_, hmem⟩
    rw [hsession, Option.map_some, memberOf, hr.subscriber_role fd session hsession _ hmem]
  · rintro ⟨instruments, hwatcher, hmem⟩
    obtain ⟨session, hsession, hmember⟩ := Option.map_eq_some_iff.mp hwatcher
    refine ⟨session, hsession, ?_⟩
    rw [memberOf] at hmember
    cases hrole : session.role with
    | unknown | trader =>
        rw [hrole] at hmember
        cases hmember
    | marketData =>
        rw [hrole] at hmember
        cases hmember
        exact hmem

end Stands

/-! ## What leaves the account right -/

/-- Observations the exchange does not hear of. -/
theorem replayed_of_silent {s s' : ExchangeServer} {new : List Obs}
    (htrace : s'.trace = s.trace ++ new) (hnew : ∀ o ∈ new, o.happening = none)
    (hstands : Stands s' (replay s.trace)) : Replayed s' := by
  rw [Replayed, htrace, replay_append_silent hnew]
  exact hstands

/-- One observation that is a happening. -/
theorem replayed_of_happening {s s' : ExchangeServer} {o : Obs} {happening : Happening}
    (htrace : s'.trace = s.trace ++ [o]) (ho : o.happening = some happening)
    (hstands : Stands s' ((replay s.trace).next happening)) : Replayed s' := by
  rw [Replayed, htrace, replay_concat _ ho]
  exact hstands

section Keeps

variable {s : ExchangeServer} (h : Replayed s)

include h

theorem Replayed.observe {o : Obs} (ho : o.happening = none) : Replayed (s.observe o) :=
  replayed_of_silent rfl (by simpa using ho) (h.same rfl rfl)

/-- A session is written, its client stays the same. -/
theorem Replayed.putSession {fd : Int} {session session' : ClientSession}
    (hlookup : s.sessions.lookup fd = some session)
    (hmember : memberOf session' = memberOf session) : Replayed (s.putSession fd session') :=
  Stands.put h hlookup rfl hmember rfl

theorem Replayed.relist (loop : EventLoop) : Replayed { s with loop := loop } :=
  Stands.same h rfl rfl

theorem Replayed.drop (fd : Int) (reason : DropReason) : Replayed (s.drop fd reason) := by
  cases hlookup : s.sessions.lookup fd with
  | none =>
      rw [drop_of_lookup_none hlookup]
      exact h
  | some session =>
      refine replayed_of_happening (drop_trace hlookup reason) rfl
        (Stands.leave h (drop_sessions s fd reason) ?_)
      have hbook : (s.drop fd reason).book = s.book.removeOrdersOf s.kernel.order fd := by
        simp [ExchangeServer.drop, hlookup]
      rw [hbook]
      exact removeOrdersOf_kept s.kernel.order h.market.wf fd

theorem Replayed.written {key : Int} {session : ClientSession}
    (hlookup : s.sessions.lookup key = some session) (fd : Int) (script : List SendOutcome) :
    Replayed (s.written key fd (session.flush script)) :=
  replayed_of_silent rfl (by simp [Obs.happening])
    (Stands.put h hlookup rfl (memberOf_of_client (flush_client session script)) rfl)

theorem Replayed.flush {key : Int} {session : ClientSession}
    (hlookup : s.sessions.lookup key = some session) : Replayed (s.flush key session) := by
  have hwritten := h.written hlookup session.fd (s.kernel.sends session.fd)
  unfold ExchangeServer.flush
  dsimp only
  split
  · exact hwritten.drop _ _
  · exact hwritten.relist _
  · exact hwritten

theorem Replayed.sendTo (dest : Int) (message : Response) : Replayed (s.sendTo dest message) := by
  unfold ExchangeServer.sendTo
  split
  · exact h
  · next session hlookup =>
    have hqueued : Replayed ((s.putSession dest (session.append message.render)).observe
        (.queued dest message)) :=
      (h.putSession hlookup (memberOf_of_client (append_client _ _))).observe rfl
    refine hqueued.flush ?_
    simp [ExchangeServer.observe, ExchangeServer.putSession]

theorem Replayed.onWritable (fd : Int) : Replayed (s.onWritable fd) := by
  unfold ExchangeServer.onWritable
  split
  · exact h
  · next session hlookup => exact h.flush hlookup

theorem Replayed.beginOrderlyClose (fd : Int) (reason : DropReason) :
    Replayed (s.beginOrderlyClose fd reason) := by
  unfold ExchangeServer.beginOrderlyClose
  split
  · exact h
  · next session hlookup =>
    set leaving := { session with closing := true, inbuf := [] }
    have hmember : memberOf leaving = memberOf session := rfl
    have hput : Replayed ((s.putSession fd leaving).observe (.leaving fd reason)) :=
      (h.putSession hlookup hmember).observe rfl
    have hlookup' : ((s.putSession fd leaving).observe (.leaving fd reason)).sessions.lookup fd =
        some leaving := by
      simp [ExchangeServer.observe, ExchangeServer.putSession]
    dsimp only
    split
    · exact hput.drop fd reason
    · exact Replayed.relist (hput.putSession hlookup' (by rfl)) _

theorem Replayed.settle (hb : Base s) (fd : Int) (reply : Response) (es : List TradeExecution) :
    Replayed (settle s fd reply es) :=
  settle_invariant (I := Replayed) (M := fun _ _ => True)
    (fun _ dest message _ _ h => h.sendTo dest message) hb h trivial fun e _ => noticesAre_any e

theorem Replayed.closeFd (fd : Int) : Replayed (s.closeFd fd) :=
  replayed_of_silent rfl (by simp [Obs.happening]) (h.same rfl rfl)

/-- A connection comes, and is given up again if the event loop does not take it. -/
theorem Replayed.accept {fd : Int} (hnone : s.sessions.lookup fd = none) (peer : Bytes)
    (hr : Registry s) : Replayed ((s.welcome fd peer).register fd) := by
  have hwelcome : Replayed (s.welcome fd peer) :=
    replayed_of_happening (s := s) (o := .accepted fd) rfl rfl (Stands.enrol h rfl rfl rfl)
  unfold register
  dsimp only
  split
  · exact hwelcome.relist _
  · refine Replayed.closeFd ?_ fd
    refine replayed_of_happening (s := s.welcome fd peer) (o := .refused fd) rfl rfl
      (Stands.leave hwelcome (lookup_erase _ fd) ?_)
    -- somebody who has just come has no orders
    refine (kept_refl hwelcome.market.wf).congr fun q n hn => ?_
    have howner : n.order.ownerFd ≠ fd := by
      rintro rfl
      obtain ⟨session, hsession, _⟩ := hr.owner q n hn
      rw [hnone] at hsession
      cases hsession
    simp [howner]

end Keeps

/-! ## A line -/

/-- The server and the exchange make the same of a line: the same change, the same reply
and the same executions. -/
def Heard (fd : Int) (line : Bytes) (s s' : ExchangeServer) (v : Verdict) : Prop :=
  ∃ s₁ reply, v.reply = some reply ∧ Effect fd line s s₁ reply v.executions ∧
    s' = settle s₁ fd reply v.executions ∧ Stands s₁ v.exchange

section Line

variable {s : ExchangeServer} {x : Exchange} (hx : Stands s x) {fd : Int}
  {session : ClientSession} (h : s.sessions.lookup fd = some session)

include h

omit hx in
theorem rejectWrongRole_of_permitted {required : ClientRole}
    (hrole : session.role = .unknown ∨ session.role = required) (type : CommandType) :
    s.rejectWrongRole fd required type = (s, false) := by
  unfold rejectWrongRole
  rw [sessionAt_of_lookup h]
  exact if_pos hrole

omit hx in
theorem rejectWrongRole_of_watcher (hrole : session.role = .marketData) (type : CommandType) :
    s.rejectWrongRole fd .trader type = (s.sendTo fd (.error (verb type ++
      ascii " is not permitted for a " ++ ascii "market-data" ++ ascii " client")), true) := by
  unfold rejectWrongRole
  rw [sessionAt_of_lookup h]
  simp [hrole]

omit hx in
theorem rejectWrongRole_of_trader (hrole : session.role = .trader) (type : CommandType) :
    s.rejectWrongRole fd .marketData type = (s.sendTo fd (.error (verb type ++
      ascii " is not permitted for a " ++ ascii "trader" ++ ascii " client")), true) := by
  unfold rejectWrongRole
  rw [sessionAt_of_lookup h]
  simp [hrole]

omit hx in
/-- Nobody is logged in without a role. -/
theorem loggedIn_of_unknown (hr : Registry s) (hrole : session.role = .unknown) :
    session.loggedIn = false := by
  cases hin : session.loggedIn with
  | false => rfl
  | true =>
      rw [(hr.trader_iff fd session h).mpr hin] at hrole
      cases hrole

include hx

/-- A refusal changes nothing. -/
theorem Stands.refuse (line : Bytes) {reason : Bytes} (hplain : Plain session.username → Plain reason) :
    Heard fd line s (s.sendTo fd (.error reason)) (x.refuse reason) :=
  ⟨s, _, rfl, .refuse session reason h hplain, rfl, hx⟩

/-- A command for the other kind of client. -/
theorem Stands.misplaced (line : Bytes) (type : CommandType) {actual : Bytes} (hplain : Plain actual) :
    Heard fd line s (s.sendTo fd (.error (verb type ++ ascii " is not permitted for a " ++ actual ++
      ascii " client"))) (x.misplaced type actual) :=
  hx.refuse h line fun _ =>
    (((plain_verb type).append (by decide)).append hplain).append (by decide)

theorem Stands.login (hr : Registry s) (line : Bytes) :
    Heard fd line s (s.handleLogin fd (parse line)) (x.login fd (memberOf session) (parse line)) := by
  have harg := (plain_parse line).arg 0
  rw [handleLogin, memberOf]
  cases hrole : session.role with
  | marketData =>
      rw [rejectWrongRole_of_watcher h hrole]
      exact hx.misplaced h line _ (by decide)
  | trader =>
      have hin := (hr.trader_iff fd session h).mp hrole
      rw [rejectWrongRole_of_permitted h (Or.inr hrole)]
      simp only [sessionAt_of_lookup h, hin, Bool.false_eq_true, if_false, if_true]
      exact hx.refuse h line fun hname => Plain.append (by decide) hname
  | unknown =>
      have hout := loggedIn_of_unknown h hr hrole
      have hnamed := hx.named hr ((parse line).arg 0)
      rw [rejectWrongRole_of_permitted h (Or.inl hrole)]
      simp only [sessionAt_of_lookup h, hout, Bool.false_eq_true, if_false, Exchange.login]
      by_cases htaken : (parse line).arg 0 ∈ s.usernames
      · rw [if_pos htaken, if_pos (hnamed.mpr htaken)]
        exact hx.refuse h line fun _ => (Plain.append (by decide) harg).append (by decide)
      · rw [if_neg htaken, if_neg fun hyes => htaken (hnamed.mp hyes)]
        exact ⟨_, _, rfl, .login session _ h (Or.inl hrole) hout htaken harg, rfl,
          hx.enrol rfl rfl rfl⟩

omit hx in
/-- A guest has no subscriptions, so guests and watchers are treated alike. -/
theorem watch_memberOf (hr : Registry s) (hrole : session.role = .unknown ∨ session.role = .marketData)
    (cmd : ParsedCommand) (act : List Bytes → ParsedCommand → Verdict) :
    x.watch (memberOf session) cmd act = act session.subscriptions cmd := by
  rw [memberOf]
  rcases hrole with hrole | hrole
  · have hnone : session.subscriptions = [] := by
      rw [List.eq_nil_iff_forall_not_mem]
      intro instrument hmem
      rw [hr.subscriber_role fd session h instrument hmem] at hrole
      cases hrole
    rw [hrole, hnone]
    rfl
  · rw [hrole]
    rfl

omit hx h in
theorem memberOf_assumeMarketData (hrole : session.role = .unknown ∨ session.role = .marketData)
    (instruments : List Bytes) :
    memberOf { assumeMarketData session with subscriptions := instruments } =
      .watcher instruments := by
  rcases hrole with hrole | hrole
  · simp [memberOf, assumeMarketData, hrole]
  · simp [memberOf, assumeMarketData, hrole]

omit hx h in
theorem trader_of_not_permitted (hrole : ¬ (session.role = .unknown ∨ session.role = .marketData)) :
    session.role = .trader := by
  cases hcase : session.role with
  | unknown => exact absurd (Or.inl hcase) hrole
  | trader => rfl
  | marketData => exact absurd (Or.inr hcase) hrole

theorem Stands.subscribe (hr : Registry s) (line : Bytes) (htype : (parse line).type = .subscribe) :
    Heard fd line s (s.handleSubscription fd (parse line))
      (x.watch (memberOf session) (parse line) (x.subscribe fd)) := by
  rw [handleSubscription]
  by_cases hrole : session.role = .unknown ∨ session.role = .marketData
  · rw [watch_memberOf h hr hrole, rejectWrongRole_of_permitted h hrole]
    simp only [sessionAt_of_lookup h, htype, ne_eq, not_true_eq_false, false_and, if_false, if_true,
      Bool.false_eq_true]
    refine ⟨_, _, rfl, .subscribe session _ h hrole, rfl, hx.enrol rfl ?_ rfl⟩
    rw [(assumeMarketData_rest session).2.2]
    exact memberOf_assumeMarketData hrole _
  · have htrader := trader_of_not_permitted hrole
    rw [memberOf, htrader, rejectWrongRole_of_trader h htrader]
    exact hx.misplaced h line _ (by decide)

theorem Stands.unsubscribe (hr : Registry s) (line : Bytes)
    (htype : (parse line).type = .unsubscribe) :
    Heard fd line s (s.handleSubscription fd (parse line))
      (x.watch (memberOf session) (parse line) (x.unsubscribe fd)) := by
  rw [handleSubscription]
  by_cases hrole : session.role = .unknown ∨ session.role = .marketData
  · rw [watch_memberOf h hr hrole, rejectWrongRole_of_permitted h hrole]
    simp only [sessionAt_of_lookup h, htype, ne_eq, reduceCtorEq, not_false_eq_true, true_and, if_false,
      Bool.false_eq_true, Exchange.unsubscribe]
    by_cases hin : (parse line).instrument ∈ session.subscriptions
    · have hlisted : session.subscriptions.contains (parse line).instrument = true :=
        List.contains_iff_mem.mpr hin
      rw [if_neg (not_not.mpr hin), if_neg (by rw [hlisted]; decide)]
      refine ⟨_, _, rfl, .unsubscribe session _ h hrole hin, rfl, hx.enrol rfl ?_ rfl⟩
      rw [(assumeMarketData_rest session).2.2]
      exact memberOf_assumeMarketData hrole _
    · have hlisted : session.subscriptions.contains (parse line).instrument = false :=
        Bool.eq_false_iff.mpr (mt List.contains_iff_mem.mp hin)
      rw [if_pos hin, if_pos (by rw [hlisted]; decide)]
      exact hx.refuse h line fun _ => Plain.append (by decide) (plain_parse line).instrument
  · have htrader := trader_of_not_permitted hrole
    rw [memberOf, htrader, rejectWrongRole_of_trader h htrader]
    exact hx.misplaced h line _ (by decide)

/-- A trading command is for traders, and what it does is then up to the market. -/
theorem Stands.trade (hr : Registry s) (line : Bytes) {act : Verdict}
    {k : ExchangeServer → ExchangeServer}
    (hk : session.role = .trader → session.loggedIn = true → Heard fd line s (k s) act) :
    Heard fd line s
      (if !(s.requireLoggedInTrader fd (parse line).type).2
        then (s.requireLoggedInTrader fd (parse line).type).1
        else k (s.requireLoggedInTrader fd (parse line).type).1)
      (x.trade (memberOf session) (parse line) act) := by
  rw [requireLoggedInTrader, memberOf]
  cases hrole : session.role with
  | marketData =>
      rw [rejectWrongRole_of_watcher h hrole]
      exact hx.misplaced h line _ (by decide)
  | unknown =>
      have hout := loggedIn_of_unknown h hr hrole
      rw [rejectWrongRole_of_permitted h (Or.inl hrole)]
      simp only [sessionAt_of_lookup h, hout, Bool.false_eq_true, if_false, Bool.not_false, if_true]
      exact hx.refuse h line fun _ => by decide
  | trader =>
      have hin := (hr.trader_iff fd session h).mp hrole
      rw [rejectWrongRole_of_permitted h (Or.inr hrole)]
      simp only [sessionAt_of_lookup h, hin, Bool.false_eq_true, if_false, Bool.not_true]
      exact hk hrole hin

theorem Stands.order (hr : Registry s) (line : Bytes) (hpos : 0 < (parse line).quantity) :
    Heard fd line s (s.handleOrder fd (parse line)) (x.trade (memberOf session) (parse line)
      (x.order fd (sideOf (parse line).type) (parse line))) := by
  refine hx.trade (k := fun s => publishAll fd (s.addResult fd (parse line)).executions
    ((s.submit fd (parse line)).sendTo fd (.orderAccepted (s.addResult fd (parse line)).orderId)))
    h hr line fun hrole hin => ?_
  have hincoming := hx.market.incoming fd (parse line).instrument (sideOf (parse line).type)
    (parse line).price
  have htakings := hx.market.takings fd (parse line).instrument (sideOf (parse line).type)
    (parse line).quantity (parse line).price
  have hexecutions : (x.order fd (sideOf (parse line).type) (parse line)).executions =
      (s.addResult fd (parse line)).executions := by
    rw [Exchange.order, hincoming, htakings, AddResult.executions, addResult, addOrder_fills]
  have hreply : (x.order fd (sideOf (parse line).type) (parse line)).reply =
      some (.orderAccepted (s.addResult fd (parse line)).orderId) := by
    rw [Exchange.order, hincoming]
    rfl
  rw [Heard, hexecutions, hreply]
  exact ⟨_, _, rfl, .order session h (Or.inr hrole) hin hpos, rfl, hx.members,
    hx.market.addOrder _ _ _ _ _⟩

omit hx h in
private theorem plain_cancelAnswer {m : Market} {id requesterFd : Int} {reason : Bytes}
    (h : m.cancelAnswer id requesterFd = .refused reason) : Plain reason := by
  unfold Market.cancelAnswer at h
  split at h
  · cases h
    exact Plain.append (by decide) (plain_decimal id)
  · split at h
    · cases h
      exact (Plain.append (by decide) (plain_decimal id)).append (by decide)
    · cases h

theorem Stands.cancel (hr : Registry s) (line : Bytes) :
    Heard fd line s (s.handleCancel fd (parse line))
      (x.trade (memberOf session) (parse line) (x.cancel fd (parse line))) := by
  refine hx.trade (k := fun s =>
      let r := s.book.cancelOrder (parse line).orderId fd
      let s := { s with book := r.book }
      if r.ok then
        (s.observe (.cancelled fd (parse line).orderId)).sendTo fd
          (.orderCancelled (parse line).orderId)
      else s.sendTo fd (.error r.error)) h hr line fun hrole hin => ?_
  have hanswer := hx.market.cancelAnswer (parse line).orderId fd
  rw [Exchange.cancel, ← hanswer]
  cases hok : (s.book.cancelOrder (parse line).orderId fd).ok with
  | true =>
      simp only [hok, if_true]
      exact ⟨_, _, rfl, .cancel session _ h hin hok, rfl, hx.members, hx.market.cancelOrder _ _⟩
  | false =>
      rw [hok] at hanswer
      simp only [Bool.false_eq_true, if_false, hok, cancelOrder_book_of_not_ok hok] at hanswer ⊢
      exact hx.refuse h line fun _ => plain_cancelAnswer hanswer.symm

/-- **The server and the exchange hear the same line alike.** -/
theorem Stands.hear (hr : Registry s) {line : Bytes} (hquit : ¬ Quits line) :
    Heard fd line s (s.handleMessage fd line) (x.hear fd (memberOf session) line) := by
  unfold handleMessage Exchange.hear
  dsimp only
  by_cases hvalid : (parse line).valid = true
  · rw [if_neg (by simp [hvalid]), if_neg (by simp [hvalid])]
    cases htype : (parse line).type with
    | quit => exact absurd ⟨hvalid, htype⟩ hquit
    | login => exact hx.login h hr line
    | subscribe => exact hx.subscribe h hr line htype
    | unsubscribe => exact hx.unsubscribe h hr line htype
    | buy =>
        have horder := hx.order h hr line (parse_order_pos hvalid (Or.inl htype)).1
        rwa [htype] at horder
    | sell =>
        have horder := hx.order h hr line (parse_order_pos hvalid (Or.inr htype)).1
        rwa [htype] at horder
    | cancel => exact hx.cancel h hr line
    | unknown => exact hx.refuse h line fun _ => by decide
  · rw [if_pos (by simp [hvalid]), if_pos (by simp [hvalid])]
    exact hx.refuse h line fun _ => (plain_parse line).error

omit hx h in
/-- A QUIT changes nothing yet. -/
theorem hear_quit {line : Bytes} (hquit : Quits line) (member : Member) :
    x.hear fd member line = { exchange := x } := by
  simp [Exchange.hear, hquit.1, hquit.2]

end Line

/-- The record of what a line did is nothing new to the exchange. -/
theorem Prelude.uneventful {fd : Int} {pre : List Obs} {reply : Response} {es : List TradeExecution}
    (h : Prelude fd pre reply es) : ∀ o ∈ pre, o.happening = none := by
  cases h with
  | answer h => simp
  | @note o reply ho h =>
      intro o' ho'
      rw [List.mem_singleton.mp ho']
      cases o <;> first | rfl | cases ho
  | submit o quantity fills howner hpos => simp [Obs.happening]

theorem taken_lookup (s : ExchangeServer) (fd : Int) (session : ClientSession) (said tail : Bytes) :
    (s.taken fd session said tail).sessions.lookup fd = some { session with inbuf := tail } := by
  simp [ExchangeServer.taken, ExchangeServer.observe, ExchangeServer.putSession]

section HandleLine

variable {s : ExchangeServer} (h : Replayed s) (hb : Base s) (hr : Registry s) {fd : Int}
  {session : ClientSession} (hsession : s.sessions.lookup fd = some session) {line tail : Bytes}
  (hline : splitLine session.inbuf = some (line, tail))

include h hsession

/-- The line is taken up: nothing has changed but that it was said. -/
theorem Replayed.taken (said tail : Bytes) :
    Stands (s.taken fd session said tail) (replay s.trace) :=
  Stands.put h hsession rfl rfl rfl

/-- What the exchange makes of it. -/
theorem Replayed.verdict (said : Bytes) :
    (replay s.trace).verdict fd said = (replay s.trace).hear fd (memberOf session) said := by
  rw [Exchange.verdict, h.members, hsession]
  rfl

theorem Replayed.replay_taken (said tail : Bytes) :
    replay (s.taken fd session said tail).trace =
      ((replay s.trace).hear fd (memberOf session) said).exchange := by
  have htrace : (s.taken fd session said tail).trace = s.trace ++ [.handling fd said] := rfl
  have hspeaks : (Obs.handling fd said).happening = some (.speaks fd said) := rfl
  rw [htrace, replay_concat _ hspeaks, ← h.verdict hsession said]
  rfl

include hb hr hline

/-- **A line keeps the account right.** -/
theorem Replayed.handleLine :
    Replayed (s.handleLine fd session (stripCarriageReturn line) tail) := by
  have htake := Serve.take s session line tail hsession hline
  have hstands := h.taken hsession (stripCarriageReturn line) tail
  have hlookup := taken_lookup s fd session (stripCarriageReturn line) tail
  have hreplay := h.replay_taken hsession (stripCarriageReturn line) tail
  refine Replayed.observe ?_ rfl
  show Replayed ((s.taken fd session (stripCarriageReturn line) tail).handleMessage fd
    (stripCarriageReturn line))
  by_cases hquit : Quits (stripCarriageReturn line)
  · rw [hear_quit hquit] at hreplay
    rw [handleMessage_quit _ hquit]
    refine Replayed.beginOrderlyClose ?_ fd .quit
    rw [Replayed, hreplay]
    exact hstands
  · obtain ⟨s₁, reply, hreply, heffect, hhandle, hstands₁⟩ :=
      hstands.hear hlookup ((Move.serve _ htake).registry hr) hquit
    obtain ⟨pre, htrace, hpre⟩ := heffect.prelude
    rw [hhandle]
    refine Replayed.settle ?_ (heffect.acts.base (htake.base hb)) fd reply _
    rw [Replayed, htrace, replay_append_silent hpre.uneventful, hreplay]
    exact hstands₁

end HandleLine

/-! ## Runs -/

theorem Beat.replayed {s s' : ExchangeServer} (hbeat : Beat s s') (hb : Base s) (hr : Registry s)
    (h : Replayed s) : Replayed s' := by
  cases hbeat with
  | receive fd session bytes hsession hopen =>
      exact replayed_of_silent rfl (by simp [Obs.happening]) (Stands.put h hsession rfl rfl rfl)
  | line fd session line tail hsession hopen hline => exact h.handleLine hb hr hsession hline
  | oversized fd session hsession hopen =>
      exact (h.sendTo fd oversizedMessage).beginOrderlyClose fd .oversized
  | fin fd session hsession hopen => exact h.beginOrderlyClose fd .fin
  | writable fd => exact h.onWritable fd
  | abort fd reason hreason => exact h.drop fd reason
  | accept fd peer hfd hnone hnonneg => exact h.accept hnone peer hr
  | bounce fd hfd =>
      exact replayed_of_silent (bounce_trace s fd) (by simp [Obs.happening]) (h.same rfl rfl)
  | pause =>
      unfold pauseAccepting
      split
      · exact h
      · exact h.same rfl rfl
  | resume =>
      unfold resumeAcceptingIfDue
      split
      · exact h
      · split
        · exact h
        · exact h.same rfl rfl
  | reap =>
      refine replayed_of_silent (reapClosed_trace s) ?_ ?_
      · intro o ho
        obtain ⟨fd, _, rfl⟩ := List.mem_map.mp ho
        rfl
      · rw [reapClosed_eq]
        exact h.same rfl rfl

theorem run_replayed (c : Setup) (turns : List Turn) : Replayed (run c turns) := by
  refine run_beat_invariant (I := Replayed) c ⟨fun fd => ?_, represents_empty⟩
    (fun s a h => Stands.same h rfl rfl)
    (fun s s' hreach hbeat h => hbeat.replayed hreach.base hreach.registry h) turns
  rfl

/-- **The server stands for the exchange.**  Whatever the turns, take the connections, the
lines and the departures in the order in which the server met them and let them happen at
the exchange: who is who, which names are taken, who watches what and which orders rest is
then what the server's four tables say.  How the bytes were cut into chunks, what the
`send` calls returned, which backend waits, how the containers are walked and what time it
is do not matter. -/
theorem server_stands_for_exchange (c : Setup) (turns : List Turn) :
    let s := run c turns
    let x := replay s.trace
    (∀ fd, (s.sessions.lookup fd).map memberOf = x.members.lookup fd) ∧
    (∀ username, username ∈ s.usernames ↔ ∃ fd, x.members.lookup fd = some (.trader username)) ∧
    (∀ fd instrument, fd ∈ subscribersOf s.subscribers instrument ↔
      ∃ instruments, x.members.lookup fd = some (.watcher instruments) ∧
        instrument ∈ instruments) ∧
    s.book.nextOrderId = x.market.nextOrderId ∧
    ∀ q, (s.book.queue q).map Node.order = x.market.orders.filter fun o => o.queueId = q := by
  intro s x
  have h : Stands s x := run_replayed c turns
  have hr : Registry s := (run_reachable c turns).registry
  refine ⟨fun fd => (h.members fd).symm, fun username => ?_, h.subscriber hr,
    h.market.nextOrderId, h.market.queue⟩
  rw [← h.named hr, Exchange.named, List.any_eq_true]
  constructor
  · rintro ⟨⟨fd, member⟩, hmem, heq⟩
    obtain rfl : member = .trader username := of_decide_eq_true heq
    exact ⟨fd, AList.mem_lookup_iff.mpr hmem⟩
  · rintro ⟨fd, hfd⟩
    exact ⟨⟨fd, _⟩, AList.mem_lookup_iff.mp hfd, decide_eq_true rfl⟩

end SocketExchange.Server
