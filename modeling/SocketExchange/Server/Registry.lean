import SocketExchange.Server.Handlers
import SocketExchange.Trading.Cancellation

/-!
# The registries agree with the sessions

The server keeps four tables that say something about the same clients:
`sessions_`, `usernames_`, `subscribers_` and the order book.  `Registry` says
how they fit together.  It is checked once per kind of step, so it holds between
events and also in the middle of a handler, which is where another handler of the
same event will next look something up.
-/

namespace SocketExchange.Server

open SocketExchange.Lib
open SocketExchange.Lib.Bytes
open SocketExchange.Network
open SocketExchange.Protocol
open SocketExchange.Trading.OrderBook
open ExchangeServer

/-- Each of the other tables describes the clients in `sessions_`. -/
structure Registry (s : ExchangeServer) : Prop where
  book : s.book.WF
  trader_iff : ∀ fd session, s.sessions.lookup fd = some session →
    (session.role = .trader ↔ session.loggedIn = true)
  username_iff : ∀ u, u ∈ s.usernames ↔ ∃ fd session,
    s.sessions.lookup fd = some session ∧ session.loggedIn = true ∧ session.username = u
  username_unique : ∀ fd fd' a b, s.sessions.lookup fd = some a →
    s.sessions.lookup fd' = some b → a.loggedIn = true → b.loggedIn = true →
    a.username = b.username → fd = fd'
  subscriber_iff : ∀ fd instrument, fd ∈ subscribersOf s.subscribers instrument ↔
    ∃ session, s.sessions.lookup fd = some session ∧ instrument ∈ session.subscriptions
  subscriber_nodup : ∀ instrument, (subscribersOf s.subscribers instrument).Nodup
  subscriber_role : ∀ fd session, s.sessions.lookup fd = some session →
    ∀ instrument ∈ session.subscriptions, session.role = .marketData
  owner : ∀ q, ∀ n ∈ s.book.queue q, ∃ session,
    s.sessions.lookup n.order.ownerFd = some session ∧ session.role = .trader

theorem registry_start (c : Setup) :
    Registry (ExchangeServer.start c.backend c.listenerFd c.openFds c.clock) where
  book := wf_empty
  trader_iff := by simp [ExchangeServer.start]
  username_iff := by simp [ExchangeServer.start]
  username_unique := by simp [ExchangeServer.start]
  subscriber_iff := by simp [ExchangeServer.start, subscribersOf]
  subscriber_nodup := by simp [ExchangeServer.start, subscribersOf]
  subscriber_role := by simp [ExchangeServer.start]
  owner := by
    intro q n hn
    simp only [ExchangeServer.start, queue_empty] at hn
    cases hn

/-! ## Steps that leave the tables alone -/

/-- The part of a session the tables know about. -/
def SameEntries (a b : ClientSession) : Prop :=
  a.role = b.role ∧ a.loggedIn = b.loggedIn ∧ a.username = b.username ∧
    a.subscriptions = b.subscriptions

theorem sameEntries_of_client {a b : ClientSession} (h : a.client = b.client) :
    SameEntries a b :=
  ⟨role_of_client h, loggedIn_of_client h, username_of_client h, subscriptions_of_client h⟩

/-- Tables that are the same, and sessions that agree one by one. -/
private theorem Registry.transport {s s' : ExchangeServer} (hr : Registry s)
    (hsub : s'.subscribers = s.subscribers) (hname : s'.usernames = s.usernames)
    (hbook : s'.book = s.book)
    (hback : ∀ fd b, s'.sessions.lookup fd = some b →
      ∃ a, s.sessions.lookup fd = some a ∧ SameEntries a b)
    (hforth : ∀ fd a, s.sessions.lookup fd = some a →
      ∃ b, s'.sessions.lookup fd = some b ∧ SameEntries a b) : Registry s' where
  book := by
    rw [hbook]
    exact hr.book
  trader_iff := by
    intro fd b hb
    obtain ⟨a, ha, hrole, hin, _, _⟩ := hback fd b hb
    rw [← hrole, ← hin]
    exact hr.trader_iff fd a ha
  username_iff := by
    intro u
    rw [hname, hr.username_iff u]
    constructor
    · rintro ⟨fd, a, ha, hin, hu⟩
      obtain ⟨b, hb, _, hin', hu', _⟩ := hforth fd a ha
      exact ⟨fd, b, hb, hin' ▸ hin, hu' ▸ hu⟩
    · rintro ⟨fd, b, hb, hin, hu⟩
      obtain ⟨a, ha, _, hin', hu', _⟩ := hback fd b hb
      exact ⟨fd, a, ha, hin' ▸ hin, hu' ▸ hu⟩
  username_unique := by
    intro fd fd' b b' hb hb' hin hin' hu
    obtain ⟨a, ha, _, hia, hua, _⟩ := hback fd b hb
    obtain ⟨a', ha', _, hia', hua', _⟩ := hback fd' b' hb'
    exact hr.username_unique fd fd' a a' ha ha' (hia ▸ hin) (hia' ▸ hin')
      (hua.trans (hu.trans hua'.symm))
  subscriber_iff := by
    intro fd instrument
    rw [hsub, hr.subscriber_iff]
    constructor
    · rintro ⟨a, ha, hmem⟩
      obtain ⟨b, hb, _, _, _, hs⟩ := hforth fd a ha
      exact ⟨b, hb, hs ▸ hmem⟩
    · rintro ⟨b, hb, hmem⟩
      obtain ⟨a, ha, _, _, _, hs⟩ := hback fd b hb
      exact ⟨a, ha, hs ▸ hmem⟩
  subscriber_nodup := by
    rw [hsub]
    exact hr.subscriber_nodup
  subscriber_role := by
    intro fd b hb instrument hmem
    obtain ⟨a, ha, hrole, _, _, hs⟩ := hback fd b hb
    rw [← hrole]
    exact hr.subscriber_role fd a ha instrument (hs ▸ hmem)
  owner := by
    intro q n hn
    rw [hbook] at hn
    obtain ⟨a, ha, hrole⟩ := hr.owner q n hn
    obtain ⟨b, hb, hrole', _⟩ := hforth _ a ha
    exact ⟨b, hb, hrole' ▸ hrole⟩

/-- One session is rewritten, and the tables need not know. -/
private theorem Registry.put {s s' : ExchangeServer} (hr : Registry s) {fd : Int}
    {session session' : ClientSession} (h : s.sessions.lookup fd = some session)
    (hs : s'.sessions = s.sessions.insert fd session')
    (hsame : SameEntries session session') (hsub : s'.subscribers = s.subscribers)
    (hname : s'.usernames = s.usernames) (hbook : s'.book = s.book) : Registry s' := by
  refine hr.transport hsub hname hbook ?_ ?_
  · rw [hs]
    exact forall_lookup_insert ⟨session, h, hsame⟩ fun _ b hb => ⟨b, hb, rfl, rfl, rfl, rfl⟩
  · intro fd' a ha
    rw [hs, lookup_insert]
    split
    · next heq =>
      rw [heq, h] at ha
      cases ha
      exact ⟨session', rfl, hsame⟩
    · exact ⟨a, ha, rfl, rfl, rfl, rfl⟩

private theorem Registry.same {s s' : ExchangeServer} (hr : Registry s)
    (hs : s'.sessions = s.sessions) (hsub : s'.subscribers = s.subscribers)
    (hname : s'.usernames = s.usernames) (hbook : s'.book = s.book) : Registry s' := by
  refine hr.transport hsub hname hbook ?_ ?_
  · intro fd b hb
    rw [hs] at hb
    exact ⟨b, hb, rfl, rfl, rfl, rfl⟩
  · intro fd a ha
    rw [hs]
    exact ⟨a, ha, rfl, rfl, rfl, rfl⟩

/-! ## The subscriber table -/

theorem subscribersOf_insert (m : SubscriberMap) (i i' : Bytes) (fds : List Int) :
    subscribersOf (m.insert i fds) i' = if i' = i then fds else subscribersOf m i' := by
  unfold subscribersOf
  by_cases h : i' = i
  · subst h
    rw [AList.lookup_insert, if_pos rfl, Option.getD_some]
  · rw [AList.lookup_insert_ne h, if_neg h]

theorem mem_addSubscriber {m : SubscriberMap} {fd fd' : Int} {i i' : Bytes} :
    fd' ∈ subscribersOf (addSubscriber fd m i) i' ↔
      fd' ∈ subscribersOf m i' ∨ i' = i ∧ fd' = fd := by
  rw [addSubscriber, subscribersOf_insert]
  by_cases h : i' = i
  · rw [if_pos h, List.mem_insert_iff]
    subst h
    tauto
  · rw [if_neg h]
    tauto

theorem mem_eraseSubscriber {m : SubscriberMap} {fd fd' : Int} {i i' : Bytes} :
    fd' ∈ subscribersOf (eraseSubscriber fd m i) i' ↔
      fd' ∈ subscribersOf m i' ∧ ¬ (i' = i ∧ fd' = fd) := by
  rw [eraseSubscriber, subscribersOf_insert]
  by_cases h : i' = i
  · rw [if_pos h, List.mem_filter, decide_eq_true_eq]
    subst h
    tauto
  · rw [if_neg h]
    tauto

/-- Erasing a client from the sets of the instruments it is subscribed to. -/
theorem mem_run_eraseSubscriber {fd fd' : Int} {i : Bytes} (instruments : List Bytes)
    (m : SubscriberMap) :
    fd' ∈ subscribersOf (Loop.run (eraseSubscriber fd) m instruments) i ↔
      fd' ∈ subscribersOf m i ∧ ¬ (i ∈ instruments ∧ fd' = fd) := by
  induction instruments generalizing m with
  | nil => simp
  | cons j instruments ih =>
      rw [Loop.run_cons, ih, mem_eraseSubscriber, List.mem_cons]
      tauto

theorem nodup_eraseSubscriber {m : SubscriberMap} (fd : Int) (i : Bytes)
    (h : ∀ i, (subscribersOf m i).Nodup) (i' : Bytes) :
    (subscribersOf (eraseSubscriber fd m i) i').Nodup := by
  rw [eraseSubscriber, subscribersOf_insert]
  split
  · exact (h i).filter _
  · exact h i'

theorem nodup_run_eraseSubscriber (fd : Int) (instruments : List Bytes) (m : SubscriberMap)
    (h : ∀ i, (subscribersOf m i).Nodup) :
    ∀ i, (subscribersOf (Loop.run (eraseSubscriber fd) m instruments) i).Nodup := by
  induction instruments generalizing m with
  | nil => exact h
  | cons j instruments ih =>
      rw [Loop.run_cons]
      exact ih _ (nodup_eraseSubscriber fd j h)

/-! ## Dropping a session -/

section Drop

variable {s : ExchangeServer} {fd : Int} {session : ClientSession}
  (h : s.sessions.lookup fd = some session) (reason : DropReason)

include h

private theorem mem_drop_usernames (u : Bytes) :
    u ∈ (s.drop fd reason).usernames ↔
      u ∈ s.usernames ∧ ¬ (session.loggedIn = true ∧ u = session.username) := by
  simp only [ExchangeServer.drop, h]
  split
  · next hin => simp [hin]
  · next hin => simp [hin]

private theorem mem_drop_subscribers (fd' : Int) (instrument : Bytes) :
    fd' ∈ subscribersOf (s.drop fd reason).subscribers instrument ↔
      fd' ∈ subscribersOf s.subscribers instrument ∧
        ¬ (instrument ∈ session.subscriptions ∧ fd' = fd) := by
  simp only [ExchangeServer.drop, h]
  rw [mem_run_eraseSubscriber, s.kernel.order.mem_walk]

end Drop

theorem Registry.drop {s : ExchangeServer} (hr : Registry s) (fd : Int)
    (reason : DropReason) : Registry (s.drop fd reason) := by
  cases h : s.sessions.lookup fd with
  | none =>
      rw [drop_of_lookup_none h]
      exact hr
  | some session =>
      have hkeep : ∀ fd' x, fd' ≠ fd → s.sessions.lookup fd' = some x →
          (s.drop fd reason).sessions.lookup fd' = some x := by
        intro fd' x hne hx
        rw [drop_sessions, if_neg hne]
        exact hx
      have hbook : (s.drop fd reason).book = s.book.removeOrdersOf s.kernel.order fd := by
        simp only [ExchangeServer.drop, h]
      have hkept := removeOrdersOf_kept s.kernel.order hr.book fd
      refine ⟨?_, ?_, ?_, ?_, ?_, ?_, ?_, ?_⟩
      · rw [hbook]
        exact (hkept.shrunk hr.book).wf hr.book
      · intro fd' x hx
        exact hr.trader_iff fd' x (lookup_of_drop hx).2
      · intro u
        rw [mem_drop_usernames h, hr.username_iff]
        constructor
        · rintro ⟨⟨fd', x, hx, hin, hu⟩, hne⟩
          refine ⟨fd', x, hkeep fd' x ?_ hx, hin, hu⟩
          rintro rfl
          rw [h] at hx
          cases hx
          exact hne ⟨hin, hu.symm⟩
        · rintro ⟨fd', x, hx, hin, hu⟩
          obtain ⟨hne, hx⟩ := lookup_of_drop hx
          refine ⟨⟨fd', x, hx, hin, hu⟩, ?_⟩
          rintro ⟨hin', hu'⟩
          exact hne (hr.username_unique fd' fd x session hx h hin hin' (hu.trans hu'))
      · intro fd₁ fd₂ a b ha hb
        exact hr.username_unique fd₁ fd₂ a b (lookup_of_drop ha).2 (lookup_of_drop hb).2
      · intro fd' i
        rw [mem_drop_subscribers h, hr.subscriber_iff]
        constructor
        · rintro ⟨⟨x, hx, hi⟩, hne⟩
          refine ⟨x, hkeep fd' x ?_ hx, hi⟩
          rintro rfl
          rw [h] at hx
          cases hx
          exact hne ⟨hi, rfl⟩
        · rintro ⟨x, hx, hi⟩
          obtain ⟨hne, hx⟩ := lookup_of_drop hx
          exact ⟨⟨x, hx, hi⟩, fun hand => hne hand.2⟩
      · simp only [ExchangeServer.drop, h]
        exact nodup_run_eraseSubscriber fd _ _ hr.subscriber_nodup
      · intro fd' x hx
        exact hr.subscriber_role fd' x (lookup_of_drop hx).2
      · intro q n hn
        rw [hbook] at hn
        obtain ⟨hn, howner⟩ := hkept.mem.mp hn
        obtain ⟨x, hx, hrole⟩ := hr.owner q n hn
        exact ⟨x, hkeep _ x (by simpa using howner) hx, hrole⟩

/-! ## Commands -/

section Commands

variable {s : ExchangeServer} (hr : Registry s) {fd : Int} {session : ClientSession}
  (h : s.sessions.lookup fd = some session)

include hr h

/-- A client that has not declared itself has no subscriptions. -/
private theorem Registry.no_subscriptions (hrole : session.role ≠ .marketData) (i : Bytes) :
    i ∉ session.subscriptions :=
  fun hi => hrole (hr.subscriber_role fd session h i hi)

/-- A client that is not logged in is not a trader. -/
private theorem Registry.not_trader (hout : session.loggedIn = false) :
    session.role ≠ .trader := by
  intro hrole
  rw [(hr.trader_iff fd session h).mp hrole] at hout
  cases hout

private theorem Registry.login {username : Bytes} (hrole : session.role ≠ .marketData)
    (hout : session.loggedIn = false) (hfree : username ∉ s.usernames) :
    Registry ({ s.putSession fd
        { session with role := .trader, username := username, loggedIn := true } with
      usernames := s.usernames.insert username }.observe (.loggedIn fd username)) := by
  set session' := { session with role := .trader, username := username, loggedIn := true }
    with hsession'
  have hnone := hr.no_subscriptions h hrole
  refine ⟨hr.book, ?_, ?_, ?_, ?_, hr.subscriber_nodup, ?_, ?_⟩
  · exact forall_lookup_insert ⟨fun _ => rfl, fun _ => rfl⟩ hr.trader_iff
  · intro u
    simp only [observe, putSession, lookup_insert, List.mem_insert_iff]
    constructor
    · rintro (rfl | hu)
      · exact ⟨fd, session', by rw [if_pos rfl], rfl, rfl⟩
      · obtain ⟨fd', x, hx, hin, hux⟩ := (hr.username_iff u).mp hu
        refine ⟨fd', x, ?_, hin, hux⟩
        rw [if_neg]
        · exact hx
        · rintro rfl
          rw [h] at hx
          cases hx
          rw [hout] at hin
          cases hin
    · rintro ⟨fd', x, hx, hin, hux⟩
      split at hx
      · cases hx
        exact Or.inl hux.symm
      · exact Or.inr ((hr.username_iff u).mpr ⟨fd', x, hx, hin, hux⟩)
  · -- a name that was free is not the name of anybody else
    have hother : ∀ fd' x, s.sessions.lookup fd' = some x → x.loggedIn = true →
        x.username ≠ username := by
      rintro fd' x hx hin rfl
      exact hfree ((hr.username_iff _).mpr ⟨fd', x, hx, hin, rfl⟩)
    intro fd₁ fd₂ a b ha hb hina hinb hu
    simp only [observe, putSession, lookup_insert] at ha hb
    split at ha <;> split at hb
    · next h1 h2 => rw [h1, h2]
    · cases ha
      exact absurd hu.symm (hother fd₂ b hb hinb)
    · cases hb
      exact absurd hu (hother fd₁ a ha hina)
    · exact hr.username_unique fd₁ fd₂ a b ha hb hina hinb hu
  · intro fd' i
    simp only [observe, putSession, lookup_insert]
    rw [hr.subscriber_iff]
    split
    · next heq =>
      subst heq
      constructor
      · rintro ⟨x, hx, hi⟩
        rw [h] at hx
        cases hx
        exact absurd hi (hnone i)
      · rintro ⟨x, hx, hi⟩
        cases hx
        exact absurd hi (hnone i)
    · rfl
  · exact forall_lookup_insert (fun i hi => absurd hi (hnone i)) hr.subscriber_role
  · intro q n hn
    obtain ⟨x, hx, hxrole⟩ := hr.owner q n hn
    simp only [observe, putSession, lookup_insert]
    split
    · exact ⟨session', rfl, rfl⟩
    · exact ⟨x, hx, hxrole⟩

omit hr h in
private theorem assumeMarketData_role (hrole : session.role = .unknown ∨
    session.role = .marketData) : (assumeMarketData session).role = .marketData := by
  unfold assumeMarketData
  split
  · rfl
  · next hne => exact hrole.resolve_left hne

omit hr h in
theorem assumeMarketData_rest (session : ClientSession) :
    (assumeMarketData session).loggedIn = session.loggedIn ∧
      (assumeMarketData session).username = session.username ∧
      (assumeMarketData session).subscriptions = session.subscriptions := by
  unfold assumeMarketData
  split <;> exact ⟨rfl, rfl, rfl⟩

/-- A market-data client changes its subscriptions, and the table with them. -/
private theorem Registry.setSubscriptions
    (hrole : session.role = .unknown ∨ session.role = .marketData)
    {subscriptions : List Bytes} {subscribers : SubscriberMap} (o : Obs)
    (hmem : ∀ fd' i, fd' ∈ subscribersOf subscribers i ↔
      if fd' = fd then i ∈ subscriptions else fd' ∈ subscribersOf s.subscribers i)
    (hnodup : ∀ i, (subscribersOf subscribers i).Nodup) :
    Registry ({ s.putSession fd { assumeMarketData session with
        subscriptions := subscriptions } with subscribers := subscribers }.observe o) := by
  obtain ⟨hin, huser, _⟩ := assumeMarketData_rest session
  have hmarket := assumeMarketData_role hrole
  have hnot : session.role ≠ .trader := by
    rcases hrole with hrole | hrole <;> rw [hrole] <;> decide
  have hout : session.loggedIn ≠ true := fun hlog =>
    hnot ((hr.trader_iff fd session h).mpr hlog)
  refine ⟨hr.book, ?_, ?_, ?_, ?_, hnodup, ?_, ?_⟩
  · intro fd' x hx
    simp only [observe, putSession, lookup_insert] at hx
    split at hx
    · cases hx
      constructor
      · intro hx
        rw [show _ = ClientRole.marketData from hmarket] at hx
        cases hx
      · intro hlog
        exact absurd (hin.symm.trans hlog) hout
    · exact hr.trader_iff fd' x hx
  · intro u
    simp only [observe, putSession, lookup_insert]
    rw [hr.username_iff]
    constructor
    · rintro ⟨fd', x, hx, hlog, hu⟩
      refine ⟨fd', x, ?_, hlog, hu⟩
      rw [if_neg]
      · exact hx
      · rintro rfl
        rw [h] at hx
        cases hx
        exact hout hlog
    · rintro ⟨fd', x, hx, hlog, hu⟩
      split at hx
      · cases hx
        exact absurd (hin.symm.trans hlog) hout
      · exact ⟨fd', x, hx, hlog, hu⟩
  · intro fd₁ fd₂ a b ha hb hina hinb hu
    simp only [observe, putSession, lookup_insert] at ha hb
    split at ha
    · cases ha
      exact absurd (hin.symm.trans hina) hout
    · split at hb
      · cases hb
        exact absurd (hin.symm.trans hinb) hout
      · exact hr.username_unique fd₁ fd₂ a b ha hb hina hinb hu
  · intro fd' i
    simp only [observe, putSession, lookup_insert]
    rw [hmem]
    split
    · constructor
      · intro hi
        exact ⟨_, rfl, hi⟩
      · rintro ⟨x, hx, hi⟩
        cases hx
        exact hi
    · exact hr.subscriber_iff fd' i
  · exact forall_lookup_insert (fun _ _ => hmarket) hr.subscriber_role
  · intro q n hn
    obtain ⟨x, hx, hxrole⟩ := hr.owner q n hn
    simp only [observe, putSession, lookup_insert]
    rw [if_neg]
    · exact ⟨x, hx, hxrole⟩
    · intro heq
      rw [heq, h] at hx
      cases hx
      exact hnot hxrole

private theorem Registry.subscribe
    (hrole : session.role = .unknown ∨ session.role = .marketData) (instrument : Bytes) :
    Registry ({ s.putSession fd { assumeMarketData session with
        subscriptions := (assumeMarketData session).subscriptions.insert instrument } with
      subscribers := addSubscriber fd s.subscribers instrument }.observe
        (.subscribed fd instrument)) := by
  have hsubs := (assumeMarketData_rest session).2.2
  refine hr.setSubscriptions h hrole _ ?_ ?_
  · intro fd' i
    rw [mem_addSubscriber, hsubs]
    split
    · next heq =>
      subst heq
      rw [hr.subscriber_iff, List.mem_insert_iff]
      constructor
      · rintro (⟨x, hx, hi⟩ | ⟨hi, _⟩)
        · rw [h] at hx
          cases hx
          exact Or.inr hi
        · exact Or.inl hi
      · rintro (hi | hi)
        · exact Or.inr ⟨hi, rfl⟩
        · exact Or.inl ⟨session, h, hi⟩
    · next hne => simp [hne]
  · intro i
    rw [addSubscriber, subscribersOf_insert]
    split
    · exact (hr.subscriber_nodup _).insert
    · exact hr.subscriber_nodup i

private theorem Registry.unsubscribe
    (hrole : session.role = .unknown ∨ session.role = .marketData) (instrument : Bytes) :
    Registry ({ s.putSession fd { assumeMarketData session with
        subscriptions := (assumeMarketData session).subscriptions.filter (· ≠ instrument) } with
      subscribers := eraseSubscriber fd s.subscribers instrument }.observe
        (.unsubscribed fd instrument)) := by
  have hsubs := (assumeMarketData_rest session).2.2
  refine hr.setSubscriptions h hrole _ ?_ (nodup_eraseSubscriber fd _ hr.subscriber_nodup)
  intro fd' i
  rw [mem_eraseSubscriber, hsubs]
  split
  · next heq =>
    subst heq
    rw [hr.subscriber_iff, List.mem_filter, decide_eq_true_eq]
    constructor
    · rintro ⟨⟨x, hx, hi⟩, hne⟩
      rw [h] at hx
      cases hx
      exact ⟨hi, fun heq => hne ⟨heq, rfl⟩⟩
    · rintro ⟨hi, hne⟩
      exact ⟨⟨session, h, hi⟩, fun hand => hne hand.1⟩
  · next hne => simp [hne]

/-- A new order belongs to the trader that submitted it. -/
private theorem Registry.submit (hin : session.loggedIn = true) (cmd : ParsedCommand) :
    Registry (s.submit fd cmd) := by
  refine ⟨addOrder_wf _ _ _ _ _ hr.book, hr.trader_iff, hr.username_iff, hr.username_unique,
    hr.subscriber_iff, hr.subscriber_nodup, hr.subscriber_role, ?_⟩
  intro q n hn
  rcases (mem_addOrder hr.book _ _ _ _ _).mp hn with ⟨m, hm, _, rfl⟩ | ⟨_, _, rfl⟩
  · exact hr.owner q m hm
  · exact ⟨session, h, (hr.trader_iff fd session h).mpr hin⟩

end Commands

/-- Taking orders out of the book leaves their owners alone. -/
private theorem Registry.cancel {s : ExchangeServer} (hr : Registry s) (orderId fd : Int)
    (o : Obs) :
    Registry ({ s with book := (s.book.cancelOrder orderId fd).book }.observe o) := by
  have hshrunk := cancelOrder_shrunk hr.book orderId fd
  refine ⟨hshrunk.wf hr.book, hr.trader_iff, hr.username_iff, hr.username_unique,
    hr.subscriber_iff, hr.subscriber_nodup, hr.subscriber_role, ?_⟩
  intro q n hn
  obtain ⟨m, hm, hk⟩ := hshrunk.origin hn
  rw [← owner_of_key hk]
  exact hr.owner q m hm

/-! ## Connections come and go -/

/-- A connection that has said nothing is in no table. -/
private theorem Registry.accept {s : ExchangeServer} (hr : Registry s) {fd : Int}
    (h : s.sessions.lookup fd = none) (peer : Bytes) :
    Registry (((s.openFd fd).putSession fd { fd := fd, peer := peer }).observe
      (.accepted fd)) := by
  have hne : ∀ fd' x, s.sessions.lookup fd' = some x → fd' ≠ fd := by
    rintro fd' x hx rfl
    rw [h] at hx
    cases hx
  refine ⟨hr.book, ?_, ?_, ?_, ?_, hr.subscriber_nodup, ?_, ?_⟩
  · exact forall_lookup_insert (by simp) hr.trader_iff
  · intro u
    simp only [observe, putSession, openFd, lookup_insert]
    rw [hr.username_iff]
    constructor
    · rintro ⟨fd', x, hx, hin, hu⟩
      exact ⟨fd', x, by rw [if_neg (hne fd' x hx), hx], hin, hu⟩
    · rintro ⟨fd', x, hx, hin, hu⟩
      split at hx
      · cases hx
        cases hin
      · exact ⟨fd', x, hx, hin, hu⟩
  · intro fd₁ fd₂ a b ha hb hina hinb hu
    simp only [observe, putSession, openFd, lookup_insert] at ha hb
    split at ha
    · cases ha
      cases hina
    · split at hb
      · cases hb
        cases hinb
      · exact hr.username_unique fd₁ fd₂ a b ha hb hina hinb hu
  · intro fd' i
    simp only [observe, putSession, openFd, lookup_insert]
    rw [hr.subscriber_iff]
    constructor
    · rintro ⟨x, hx, hi⟩
      exact ⟨x, by rw [if_neg (hne fd' x hx), hx], hi⟩
    · rintro ⟨x, hx, hi⟩
      split at hx
      · cases hx
        cases hi
      · exact ⟨x, hx, hi⟩
  · exact forall_lookup_insert (by simp) hr.subscriber_role
  · intro q n hn
    obtain ⟨x, hx, hrole⟩ := hr.owner q n hn
    refine ⟨x, ?_, hrole⟩
    simp only [observe, putSession, openFd, lookup_insert]
    rw [if_neg (hne _ x hx), hx]

private theorem Registry.refuse {s : ExchangeServer} (hr : Registry s) {fd : Int} {peer : Bytes}
    (h : s.sessions.lookup fd = some { fd := fd, peer := peer }) :
    Registry (closeFd ({ s with sessions := s.sessions.erase fd }.observe (.refused fd))
      fd) := by
  have hold : ∀ fd' x, (s.sessions.erase fd).lookup fd' = some x →
      s.sessions.lookup fd' = some x := fun _ _ hx => (lookup_of_erase hx).2
  -- whoever is in a table is somebody else
  have hkeep : ∀ fd' x, s.sessions.lookup fd' = some x →
      (x.loggedIn = true ∨ x.subscriptions ≠ [] ∨ x.role = .trader) →
      (s.sessions.erase fd).lookup fd' = some x := by
    intro fd' x hx hsaid
    rw [lookup_erase, if_neg]
    · exact hx
    · rintro rfl
      rw [h] at hx
      cases hx
      simp at hsaid
  refine ⟨hr.book, fun fd' x hx => hr.trader_iff fd' x (hold fd' x hx), ?_,
    fun fd₁ fd₂ a b ha hb => hr.username_unique fd₁ fd₂ a b (hold _ _ ha) (hold _ _ hb), ?_,
    hr.subscriber_nodup, fun fd' x hx => hr.subscriber_role fd' x (hold fd' x hx), ?_⟩
  · intro u
    simp only [closeFd, observe]
    rw [hr.username_iff]
    constructor
    · rintro ⟨fd', x, hx, hin, hu⟩
      exact ⟨fd', x, hkeep fd' x hx (Or.inl hin), hin, hu⟩
    · rintro ⟨fd', x, hx, hin, hu⟩
      exact ⟨fd', x, hold fd' x hx, hin, hu⟩
  · intro fd' i
    simp only [closeFd, observe]
    rw [hr.subscriber_iff]
    constructor
    · rintro ⟨x, hx, hi⟩
      exact ⟨x, hkeep fd' x hx (Or.inr (Or.inl (List.ne_nil_of_mem hi))), hi⟩
    · rintro ⟨x, hx, hi⟩
      exact ⟨x, hold fd' x hx, hi⟩
  · intro q n hn
    obtain ⟨x, hx, hrole⟩ := hr.owner q n hn
    exact ⟨x, hkeep _ x hx (Or.inr (Or.inr hrole)), hrole⟩

/-! ## Every step -/

theorem Act.registry {fd : Int} {s s' : ExchangeServer} (hact : Act fd s s')
    (hr : Registry s) : Registry s' := by
  cases hact with
  | queue dest session message h howed =>
      exact hr.put h rfl ⟨rfl, rfl, rfl, rfl⟩ rfl rfl rfl
  | write dest session h =>
      exact hr.put h rfl (sameEntries_of_client (flush_client _ _).symm) rfl rfl rfl
  | drop dest reason h => exact hr.drop dest reason
  | relist loop => exact hr.same rfl rfl rfl rfl
  | leave session reason h => exact hr.put h rfl ⟨rfl, rfl, rfl, rfl⟩ rfl rfl rfl
  | interest session wantRead wantWrite h =>
      exact hr.put h rfl ⟨rfl, rfl, rfl, rfl⟩ rfl rfl rfl
  | login session username h hrole hout hfree =>
      refine hr.login h ?_ hout hfree
      rcases hrole with hrole | hrole <;> rw [hrole] <;> decide
  | subscribe session instrument h hrole => exact hr.subscribe h hrole instrument
  | unsubscribe session instrument h hrole hin => exact hr.unsubscribe h hrole instrument
  | submit session cmd h hrole hin hcmd => exact hr.submit h hin cmd
  | cancel session orderId h hin hok => exact hr.cancel orderId fd _

theorem Env.registry {s s' : ExchangeServer} (henv : Env s s') (hr : Registry s) :
    Registry s' := by
  cases henv with
  | accept fd peer hfd h hnonneg => exact hr.accept h peer
  | refuse fd peer h => exact hr.refuse h
  | bounce fd hfd => exact hr.same rfl rfl rfl rfl
  | reap =>
      obtain ⟨hs, hsub, hname, hbook⟩ := reapClosed_tables s
      exact hr.same hs hsub hname hbook
  | timer resumeAt loop => exact hr.same rfl rfl rfl rfl
  | load a => exact hr.same rfl rfl rfl rfl

/-- **The step lemma.** -/
theorem Move.registry {s s' : ExchangeServer} (hmove : Move s s') (hr : Registry s) :
    Registry s' := by
  cases hmove with
  | serve hserve =>
      cases hserve with
      | act hact => exact hact.registry hr
      | receive session bytes h hopen =>
          exact hr.put h rfl ⟨rfl, rfl, rfl, rfl⟩ rfl rfl rfl
      | take session line tail h hline =>
          exact hr.put h rfl ⟨rfl, rfl, rfl, rfl⟩ rfl rfl rfl
      | handled line => exact hr.same rfl rfl rfl rfl
  | env henv => exact henv.registry hr

/-- Any message may be handed to `send_to`. -/
theorem sendTo_registry {s : ExchangeServer} (hb : Base s) (hr : Registry s) (dest : Int)
    (message : Response) : Registry (s.sendTo dest message) := by
  rcases sendTo_cases hb dest dest message with ⟨_, hsame⟩ | ⟨session, h, hbase, hacts⟩
  · rw [hsame]
    exact hr
  · have hqueued : Registry ((s.putSession dest (session.append message.render)).observe
        (.queued dest message)) := hr.put h rfl ⟨rfl, rfl, rfl, rfl⟩ rfl rfl rfl
    exact hacts.invariant (fun _ _ hact hr => hact.registry hr) hqueued

/-! ## Roles are final -/

/-- A session that is rewritten in place keeps its role. -/
private theorem role_of_put {s s' : ExchangeServer} {fd dest : Int}
    {x session session' : ClientSession} (hx : s.sessions.lookup fd = some x)
    (h : s.sessions.lookup dest = some session)
    (hs : s'.sessions = s.sessions.insert dest session') (hrole : session'.role = session.role) :
    ∃ y, s'.sessions.lookup fd = some y ∧ y.role = x.role := by
  rw [hs, lookup_insert]
  split
  · next heq =>
    rw [heq, h] at hx
    cases hx
    exact ⟨session', rfl, hrole⟩
  · exact ⟨x, hx, rfl⟩

private theorem assumeMarketData_role_of_ne {session : ClientSession}
    (h : session.role ≠ .unknown) : (assumeMarketData session).role = session.role := by
  rw [assumeMarketData, if_neg h]

/-- An act of anybody that does not drop the session. -/
private theorem Act.role {actor fd : Int} {s s' : ExchangeServer} {x : ClientSession}
    (hact : Act actor s s') (hr : Registry s) (hx : s.sessions.lookup fd = some x)
    (hrole : x.role ≠ .unknown) (hdrop : ∀ reason, s'.trace ≠ s.trace ++ [.dropped fd reason]) :
    ∃ y, s'.sessions.lookup fd = some y ∧ y.role = x.role := by
  -- the two commands that set a role are only let through if it was not set
  have hfixed : ∀ (session session' : ClientSession),
      s.sessions.lookup actor = some session →
      s'.sessions = s.sessions.insert actor session' →
      (session.role ≠ .unknown → session'.role = session.role) →
      ∃ y, s'.sessions.lookup fd = some y ∧ y.role = x.role := by
    intro session session' h hs hkeep
    by_cases heq : fd = actor
    · subst heq
      rw [hx] at h
      cases h
      exact role_of_put hx hx hs (hkeep hrole)
    · rw [hs, lookup_insert, if_neg heq]
      exact ⟨x, hx, rfl⟩
  cases hact with
  | queue dest session message h howed => exact role_of_put hx h rfl rfl
  | write dest session h => exact role_of_put hx h rfl (role_of_client (flush_client _ _))
  | drop dest reason h =>
      rw [drop_sessions, if_neg]
      · exact ⟨x, hx, rfl⟩
      · rintro rfl
        exact hdrop reason (drop_trace hx reason)
  | relist loop => exact ⟨x, hx, rfl⟩
  | leave session reason h => exact role_of_put hx h rfl rfl
  | interest session wantRead wantWrite h => exact role_of_put hx h rfl rfl
  | login session username h hunset hout hfree =>
      refine hfixed session _ h rfl fun hset => ?_
      exact absurd (hunset.resolve_left hset) (hr.not_trader h hout)
  | subscribe session instrument h hunset =>
      exact hfixed session _ h rfl assumeMarketData_role_of_ne
  | unsubscribe session instrument h hunset hin =>
      exact hfixed session _ h rfl assumeMarketData_role_of_ne
  | submit session cmd h hrole hin hcmd => exact ⟨x, hx, rfl⟩
  | cancel session orderId h hin hok => exact ⟨x, hx, rfl⟩

private theorem Env.role {fd : Int} {s s' : ExchangeServer} {x : ClientSession}
    (henv : Env s s') (hx : s.sessions.lookup fd = some x) (hrole : x.role ≠ .unknown) :
    s'.sessions.lookup fd = some x := by
  cases henv with
  | accept fd' peer hfd h hnonneg =>
      simp only [observe, putSession, openFd, lookup_insert]
      rw [if_neg]
      · exact hx
      · rintro rfl
        rw [h] at hx
        cases hx
  | refuse fd' peer h =>
      simp only [closeFd, observe, lookup_erase]
      rw [if_neg]
      · exact hx
      · rintro rfl
        rw [h] at hx
        cases hx
        exact hrole rfl
  | bounce fd' hfd => exact hx
  | reap =>
      rw [(reapClosed_tables s).1]
      exact hx
  | timer resumeAt loop => exact hx
  | load a => exact hx

private theorem Move.role {fd : Int} {s s' : ExchangeServer} {x : ClientSession}
    (hmove : Move s s') (hr : Registry s) (hx : s.sessions.lookup fd = some x)
    (hrole : x.role ≠ .unknown) (hdrop : ∀ reason, s'.trace ≠ s.trace ++ [.dropped fd reason]) :
    ∃ y, s'.sessions.lookup fd = some y ∧ y.role = x.role := by
  cases hmove with
  | serve hserve =>
      cases hserve with
      | act hact => exact hact.role hr hx hrole hdrop
      | receive session bytes h hopen => exact role_of_put hx h rfl rfl
      | take session line tail h hline => exact role_of_put hx h rfl rfl
      | handled line => exact ⟨x, hx, rfl⟩
  | env henv => exact ⟨x, henv.role hx hrole, rfl⟩

/-- **The run lemma.**  As long as the session is not dropped, its role stays. -/
theorem Moves.role {fd : Int} {s s' : ExchangeServer} {x : ClientSession}
    (hmoves : Moves s s') (hr : Registry s) (hx : s.sessions.lookup fd = some x)
    (hrole : x.role ≠ .unknown) :
    ∃ new, s'.trace = s.trace ++ new ∧ ((∀ reason, Obs.dropped fd reason ∉ new) →
      ∃ y, s'.sessions.lookup fd = some y ∧ y.role = x.role) := by
  induction hmoves with
  | refl => exact ⟨[], (List.append_nil _).symm, fun _ => ⟨x, hx, rfl⟩⟩
  | @tail a b hmoves hmove ih =>
      obtain ⟨new, htrace, hkeep⟩ := ih
      obtain ⟨new', htrace'⟩ := hmove.trace
      refine ⟨new ++ new', by rw [htrace', htrace, List.append_assoc], fun hdrop => ?_⟩
      obtain ⟨y, hy, hyrole⟩ := hkeep fun reason hmem => hdrop reason (by simp [hmem])
      have hra : Registry a := Moves.invariant hmoves (fun _ _ hmove hr => hmove.registry hr) hr
      obtain ⟨z, hz, hzrole⟩ := hmove.role hra hy (hyrole ▸ hrole) (by
        intro reason heq
        rw [htrace'] at heq
        refine hdrop reason ?_
        rw [List.append_cancel_left heq]
        simp)
      exact ⟨z, hz, hzrole.trans hyrole⟩

theorem Reachable.registry {c : Setup} {s : ExchangeServer} (h : Reachable c s) :
    Registry s :=
  Moves.invariant h (fun _ _ hmove hr => hmove.registry hr) (registry_start c)

/-- **The registries agree with the sessions** in every state between events,
and no later turn changes a role that has been fixed, for as long as the session
is not dropped. -/
theorem registries_agree (c : Setup) (turns : List Turn) :
    let s := run c turns
    (∀ fd session, s.sessions.lookup fd = some session → session.fd = fd ∧ 0 ≤ fd) ∧
    (∀ u, u ∈ s.usernames ↔ ∃ fd session, s.sessions.lookup fd = some session ∧
      session.loggedIn = true ∧ session.username = u) ∧
    (∀ fd fd' a b, s.sessions.lookup fd = some a → s.sessions.lookup fd' = some b →
      a.loggedIn = true → b.loggedIn = true → a.username = b.username → fd = fd') ∧
    (∀ fd instrument, fd ∈ subscribersOf s.subscribers instrument ↔
      ∃ session, s.sessions.lookup fd = some session ∧
        instrument ∈ session.subscriptions) ∧
    (∀ fd session, s.sessions.lookup fd = some session →
      (session.role = .trader ↔ session.loggedIn = true) ∧
      (session.subscriptions ≠ [] → session.role = .marketData)) ∧
    (∀ o ∈ s.book.orders, ∃ session, s.sessions.lookup o.ownerFd = some session ∧
      session.role = .trader) ∧
    (∀ fd session, s.sessions.lookup fd = some session → session.role ≠ .unknown →
      ∀ more : List Turn,
        let s' := Loop.run turn s more
        ∃ new, s'.trace = s.trace ++ new ∧ ((∀ reason, Obs.dropped fd reason ∉ new) →
          ∃ session', s'.sessions.lookup fd = some session' ∧
            session'.role = session.role)) := by
  intro s
  have hreach : Reachable c s := run_reachable c turns
  have hr := hreach.registry
  refine ⟨fun fd session h => ⟨hreach.base.own fd session h, hreach.base.nonneg fd session h⟩,
    hr.username_iff, hr.username_unique, hr.subscriber_iff, ?_, ?_, ?_⟩
  · intro fd session h
    refine ⟨hr.trader_iff fd session h, fun hne => ?_⟩
    obtain ⟨i, hi⟩ := List.exists_mem_of_ne_nil _ hne
    exact hr.subscriber_role fd session h i hi
  · intro o ho
    obtain ⟨q, n, hn, rfl⟩ := mem_orders.mp ho
    exact hr.owner q n hn
  · intro fd session h hrole more
    exact (run_turn_moves hreach.base more).role hr h hrole

end SocketExchange.Server
