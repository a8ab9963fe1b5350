import SocketExchange.Protocol.Texts
import SocketExchange.Server.Delivery

/-!
# What the server does with a line

`Steps` takes the server apart into writes to single tables.  Some properties
need larger pieces: that a command gets one reply is a fact about a whole line,
and the flags of a session are right again only when the flush after a message
has come to its end.

A stage is one such piece: a chunk is read, a line is handled, a socket is
written to, a connection is accepted.  Every line that is not a valid `QUIT` has
one shape (`handleMessage_effect`): an effect on the tables, one reply to its
sender, and then the notices of the executions it made.
-/

namespace SocketExchange.Server

open SocketExchange.Lib
open SocketExchange.Lib.Bytes
open SocketExchange.Network
open SocketExchange.Protocol
open SocketExchange.Trading.OrderBook
open ExchangeServer

/-! ## One line -/

/-- The line is a well-formed `QUIT`. -/
def Quits (line : Bytes) : Prop := (parse line).valid = true ∧ (parse line).type = .quit

instance (line : Bytes) : Decidable (Quits line) := inferInstanceAs (Decidable (_ ∧ _))

/-- What a line of `fd` does before it is answered, the answer, and the executions
that are published after it. -/
inductive Effect (fd : Int) (line : Bytes) (s : ExchangeServer) :
    ExchangeServer → Response → List TradeExecution → Prop where
  | refuse (session : ClientSession) (reason : Bytes)
      (h : s.sessions.lookup fd = some session)
      (hplain : Plain session.username → Plain reason) :
      Effect fd line s s (.error reason) []
  | login (session : ClientSession) (username : Bytes)
      (h : s.sessions.lookup fd = some session)
      (hrole : session.role = .unknown ∨ session.role = .trader)
      (hout : session.loggedIn = false) (hfree : username ∉ s.usernames)
      (hplain : Plain username) :
      Effect fd line s ({ s.putSession fd
          { session with role := .trader, username := username, loggedIn := true } with
        usernames := s.usernames.insert username }.observe (.loggedIn fd username)) .ok []
  | subscribe (session : ClientSession) (instrument : Bytes)
      (h : s.sessions.lookup fd = some session)
      (hrole : session.role = .unknown ∨ session.role = .marketData) :
      Effect fd line s ({ s.putSession fd { assumeMarketData session with
          subscriptions := (assumeMarketData session).subscriptions.insert instrument } with
        subscribers := addSubscriber fd s.subscribers instrument }.observe
          (.subscribed fd instrument)) .ok []
  | unsubscribe (session : ClientSession) (instrument : Bytes)
      (h : s.sessions.lookup fd = some session)
      (hrole : session.role = .unknown ∨ session.role = .marketData)
      (hin : instrument ∈ session.subscriptions) :
      Effect fd line s ({ s.putSession fd { assumeMarketData session with
          subscriptions :=
            (assumeMarketData session).subscriptions.filter (· ≠ instrument) } with
        subscribers := eraseSubscriber fd s.subscribers instrument }.observe
          (.unsubscribed fd instrument)) .ok []
  | order (session : ClientSession) (h : s.sessions.lookup fd = some session)
      (hrole : session.role = .unknown ∨ session.role = .trader)
      (hin : session.loggedIn = true) (hcmd : 0 < (parse line).quantity) :
      Effect fd line s (s.submit fd (parse line))
        (.orderAccepted (s.addResult fd (parse line)).orderId)
        (s.addResult fd (parse line)).executions
  | cancel (session : ClientSession) (orderId : Int)
      (h : s.sessions.lookup fd = some session) (hin : session.loggedIn = true)
      (hok : (s.book.cancelOrder orderId fd).ok = true) :
      Effect fd line s ({ s with book := (s.book.cancelOrder orderId fd).book }.observe
        (.cancelled fd orderId)) (.orderCancelled orderId) []

/-- An effect is at most one step. -/
theorem Effect.acts {fd : Int} {line : Bytes} {s s₁ : ExchangeServer} {reply : Response}
    {es : List TradeExecution} (he : Effect fd line s s₁ reply es) : Acts fd s s₁ := by
  cases he with
  | refuse session reason h hplain => exact Relation.ReflTransGen.refl
  | login session username h hrole hout hfree hplain =>
      exact Relation.ReflTransGen.single (Act.login s session username h hrole hout hfree)
  | subscribe session instrument h hrole =>
      exact Relation.ReflTransGen.single (Act.subscribe s session instrument h hrole)
  | unsubscribe session instrument h hrole hin =>
      exact Relation.ReflTransGen.single (Act.unsubscribe s session instrument h hrole hin)
  | order session h hrole hin hcmd =>
      exact Relation.ReflTransGen.single (Act.submit s session _ h hrole hin hcmd)
  | cancel session orderId h hin hok =>
      exact Relation.ReflTransGen.single (Act.cancel s session orderId h hin hok)

/-- The sender is there to get its answer. -/
theorem Effect.connected {fd : Int} {line : Bytes} {s s₁ : ExchangeServer} {reply : Response}
    {es : List TradeExecution} (he : Effect fd line s s₁ reply es) :
    s.connected fd = true ∧ s₁.connected fd = true := by
  cases he with
  | refuse session reason h hplain => exact ⟨connected_iff.mpr ⟨_, h⟩, connected_iff.mpr ⟨_, h⟩⟩
  | order session h hrole hin hcmd => exact ⟨connected_iff.mpr ⟨_, h⟩, connected_iff.mpr ⟨_, h⟩⟩
  | cancel session orderId h hin hok =>
      exact ⟨connected_iff.mpr ⟨_, h⟩, connected_iff.mpr ⟨_, h⟩⟩
  | login session username h | subscribe session instrument h | unsubscribe session instrument h =>
      refine ⟨connected_iff.mpr ⟨_, h⟩, ?_⟩
      simp [ExchangeServer.connected, observe, putSession]

/-- What is left of a line after its effect. -/
def settle (s : ExchangeServer) (fd : Int) (reply : Response) (es : List TradeExecution) :
    ExchangeServer :=
  publishAll fd es (s.sendTo fd reply)

section Line

variable {s : ExchangeServer} {fd : Int} {session : ClientSession}
  (h : s.sessions.lookup fd = some session)

include h

private theorem rejectWrongRole_reason (required : ClientRole) (type : CommandType) :
    ((session.role = .unknown ∨ session.role = required) ∧
      s.rejectWrongRole fd required type = (s, false)) ∨
    ∃ reason, Plain reason ∧
      s.rejectWrongRole fd required type = (s.sendTo fd (.error reason), true) := by
  unfold rejectWrongRole
  rw [sessionAt_of_lookup h]
  dsimp only
  split
  · next hrole => exact Or.inl ⟨hrole, rfl⟩
  · refine Or.inr ⟨_, ?_, rfl⟩
    have hactual : Plain (if session.role = .trader then ascii "trader"
        else ascii "market-data") := by
      split <;> decide
    exact (((plain_verb type).append (by decide)).append hactual).append (by decide)

private theorem requireLoggedInTrader_reason (type : CommandType) :
    ((session.role = .unknown ∨ session.role = .trader) ∧ session.loggedIn = true ∧
      s.requireLoggedInTrader fd type = (s, true)) ∨
    ∃ reason, Plain reason ∧
      s.requireLoggedInTrader fd type = (s.sendTo fd (.error reason), false) := by
  unfold requireLoggedInTrader
  rcases rejectWrongRole_reason h .trader type with ⟨hrole, hreject⟩ | ⟨reason, hplain, hreject⟩
  · rw [hreject]
    dsimp only
    rw [sessionAt_of_lookup h]
    dsimp only
    cases hin : session.loggedIn with
    | false => exact Or.inr ⟨_, by decide, rfl⟩
    | true => exact Or.inl ⟨hrole, rfl, rfl⟩
  · rw [hreject]
    exact Or.inr ⟨reason, hplain, rfl⟩

variable (line : Bytes)

private theorem handleLogin_effect : ∃ s₁ reply es, Effect fd line s s₁ reply es ∧
    s.handleLogin fd (parse line) = settle s₁ fd reply es := by
  unfold handleLogin
  rcases rejectWrongRole_reason h .trader (parse line).type with
    ⟨hrole, hreject⟩ | ⟨reason, hplain, hreject⟩
  · rw [hreject]
    dsimp only
    rw [sessionAt_of_lookup h]
    dsimp only
    split
    · next hfalse => exact absurd hfalse (by decide)
    · split
      · exact ⟨_, _, _, .refuse session _ h fun hname => Plain.append (by decide) hname, rfl⟩
      · next hout =>
        have harg := (plain_parse line).arg 0
        split
        · exact ⟨_, _, _, .refuse session _ h
            fun _ => (Plain.append (by decide) harg).append (by decide), rfl⟩
        · next hfree =>
          exact ⟨_, _, _, .login session _ h hrole (by simpa using hout) hfree harg, rfl⟩
  · rw [hreject]
    exact ⟨_, _, _, .refuse session reason h fun _ => hplain, rfl⟩

private theorem handleSubscription_effect : ∃ s₁ reply es, Effect fd line s s₁ reply es ∧
    s.handleSubscription fd (parse line) = settle s₁ fd reply es := by
  unfold handleSubscription
  rcases rejectWrongRole_reason h .marketData (parse line).type with
    ⟨hrole, hreject⟩ | ⟨reason, hplain, hreject⟩
  · rw [hreject]
    dsimp only
    rw [sessionAt_of_lookup h]
    dsimp only
    split
    · next hfalse => exact absurd hfalse (by decide)
    · split
      · exact ⟨_, _, _, .refuse session _ h
          fun _ => Plain.append (by decide) (plain_parse line).instrument, rfl⟩
      · next hin =>
        split
        · exact ⟨_, _, _, .subscribe session _ h hrole, rfl⟩
        · next htype =>
          have hmem : (parse line).instrument ∈ session.subscriptions := by
            by_contra hnot
            exact hin ⟨htype, hnot⟩
          exact ⟨_, _, _, .unsubscribe session _ h hrole hmem, rfl⟩
  · rw [hreject]
    exact ⟨_, _, _, .refuse session reason h fun _ => hplain, rfl⟩

private theorem handleOrder_effect (hcmd : 0 < (parse line).quantity) :
    ∃ s₁ reply es, Effect fd line s s₁ reply es ∧
      s.handleOrder fd (parse line) = settle s₁ fd reply es := by
  unfold handleOrder
  rcases requireLoggedInTrader_reason h (parse line).type with
    ⟨hrole, hin, hpass⟩ | ⟨reason, hplain, hpass⟩
  · rw [hpass]
    exact ⟨_, _, _, .order session h hrole hin hcmd, rfl⟩
  · rw [hpass]
    exact ⟨_, _, _, .refuse session reason h fun _ => hplain, rfl⟩

omit h in
private theorem plain_cancel_error (b : Book) (id requesterFd : Int) :
    Plain (b.cancelOrder id requesterFd).error := by
  unfold Book.cancelOrder
  split
  · exact Plain.append (by decide) (plain_decimal id)
  · split
    · exact (Plain.append (by decide) (plain_decimal id)).append (by decide)
    · exact plain_nil

private theorem handleCancel_effect : ∃ s₁ reply es, Effect fd line s s₁ reply es ∧
    s.handleCancel fd (parse line) = settle s₁ fd reply es := by
  unfold handleCancel
  rcases requireLoggedInTrader_reason h (parse line).type with
    ⟨hrole, hin, hpass⟩ | ⟨reason, hplain, hpass⟩
  · rw [hpass]
    dsimp only
    cases hok : (s.book.cancelOrder (parse line).orderId fd).ok with
    | true => exact ⟨_, _, _, .cancel session _ h hin hok, rfl⟩
    | false =>
        rw [cancelOrder_book_of_not_ok hok]
        exact ⟨_, _, _, .refuse session _ h fun _ => plain_cancel_error _ _ _, rfl⟩
  · rw [hpass]
    exact ⟨_, _, _, .refuse session reason h fun _ => hplain, rfl⟩

/-- **The shape of a line**: an effect, one reply, the notices. -/
theorem handleMessage_effect (hquit : ¬ Quits line) :
    ∃ s₁ reply es, Effect fd line s s₁ reply es ∧
      s.handleMessage fd line = settle s₁ fd reply es := by
  unfold handleMessage
  dsimp only
  split
  · exact ⟨_, _, _, .refuse session _ h fun _ => (plain_parse line).error, rfl⟩
  · next hvalid =>
    have hvalid' : (parse line).valid = true := by simpa using hvalid
    split
    · next htype => exact absurd ⟨hvalid', htype⟩ hquit
    · exact handleLogin_effect h line
    · exact handleSubscription_effect h line
    · exact handleSubscription_effect h line
    · next htype => exact handleOrder_effect h line (parse_order_pos hvalid' (Or.inl htype)).1
    · next htype => exact handleOrder_effect h line (parse_order_pos hvalid' (Or.inr htype)).1
    · exact handleCancel_effect h line
    · exact ⟨_, _, _, .refuse session _ h fun _ => by decide, rfl⟩

omit h in
theorem handleMessage_quit (hquit : Quits line) :
    s.handleMessage fd line = s.beginOrderlyClose fd .quit := by
  unfold handleMessage
  simp only [hquit.1, hquit.2, Bool.not_true, Bool.false_eq_true, if_false]

end Line

/-! ## Sessions after a flush and after a close -/

/-- After a flush, a session is another one, or the one that was flushed and has
survived. -/
theorem lookup_of_flush {s : ExchangeServer} {key fd : Int} {session y : ClientSession}
    (hkey : session.fd = key) (h : (s.flush key session).sessions.lookup fd = some y) :
    (fd ≠ key ∧ s.sessions.lookup fd = some y) ∨
      (fd = key ∧ y = (session.flush (s.kernel.sends key)).session ∧
        ∀ reason, (session.flush (s.kernel.sends key)).outcome ≠ .drop reason) := by
  subst hkey
  unfold ExchangeServer.flush at h
  dsimp only at h
  by_cases hfd : fd = session.fd
  · refine Or.inr ⟨hfd, ?_⟩
    split at h
    · exact absurd hfd (lookup_of_drop h).1
    · next wantRead wantWrite hend =>
      simp only [written, observe, putSession, lookup_insert, if_pos hfd] at h
      cases h
      exact ⟨rfl, fun reason => by rw [hend]; simp⟩
    · next hend =>
      simp only [written, observe, putSession, lookup_insert, if_pos hfd] at h
      cases h
      exact ⟨rfl, fun reason => by rw [hend]; simp⟩
  · refine Or.inl ⟨hfd, ?_⟩
    split at h
    · have h' := (lookup_of_drop h).2
      simpa only [written, observe, putSession, lookup_insert, if_neg hfd] using h'
    · simpa only [written, observe, putSession, lookup_insert, if_neg hfd] using h
    · simpa only [written, observe, putSession, lookup_insert, if_neg hfd] using h

/-! ## The trace of a flush, a send and a close -/

/-- The session is gone, or there is nothing to say about it. -/
def Parting (fd : Int) (s : ExchangeServer) (gone : List Obs) : Prop :=
  gone = [] ∨ ∃ reason, gone = [.dropped fd reason] ∧ s.sessions.lookup fd = none

theorem drop_parting {s : ExchangeServer} {fd : Int} {session : ClientSession}
    (h : s.sessions.lookup fd = some session) (reason : DropReason) :
    (s.drop fd reason).trace = s.trace ++ [.dropped fd reason] ∧
      Parting fd (s.drop fd reason) [.dropped fd reason] := by
  refine ⟨drop_trace h reason, Or.inr ⟨reason, rfl, ?_⟩⟩
  rw [drop_sessions, if_pos rfl]

theorem flush_trace {s : ExchangeServer} {key : Int} {session : ClientSession}
    (hkey : session.fd = key) : ∃ bytes gone,
      (s.flush key session).trace = s.trace ++ .sent key bytes :: gone ∧
        Parting key (s.flush key session) gone := by
  subst hkey
  have hlookup : (s.written session.fd session.fd
      (session.flush (s.kernel.sends session.fd))).sessions.lookup session.fd =
        some (session.flush (s.kernel.sends session.fd)).session := by
    simp [written, observe, putSession]
  unfold ExchangeServer.flush
  dsimp only
  split
  · next reason _ =>
    obtain ⟨htrace, hparting⟩ := drop_parting hlookup reason
    refine ⟨(session.flush (s.kernel.sends session.fd)).sent, _, ?_, hparting⟩
    rw [htrace]
    simp [written, observe, putSession]
  · exact ⟨_, [], rfl, Or.inl rfl⟩
  · exact ⟨_, [], rfl, Or.inl rfl⟩

theorem sendTo_trace {s : ExchangeServer} (hb : Base s) {dest : Int} {session : ClientSession}
    (h : s.sessions.lookup dest = some session) (message : Response) : ∃ bytes gone,
      (s.sendTo dest message).trace =
        s.trace ++ .queued dest message :: .sent dest bytes :: gone ∧
      Parting dest (s.sendTo dest message) gone := by
  have hown : (session.append message.render).fd = dest := hb.own dest session h
  simp only [sendTo, h]
  obtain ⟨bytes, gone, htrace, hparting⟩ := flush_trace
    (s := (s.putSession dest (session.append message.render)).observe (.queued dest message))
    hown
  refine ⟨bytes, gone, ?_, hparting⟩
  rw [htrace]
  simp [observe, putSession]

/-- A send to a client that is not there does nothing. -/
theorem sendTo_of_lookup_none {s : ExchangeServer} {dest : Int}
    (h : s.sessions.lookup dest = none) (message : Response) : s.sendTo dest message = s := by
  simp only [sendTo, h]

theorem beginOrderlyClose_trace {s : ExchangeServer} {fd : Int} {session : ClientSession}
    (h : s.sessions.lookup fd = some session) (reason : DropReason) : ∃ gone,
      (s.beginOrderlyClose fd reason).trace = s.trace ++ .leaving fd reason :: gone ∧
        Parting fd (s.beginOrderlyClose fd reason) gone := by
  have hlookup : ((s.putSession fd { session with closing := true, inbuf := [] }).observe
      (.leaving fd reason)).sessions.lookup fd =
        some { session with closing := true, inbuf := [] } := by
    simp [observe, putSession]
  simp only [beginOrderlyClose, h]
  split
  · obtain ⟨htrace, hparting⟩ := drop_parting hlookup reason
    refine ⟨_, ?_, hparting⟩
    rw [htrace]
    simp [observe, putSession]
  · exact ⟨[], rfl, Or.inl rfl⟩

/-! ## What every send keeps -/

section Sends

variable {I : ExchangeServer → Prop} {M : Int → Response → Prop}
  (hsend : ∀ s dest message, M dest message → Base s → I s → I (s.sendTo dest message))

/-- The messages an execution gives rise to are all of the kind `M`. -/
def NoticesAre (M : Int → Response → Prop) (e : TradeExecution) : Prop :=
  M e.buyerFd (.bought e.instrument e.quantity e.price) ∧
    M e.sellerFd (.sold e.instrument e.quantity e.price) ∧
    ∀ dest, M dest (.trade e.instrument e.quantity e.price)

include hsend

theorem publish_invariant {s : ExchangeServer} (hb : Base s) (hi : I s)
    {e : TradeExecution} (he : NoticesAre M e) : Base (s.publish e) ∧ I (s.publish e) := by
  obtain ⟨hbought, hsold, htrade⟩ := he
  have hkeep : ∀ (s : ExchangeServer) (dest : Int) (message : Response), M dest message →
      Base s ∧ I s → Base (s.sendTo dest message) ∧ I (s.sendTo dest message) :=
    fun s dest message hm hs =>
      ⟨sendTo_base hs.1 dest message, hsend s dest message hm hs.1 hs.2⟩
  have hparties := hkeep _ e.sellerFd _ hsold (hkeep s e.buyerFd _ hbought ⟨hb, hi⟩)
  unfold publish
  dsimp only
  split
  · exact hparties
  · exact Loop.run_invariant (I := fun s => Base s ∧ I s) (P := fun _ => True)
      (fun s dest _ hs => hkeep s dest _ (htrade dest) hs) hparties (fun _ _ => trivial)

theorem publishAll_invariant {s : ExchangeServer} (hb : Base s) (hi : I s) (fd : Int)
    {es : List TradeExecution} (hes : ∀ e ∈ es, NoticesAre M e) : I (publishAll fd es s) := by
  induction es generalizing s with
  | nil => exact hi
  | cons e es ih =>
      obtain ⟨hb', hi'⟩ := publish_invariant hsend hb hi (hes e (by simp))
      unfold publishAll
      dsimp only
      split
      · exact hi'
      · exact ih hb' hi' fun e' he' => hes e' (by simp [he'])

/-- **What sends of a kind keep, answering a line keeps** if the reply and the notices
are of that kind. -/
theorem settle_invariant {s : ExchangeServer} (hb : Base s) (hi : I s) {fd : Int}
    {reply : Response} {es : List TradeExecution} (hreply : M fd reply)
    (hes : ∀ e ∈ es, NoticesAre M e) : I (settle s fd reply es) :=
  publishAll_invariant hsend (sendTo_base hb fd reply) (hsend s fd reply hreply hb hi) fd hes

end Sends

/-- Notices of any kind. -/
theorem noticesAre_any (e : TradeExecution) : NoticesAre (fun _ _ => True) e :=
  ⟨trivial, trivial, fun _ => trivial⟩

/-! ## Stages -/

namespace ExchangeServer

/-- A line has left the input buffer and is about to be handled. -/
def taken (s : ExchangeServer) (fd : Int) (session : ClientSession) (line tail : Bytes) :
    ExchangeServer :=
  (s.putSession fd { session with inbuf := tail }).observe (.handling fd line)

/-- The record that a line has been handled. -/
def finish (s : ExchangeServer) (fd : Int) (line : Bytes) : ExchangeServer :=
  s.observe (.handled fd line (s.lineOutcome fd))

/-- A connection as `accept` returns it, with a new session. -/
def welcome (s : ExchangeServer) (fd : Int) (peer : Bytes) : ExchangeServer :=
  ((s.openFd fd).putSession fd { fd := fd, peer := peer }).observe (.accepted fd)

end ExchangeServer

/-- One piece of the work of the server, after which every message that was queued
has been flushed. -/
inductive Stage : ExchangeServer → ExchangeServer → Prop where
  | receive (s : ExchangeServer) (fd : Int) (session : ClientSession) (bytes : Bytes)
      (h : s.sessions.lookup fd = some session) (hopen : session.closing = false) :
      Stage s (s.receive fd session bytes)
  | line (s : ExchangeServer) (fd : Int) (session : ClientSession) (line tail : Bytes)
      (h : s.sessions.lookup fd = some session) (hopen : session.closing = false)
      (hline : splitLine session.inbuf = some (line, tail))
      (hquit : ¬ Quits (stripCarriageReturn line)) {s₁ : ExchangeServer} {reply : Response}
      {es : List TradeExecution}
      (he : Effect fd (stripCarriageReturn line)
        (s.taken fd session (stripCarriageReturn line) tail) s₁ reply es) :
      Stage s ((settle s₁ fd reply es).finish fd (stripCarriageReturn line))
  | quit (s : ExchangeServer) (fd : Int) (session : ClientSession) (line tail : Bytes)
      (h : s.sessions.lookup fd = some session) (hopen : session.closing = false)
      (hline : splitLine session.inbuf = some (line, tail))
      (hquit : Quits (stripCarriageReturn line)) :
      Stage s (((s.taken fd session (stripCarriageReturn line) tail).beginOrderlyClose fd
        .quit).finish fd (stripCarriageReturn line))
  | oversized (s : ExchangeServer) (fd : Int) (session : ClientSession)
      (h : s.sessions.lookup fd = some session) (hopen : session.closing = false) :
      Stage s ((s.sendTo fd oversizedMessage).beginOrderlyClose fd .oversized)
  | fin (s : ExchangeServer) (fd : Int) (session : ClientSession)
      (h : s.sessions.lookup fd = some session) (hopen : session.closing = false) :
      Stage s (s.beginOrderlyClose fd .fin)
  | writable (s : ExchangeServer) (fd : Int) : Stage s (s.onWritable fd)
  | abort (s : ExchangeServer) (fd : Int) (reason : DropReason)
      (h : reason.orderly = false) : Stage s (s.drop fd reason)
  | accept (s : ExchangeServer) (fd : Int) (peer : Bytes) (hfd : fd ∉ s.kernel.openFds)
      (h : s.sessions.lookup fd = none) (hnonneg : 0 ≤ fd) :
      Stage s ((s.welcome fd peer).register fd)
  | bounce (s : ExchangeServer) (fd : Int) (hfd : fd ∉ s.kernel.openFds) :
      Stage s (((s.openFd fd).observe (.bounced fd)).closeFd fd)
  | pause (s : ExchangeServer) : Stage s s.pauseAccepting
  | resume (s : ExchangeServer) : Stage s s.resumeAcceptingIfDue
  | reap (s : ExchangeServer) : Stage s s.reapClosed

abbrev Stages : ExchangeServer → ExchangeServer → Prop := Relation.ReflTransGen Stage

section Moves

variable {s : ExchangeServer} (hb : Base s)

include hb

theorem settle_acts {fd : Int} {line : Bytes} {s₁ : ExchangeServer} {reply : Response}
    {es : List TradeExecution} (he : Effect fd line s s₁ reply es) :
    Acts fd s (settle s₁ fd reply es) := by
  have hb₁ := he.acts.base hb
  refine he.acts.trans ?_
  cases he with
  | order session h hrole hin hcmd =>
      have hsend : Acts fd (s.submit fd (parse line)) (s.accepted fd (parse line)) :=
        sendTo_acts hb₁ fd fd trivial
      refine hsend.trans (publishAll_acts (hsend.base hb₁) fd ?_)
      intro e he
      exact hsend.awaiting ⟨s.trace, _, _, _, [], rfl, by simp, List.mem_map.mp he⟩
  | refuse | login | subscribe | unsubscribe | cancel => exact sendTo_acts hb₁ fd fd trivial

omit hb in
theorem register_envs {fd : Int} {peer : Bytes} (hfd : fd ∉ s.kernel.openFds)
    (h : s.sessions.lookup fd = none) (hnonneg : 0 ≤ fd) :
    Envs s ((s.welcome fd peer).register fd) := by
  have haccept : Env s (s.welcome fd peer) := Env.accept s fd peer hfd h hnonneg
  have hlookup : (s.welcome fd peer).sessions.lookup fd = some { fd := fd, peer := peer } := by
    simp [welcome, observe, putSession]
  refine Relation.ReflTransGen.head haccept ?_
  unfold register
  dsimp only
  have hrelist := Env.timer (s.welcome fd peer) (s.welcome fd peer).acceptResumeAt
    ((s.welcome fd peer).loop.add fd true false).1
  split
  · exact Relation.ReflTransGen.single hrelist
  · exact Relation.ReflTransGen.tail (Relation.ReflTransGen.single hrelist)
      (Env.refuse _ fd peer hlookup)

/-- **A stage is a sequence of moves.** -/
theorem Stage.moves {s' : ExchangeServer} (hstage : Stage s s') : Moves s s' := by
  cases hstage with
  | receive fd session bytes h hopen =>
      exact Relation.ReflTransGen.single (Move.serve _ (Serve.receive s session bytes h hopen))
  | line fd session line tail h hopen hline hquit he =>
      have htake := Serve.take s session line tail h hline
      have hserves : Serves fd s _ :=
        Relation.ReflTransGen.head htake (settle_acts (htake.base hb) he).serves
      exact Serves.moves (hserves.tail (Serve.handled _ _))
  | quit fd session line tail h hopen hline hquit =>
      have htake := Serve.take s session line tail h hline
      have hserves : Serves fd s _ :=
        Relation.ReflTransGen.head htake (beginOrderlyClose_acts fd .quit).serves
      exact Serves.moves (hserves.tail (Serve.handled _ _))
  | oversized fd session h hopen => exact (oversized_acts hb fd).serves.moves
  | fin fd session h hopen => exact (beginOrderlyClose_acts fd .fin).serves.moves
  | writable fd => exact (onWritable_acts hb fd fd).serves.moves
  | abort fd reason h =>
      exact Relation.ReflTransGen.single (Move.serve _ (Serve.act s (drop_act s fd fd h)))
  | accept fd peer hfd h hnonneg => exact (register_envs hfd h hnonneg).moves
  | bounce fd hfd => exact Relation.ReflTransGen.single (Move.env _ (Env.bounce s fd hfd))
  | pause =>
      unfold pauseAccepting
      split
      · exact Relation.ReflTransGen.refl
      · exact Relation.ReflTransGen.single (Move.env _ (Env.timer _ _ _))
  | resume =>
      unfold resumeAcceptingIfDue
      split
      · exact Relation.ReflTransGen.refl
      · split
        · exact Relation.ReflTransGen.refl
        · exact Relation.ReflTransGen.single (Move.env _ (Env.timer _ _ _))
  | reap => exact Relation.ReflTransGen.single (Move.env _ (Env.reap s))

theorem Stages.moves {s' : ExchangeServer} (hstages : Stages s s') : Moves s s' := by
  induction hstages with
  | refl => exact Relation.ReflTransGen.refl
  | tail _ hstage ih => exact ih.trans (hstage.moves (ih.base hb))

/-! ## The loops are sequences of stages -/

omit hb in
theorem handleLine_stage {fd : Int} {session : ClientSession} {line tail : Bytes}
    (h : s.sessions.lookup fd = some session) (hopen : session.closing = false)
    (hline : splitLine session.inbuf = some (line, tail)) :
    Stage s (s.handleLine fd session (stripCarriageReturn line) tail) := by
  by_cases hquit : Quits (stripCarriageReturn line)
  · have hstage := Stage.quit s fd session line tail h hopen hline hquit
    rw [← handleMessage_quit _ hquit] at hstage
    exact hstage
  · have hlookup : (s.taken fd session (stripCarriageReturn line) tail).sessions.lookup fd =
        some { session with inbuf := tail } := by
      simp [taken, observe, putSession]
    obtain ⟨s₁, reply, es, he, hhandle⟩ := handleMessage_effect hlookup _ hquit
    have hstage := Stage.line s fd session line tail h hopen hline hquit he
    rw [← hhandle] at hstage
    exact hstage

omit hb in
theorem consume_stages {fd : Int} {session : ClientSession} (chunk : Chunk)
    (h : s.sessions.lookup fd = some session) (hopen : session.closing = false) :
    Stages s ((s.receive fd session chunk.bytes).consumeMessages fd).1 := by
  refine consumeLoop_invariant (I := Stages s) ?_ ?_ _ ?_
    (Relation.ReflTransGen.single (Stage.receive s fd session chunk.bytes h hopen))
  · intro s₁ x line tail hx hopen' hline hstages
    exact hstages.tail (handleLine_stage hx hopen' hline)
  · intro s₁ x hx hopen' _ _ hstages
    exact hstages.tail (Stage.oversized s₁ fd x hx hopen')
  · intro x hx
    rw [receive_lookup] at hx
    cases hx
    exact hopen

omit hb in
theorem onReadable_stages (fd : Int) (script : List RecvOutcome) :
    Stages s (onReadable fd script s) := by
  refine onReadable_invariant (I := Stages s) ?_ ?_ ?_ script Relation.ReflTransGen.refl
  · intro s₁ session chunk h hopen hstages
    exact hstages.trans (consume_stages chunk h hopen)
  · intro s₁ session h hopen hstages
    exact hstages.tail (Stage.fin s₁ fd session h hopen)
  · intro s₁ hstages
    exact hstages.tail (Stage.abort s₁ fd .recvFailed rfl)

theorem acceptPending_stages (script : List AcceptOutcome) :
    Stages s (acceptPending script s) := by
  induction script generalizing s with
  | nil => exact Relation.ReflTransGen.refl
  | cons outcome script ih =>
      cases outcome with
      | again => exact Relation.ReflTransGen.refl
      | aborted => exact Relation.ReflTransGen.refl
      | failed => exact Relation.ReflTransGen.refl
      | exhausted => exact Relation.ReflTransGen.single (Stage.pause s)
      | connection fd peer nonblocking =>
          unfold acceptPending
          split
          · exact Relation.ReflTransGen.refl
          · next hfd =>
            dsimp only
            split
            · exact Relation.ReflTransGen.single (Stage.bounce s fd hfd)
            · rw [hb.emplace hfd]
              have haccept := Stage.accept s fd peer hfd (hb.lookup_none hfd)
                (Int.natCast_nonneg fd)
              exact Relation.ReflTransGen.head haccept (ih ((haccept.moves hb).base hb))

theorem onEvent_stages (e : Event) (a : Answers) : Stages s (s.onEvent e a) := by
  by_cases hne : e.fd = s.listenerFd
  · unfold onEvent
    rw [if_pos hne]
    exact acceptPending_stages hb _
  · refine onEvent_invariant (I := Stages s) ?_ ?_ ?_ hne Relation.ReflTransGen.refl
    · intro s₁ hstages
      exact hstages.tail (Stage.writable s₁ e.fd)
    · intro s₁ hstages
      exact hstages.trans (onReadable_stages e.fd a.recvs)
    · intro s₁ hstages
      exact hstages.tail (Stage.abort s₁ e.fd .hangup rfl)

end Moves

/-- **A turn is a sequence of stages**, once its answers are laid out. -/
theorem turn_stages {s : ExchangeServer} (hb : Base s) (t : Turn) :
    Stages (s.load t.answers) (s.turn t) := by
  have hb' : Base (s.load t.answers) := (Env.load s t.answers).base hb
  unfold turn
  dsimp only
  split
  · exact Relation.ReflTransGen.single (Stage.resume _)
  · exact onEvent_stages hb' _ t.answers
  · exact Relation.ReflTransGen.single (Stage.reap _)

/-! ## What the calls on the event loop keep -/

/-- Every call the server makes on its event loop keeps `L`. -/
structure LoopRule (L : EventLoop → Prop) : Prop where
  add : ∀ l fd wantRead wantWrite, L l → L (l.add fd wantRead wantWrite).1
  update : ∀ l fd wantRead wantWrite, L l → L (l.update fd wantRead wantWrite).1
  remove : ∀ l fd, L l → L (l.remove fd)

section LoopRule

variable {L : EventLoop → Prop} (hL : LoopRule L) {s : ExchangeServer} (h : L s.loop)

include hL h

theorem LoopRule.drop (fd : Int) (reason : DropReason) : L (s.drop fd reason).loop := by
  unfold ExchangeServer.drop
  split
  · exact h
  · exact hL.remove s.loop fd h

theorem LoopRule.flush (key : Int) (session : ClientSession) :
    L (s.flush key session).loop := by
  unfold ExchangeServer.flush
  dsimp only
  split
  · exact hL.drop (s := s.written key session.fd _) h _ _
  · exact hL.update s.loop _ _ _ h
  · exact h

theorem LoopRule.sendTo (dest : Int) (message : Response) : L (s.sendTo dest message).loop := by
  unfold ExchangeServer.sendTo
  split
  · exact h
  · exact hL.flush (s := (s.putSession dest _).observe _) h _ _

theorem LoopRule.beginOrderlyClose (fd : Int) (reason : DropReason) :
    L (s.beginOrderlyClose fd reason).loop := by
  unfold ExchangeServer.beginOrderlyClose
  split
  · exact h
  · dsimp only
    split
    · exact hL.drop (s := (s.putSession fd _).observe _) h _ _
    · exact hL.update s.loop _ _ _ h

theorem LoopRule.settle (hb : Base s) (fd : Int) (reply : Response) (es : List TradeExecution) :
    L (settle s fd reply es).loop :=
  settle_invariant (I := fun s => L s.loop) (M := fun _ _ => True)
    (fun _ dest message _ _ h => hL.sendTo h dest message) hb h trivial
    fun e _ => noticesAre_any e

/-- **What the calls on the event loop keep, every stage keeps.** -/
theorem LoopRule.stage (hb : Base s) {s' : ExchangeServer} (hstage : Stage s s') : L s'.loop := by
  cases hstage with
  | receive fd session bytes hsession hopen => exact h
  | @line fd session line tail hsession hopen hline hquit s₁ reply es he =>
      have htake := Serve.take s session line tail hsession hline
      have heffect : L s₁.loop := by
        cases he with
        | refuse | login | subscribe | unsubscribe | order | cancel => exact h
      exact hL.settle heffect (he.acts.base (htake.base hb)) fd reply es
  | quit fd session line tail hsession hopen hline hquit =>
      exact hL.beginOrderlyClose (s := s.taken fd session _ tail) h fd .quit
  | oversized fd session hsession hopen =>
      exact hL.beginOrderlyClose (hL.sendTo h fd oversizedMessage) fd .oversized
  | fin fd session hsession hopen => exact hL.beginOrderlyClose h fd .fin
  | writable fd =>
      unfold onWritable
      split
      · exact h
      · exact hL.flush h fd _
  | abort fd reason hreason => exact hL.drop h fd reason
  | accept fd peer hfd hnone hnonneg =>
      unfold register
      dsimp only
      split
      · exact hL.add s.loop fd true false h
      · exact hL.add s.loop fd true false h
  | bounce fd hfd => exact h
  | pause =>
      unfold pauseAccepting
      split
      · exact h
      · exact hL.update s.loop _ _ _ h
  | resume =>
      unfold resumeAcceptingIfDue
      split
      · exact h
      · split
        · exact h
        · exact hL.update s.loop _ _ _ h
  | reap =>
      rw [reapClosed_eq]
      exact h

theorem LoopRule.stages (hb : Base s) {s' : ExchangeServer} (hstages : Stages s s') :
    L s'.loop := by
  induction hstages with
  | refl => exact h
  | tail hbefore hstage ih => exact hL.stage ih ((Stages.moves hb hbefore).base hb) hstage

end LoopRule

/-- **Invariant rule for runs of stages.**  `P` is what is asked of the answers. -/
theorem run_stage_invariant {I : ExchangeServer → Prop} {P : Answers → Prop} (c : Setup)
    (hstart : I (ExchangeServer.start c.backend c.listenerFd c.openFds c.clock))
    (hload : ∀ s a, P a → I s → I (s.load a))
    (hstage : ∀ s s', Reachable c s → Stage s s' → I s → I s')
    {turns : List Turn} (hP : ∀ t ∈ turns, P t.answers) : I (run c turns) := by
  have hrun : Reachable c (run c turns) ∧ I (run c turns) := by
    refine Loop.run_invariant (I := fun s => Reachable c s ∧ I s)
      (P := fun t : Turn => P t.answers) ?_ ⟨Relation.ReflTransGen.refl, hstart⟩ hP
    rintro s t ht ⟨hreach, hi⟩
    have hload' : Reachable c (s.load t.answers) :=
      Relation.ReflTransGen.tail hreach (Move.env _ (Env.load s t.answers))
    have hstages := turn_stages hreach.base t
    refine ⟨hload'.trans (Stages.moves hload'.base hstages), ?_⟩
    have hall : ∀ s', Stages (s.load t.answers) s' → I s' := by
      intro s' hs'
      induction hs' with
      | refl => exact hload s t.answers ht hi
      | tail hbefore hlast ih =>
          exact hstage _ _ (hload'.trans (Stages.moves hload'.base hbefore)) hlast ih
    exact hall _ hstages
  exact hrun.2

end SocketExchange.Server
