import SocketExchange.Lib.Log
import SocketExchange.Server.Registry

/-!
# A descriptor number is not a connection

Orders, executions and messages name their owner by a descriptor number, and the
kernel hands the numbers of closed connections out again.  The trace tells the
connections apart: one begins where its number is accepted and ends where it is
dropped.

`OwnedSince trace fd id` says that the order `id` was submitted under the number
`fd` and that the connection has been the same one since.  `ConnInv` claims it
for every resting order now, and for every match, cancel and notification at the
moment it happened.
-/

namespace SocketExchange.Server

open SocketExchange.Lib
open SocketExchange.Lib.Bytes
open SocketExchange.Network
open SocketExchange.Protocol
open SocketExchange.Trading.OrderBook
open ExchangeServer

/-! ## Connections in the trace -/

/-- A connection under the number `fd` begins or ends here. -/
def Obs.boundary (fd : Int) : Obs → Bool
  | .accepted fd' => decide (fd' = fd)
  | .refused fd' => decide (fd' = fd)
  | .dropped fd' _ => decide (fd' = fd)
  | _ => false

/-- The order `id` was submitted by `fd`, by the connection that has the number
now. -/
def OwnedSince (trace : List Obs) (fd id : Int) : Prop :=
  ∃ before o quantity fills after, trace = before ++ .submitted o quantity fills :: after ∧
    o.orderId = id ∧ o.ownerFd = fd ∧ ∀ x ∈ after, x.boundary fd = false

theorem OwnedSince.append {trace new : List Obs} {fd id : Int} (h : OwnedSince trace fd id)
    (hnew : ∀ x ∈ new, x.boundary fd = false) : OwnedSince (trace ++ new) fd id := by
  obtain ⟨before, o, quantity, fills, after, rfl, hid, hfd, hafter⟩ := h
  refine ⟨before, o, quantity, fills, after ++ new, by simp, hid, hfd, ?_⟩
  intro x hx
  rcases List.mem_append.mp hx with hx | hx
  · exact hafter x hx
  · exact hnew x hx

/-- The descriptor an execution names on a side. -/
def party (e : TradeExecution) : Side → Int
  | .buy => e.buyerFd
  | .sell => e.sellerFd

/-- The id of the order an execution consumed on a side. -/
def idOn (o : Incoming) (f : Fill) (side : Side) : Int :=
  if side = o.side then f.incomingId else f.restingId

/-- A party of the execution, on one side of it, was told; and the order it had
there is its own. -/
def Notified (before : List Obs) (fd : Int) (side : Side) (instrument : Bytes)
    (quantity price : Int) : Prop :=
  ∃ o submitted fills f, .submitted o submitted fills ∈ before ∧ f ∈ fills ∧
    party f.execution side = fd ∧ f.execution.instrument = instrument ∧
    f.execution.quantity = quantity ∧ f.execution.price = price ∧
    OwnedSince before fd (idOn o f side)

/-- What a fill says about the two orders it consumed. -/
structure FillOk (before : List Obs) (o : Incoming) (f : Fill) : Prop where
  incomingId : f.incomingId = o.orderId
  incomingParty : party f.execution o.side = o.ownerFd
  resting : OwnedSince before (party f.execution o.side.opposite) f.restingId

/-- An order that is matched, cancelled or reported belongs, at that moment, to the
connection that has its owner's number. -/
def Obs.InOrder (before : List Obs) : Obs → Prop
  | .submitted o _ fills => ∀ f ∈ fills, FillOk before o f
  | .cancelled fd id => OwnedSince before fd id
  | .queued fd (.bought i q p) => Notified before fd .buy i q p
  | .queued fd (.sold i q p) => Notified before fd .sell i q p
  | _ => True

/-- No connection inherits anything from an earlier one with its number. -/
structure ConnInv (s : ExchangeServer) : Prop where
  alive : ∀ fd session, s.sessions.lookup fd = some session → ∃ before after,
    s.trace = before ++ .accepted fd :: after ∧ ∀ x ∈ after, x.boundary fd = false
  resting : ∀ q, ∀ n ∈ s.book.queue q, OwnedSince s.trace n.order.ownerFd n.order.id
  past : Log.Each Obs.InOrder s.trace

theorem connInv_start (c : Setup) :
    ConnInv (ExchangeServer.start c.backend c.listenerFd c.openFds c.clock) where
  alive := by simp [ExchangeServer.start]
  resting := by
    intro q n hn
    simp only [ExchangeServer.start, queue_empty] at hn
    cases hn
  past := Log.each_nil

/-! ## Steps that only extend the trace -/

/-- A connection that is still there is still the same one. -/
private theorem ConnInv.alive_append {s : ExchangeServer} (hi : ConnInv s) {fd : Int}
    {session : ClientSession} (h : s.sessions.lookup fd = some session) {new : List Obs}
    (hnew : ∀ x ∈ new, x.boundary fd = false) : ∃ before after,
      s.trace ++ new = before ++ .accepted fd :: after ∧ ∀ x ∈ after, x.boundary fd = false := by
  obtain ⟨before, after, htrace, hafter⟩ := hi.alive fd session h
  refine ⟨before, after ++ new, by rw [htrace]; simp, ?_⟩
  intro x hx
  rcases List.mem_append.mp hx with hx | hx
  · exact hafter x hx
  · exact hnew x hx

/-- Steps that begin and end no connection and touch no order. -/
private theorem ConnInv.quiet {s s' : ExchangeServer} (hi : ConnInv s) {new : List Obs}
    (htrace : s'.trace = s.trace ++ new) (hnew : ∀ x ∈ new, ∀ before, x.InOrder before)
    (hsame : ∀ x ∈ new, ∀ fd, x.boundary fd = false) (hbook : s'.book = s.book)
    (hsessions : ∀ fd b, s'.sessions.lookup fd = some b →
      ∃ a, s.sessions.lookup fd = some a) : ConnInv s' := by
  refine ⟨?_, ?_, ?_⟩
  · intro fd b hb
    obtain ⟨a, ha⟩ := hsessions fd b hb
    rw [htrace]
    exact hi.alive_append ha fun x hx => hsame x hx fd
  · intro q n hn
    rw [hbook] at hn
    rw [htrace]
    exact (hi.resting q n hn).append fun x hx => hsame x hx _
  · rw [htrace]
    exact hi.past.append hnew

private theorem ConnInv.same {s s' : ExchangeServer} (hi : ConnInv s) (new : List Obs)
    (htrace : s'.trace = s.trace ++ new) (hnew : ∀ x ∈ new, ∀ before, x.InOrder before)
    (hsame : ∀ x ∈ new, ∀ fd, x.boundary fd = false) (hbook : s'.book = s.book)
    (hs : s'.sessions = s.sessions) : ConnInv s' := by
  refine hi.quiet htrace hnew hsame hbook ?_
  intro fd b hb
  rw [hs] at hb
  exact ⟨b, hb⟩

private theorem ConnInv.put {s s' : ExchangeServer} (hi : ConnInv s) {fd : Int}
    {session session' : ClientSession} (h : s.sessions.lookup fd = some session)
    (hs : s'.sessions = s.sessions.insert fd session') (o : Obs)
    (htrace : s'.trace = s.trace ++ [o]) (ho : ∀ before, o.InOrder before)
    (hsame : ∀ fd, o.boundary fd = false) (hbook : s'.book = s.book) : ConnInv s' := by
  refine hi.quiet htrace (by simpa using ho) (by simpa using hsame) hbook ?_
  rw [hs]
  exact forall_lookup_insert ⟨session, h⟩ fun _ b hb => ⟨b, hb⟩

/-! ## Messages -/

/-- If a connection is there and none was accepted meanwhile, it has been there
all along. -/
private theorem ConnInv.unbroken {s : ExchangeServer} (hi : ConnInv s) {fd : Int}
    {session : ClientSession} (h : s.sessions.lookup fd = some session) {x : Obs}
    (hx : x.boundary fd = false) {before after : List Obs} (htrace : s.trace = before ++ x :: after)
    (hafter : ∀ y ∈ after, y ≠ .accepted fd) : ∀ y ∈ after, y.boundary fd = false := by
  obtain ⟨before', after', htrace', hafter'⟩ := hi.alive fd session h
  rw [htrace] at htrace'
  rcases List.append_eq_append_iff.mp htrace' with ⟨mid, hbefore, hmid⟩ | ⟨mid, hbefore, hmid⟩
  · cases mid with
    | nil =>
        obtain ⟨rfl, rfl⟩ := List.cons.inj hmid
        exact hafter'
    | cons y mid =>
        -- the connection would have been accepted after `x`
        rw [List.cons_append] at hmid
        obtain ⟨_, hrest⟩ := List.cons.inj hmid
        exact absurd rfl (hafter (.accepted fd) (by rw [hrest]; simp))
  · cases mid with
    | nil =>
        obtain ⟨rfl, rfl⟩ := List.cons.inj hmid
        exact hafter'
    | cons y mid =>
        rw [List.cons_append] at hmid
        obtain ⟨_, hrest⟩ := List.cons.inj hmid
        intro z hz
        exact hafter' z (by rw [hrest]; simp [hz])

/-- A connected party of an awaiting execution is told of its own order. -/
private theorem ConnInv.notified {s : ExchangeServer} (hi : ConnInv s) {fd : Int}
    {session : ClientSession} (h : s.sessions.lookup fd = some session) {e : TradeExecution}
    (he : Awaiting s.trace e) {side : Side} (hparty : party e side = fd) :
    Notified s.trace fd side e.instrument e.quantity e.price := by
  obtain ⟨before, o, quantity, fills, after, htrace, hafter, f, hf, rfl⟩ := he
  have hok : FillOk before o f := hi.past before _ after htrace f hf
  have hsame : ∀ x ∈ after, x.boundary fd = false :=
    hi.unbroken h rfl htrace fun y hy => hafter y hy fd
  refine ⟨o, quantity, fills, f, by rw [htrace]; simp, hf, hparty, rfl, rfl, rfl, ?_⟩
  unfold idOn
  split
  · next hside =>
    subst hside
    refine ⟨before, o, quantity, fills, after, htrace, hok.incomingId.symm, ?_, hsame⟩
    exact hok.incomingParty.symm.trans hparty
  · next hside =>
    have hopp : side = o.side.opposite := by
      revert hside
      cases side <;> cases o.side <;> decide
    subst hopp
    have hresting := hok.resting
    rw [hparty] at hresting
    rw [htrace]
    refine hresting.append ?_
    intro x hx
    rcases List.mem_cons.mp hx with rfl | hx
    · rfl
    · exact hsame x hx

private theorem ConnInv.queue {s : ExchangeServer} (hi : ConnInv s) {dest : Int}
    {session : ClientSession} (h : s.sessions.lookup dest = some session)
    {message : Response} (howed : Owed s.trace dest message) :
    ConnInv ((s.putSession dest (session.append message.render)).observe
      (.queued dest message)) := by
  refine ⟨?_, ?_, hi.past.concat ?_⟩
  · intro fd x hx
    obtain ⟨y, hy⟩ : ∃ y, s.sessions.lookup fd = some y :=
      forall_lookup_insert (P := fun fd _ => ∃ y, s.sessions.lookup fd = some y)
        ⟨session, h⟩ (fun _ b hb => ⟨b, hb⟩) fd x hx
    exact hi.alive_append hy (by simp [Obs.boundary])
  · intro q n hn
    exact (hi.resting q n hn).append (by simp [Obs.boundary])
  · cases message with
    | bought i q p =>
        obtain ⟨e, he, hparty, rfl, rfl, rfl⟩ := howed
        exact hi.notified h he hparty
    | sold i q p =>
        obtain ⟨e, he, hparty, rfl, rfl, rfl⟩ := howed
        exact hi.notified h he hparty
    | _ => trivial

/-! ## Orders -/

/-- Whom the two sides of a fill belong to. -/
private theorem fill_parties (o : Incoming) (r : Order) (traded : Int) :
    party (o.fill r traded).execution o.side = o.ownerFd ∧
      party (o.fill r traded).execution o.side.opposite = r.ownerFd := by
  cases h : o.side <;> simp [party, Incoming.fill, Side.opposite, h]

private theorem ConnInv.submit {s : ExchangeServer} (hr : Registry s) (hi : ConnInv s)
    {fd : Int} (cmd : ParsedCommand) : ConnInv (s.submit fd cmd) := by
  set o : Incoming := s.book.incoming fd cmd.instrument (sideOf cmd.type) cmd.price
  refine ⟨?_, ?_, hi.past.concat ?_⟩
  · intro fd' x hx
    exact hi.alive_append hx (by simp [Obs.boundary])
  · intro q n hn
    rcases (mem_addOrder hr.book _ _ _ _ _).mp hn with ⟨m, hm, _, rfl⟩ | ⟨_, _, rfl⟩
    · exact (hi.resting q m hm).append (by simp [Obs.boundary])
    · exact ⟨s.trace, o, cmd.quantity, _, [], rfl, rfl, rfl, by simp⟩
  · intro f hf
    rw [addResult, addOrder_fills] at hf
    obtain ⟨t, ht, rfl⟩ := List.mem_map.mp hf
    obtain ⟨_, _, _, n, hn, hnt⟩ := matched_taken hr.book _ _ _ _ t ht
    obtain ⟨hown, hother⟩ := fill_parties o t.1 t.2
    refine ⟨rfl, hown, ?_⟩
    show OwnedSince s.trace (party (o.fill t.1 t.2).execution o.side.opposite) t.1.id
    rw [hother, ← hnt]
    exact hi.resting _ n hn

private theorem ConnInv.cancel {s : ExchangeServer} (hr : Registry s) (hi : ConnInv s)
    {orderId fd : Int} (hok : (s.book.cancelOrder orderId fd).ok = true) :
    ConnInv ({ s with book := (s.book.cancelOrder orderId fd).book }.observe
      (.cancelled fd orderId)) := by
  refine ⟨?_, ?_, hi.past.concat ?_⟩
  · intro fd' x hx
    exact hi.alive_append hx (by simp [Obs.boundary])
  · intro q n hn
    obtain ⟨m, hm, hk⟩ := (cancelOrder_shrunk hr.book orderId fd).origin hn
    rw [← owner_of_key hk, ← id_of_key hk]
    exact (hi.resting q m hm).append (by simp [Obs.boundary])
  · rcases cancelOrder_cases hr.book orderId fd with ⟨hno, _, _⟩ | ⟨_, ⟨q, n, hn, hid, hfd⟩, _⟩
    · rw [hok] at hno
      cases hno
    · show OwnedSince s.trace fd orderId
      rw [← hid, ← hfd]
      exact hi.resting q n hn

/-! ## Connections -/

private theorem ConnInv.drop {s : ExchangeServer} (hr : Registry s) (hi : ConnInv s) (fd : Int)
    (reason : DropReason) : ConnInv (s.drop fd reason) := by
  cases h : s.sessions.lookup fd with
  | none =>
      rw [drop_of_lookup_none h]
      exact hi
  | some session =>
      have htrace := drop_trace h reason
      have hother : ∀ fd', fd' ≠ fd → ∀ x ∈ [Obs.dropped fd reason], x.boundary fd' = false := by
        intro fd' hne
        simpa [Obs.boundary] using Ne.symm hne
      refine ⟨?_, ?_, by rw [htrace]; exact hi.past.concat trivial⟩
      · intro fd' x hx
        obtain ⟨hne, hx⟩ := lookup_of_drop hx
        rw [htrace]
        exact hi.alive_append hx (hother fd' hne)
      · -- the orders left are those of other connections
        intro q n hn
        have hbook : (s.drop fd reason).book = s.book.removeOrdersOf s.kernel.order fd := by
          simp only [ExchangeServer.drop, h]
        rw [hbook] at hn
        obtain ⟨hn, howner⟩ := (removeOrdersOf_kept s.kernel.order hr.book fd).mem.mp hn
        rw [htrace]
        exact (hi.resting q n hn).append (hother _ (by simpa using howner))

private theorem ConnInv.accept {s : ExchangeServer} (hr : Registry s) (hi : ConnInv s) {fd : Int}
    (h : s.sessions.lookup fd = none) (peer : Bytes) :
    ConnInv (((s.openFd fd).putSession fd { fd := fd, peer := peer }).observe
      (.accepted fd)) := by
  have hother : ∀ fd', fd' ≠ fd → ∀ x ∈ [Obs.accepted fd], x.boundary fd' = false := by
    intro fd' hne
    simpa [Obs.boundary] using Ne.symm hne
  refine ⟨?_, ?_, hi.past.concat trivial⟩
  · intro fd' x hx
    simp only [observe, putSession, openFd, lookup_insert] at hx ⊢
    split at hx
    · next heq =>
      subst heq
      exact ⟨s.trace, [], rfl, by simp⟩
    · next hne => exact hi.alive_append hx (hother fd' hne)
  · intro q n hn
    obtain ⟨x, hx, _⟩ := hr.owner q n hn
    refine (hi.resting q n hn).append (hother _ ?_)
    intro heq
    rw [heq, h] at hx
    cases hx

private theorem ConnInv.refuse {s : ExchangeServer} (hr : Registry s) (hi : ConnInv s) {fd : Int}
    {peer : Bytes} (h : s.sessions.lookup fd = some { fd := fd, peer := peer }) :
    ConnInv (closeFd ({ s with sessions := s.sessions.erase fd }.observe (.refused fd)) fd) := by
  have hother : ∀ fd', fd' ≠ fd → ∀ x ∈ [Obs.refused fd, .closed fd], x.boundary fd' = false := by
    intro fd' hne
    simpa [Obs.boundary] using Ne.symm hne
  have htrace := refuse_trace s fd
  refine ⟨?_, ?_, by rw [htrace]; exact hi.past.append (by simp [Obs.InOrder])⟩
  · intro fd' x hx
    obtain ⟨hne, hx⟩ := lookup_of_erase hx
    rw [htrace]
    exact hi.alive_append hx (hother fd' hne)
  · intro q n hn
    obtain ⟨x, hx, hrole⟩ := hr.owner q n hn
    rw [htrace]
    refine (hi.resting q n hn).append (hother _ ?_)
    intro heq
    rw [heq, h] at hx
    cases hx
    cases hrole

/-! ## Every step -/

theorem Act.connInv {fd : Int} {s s' : ExchangeServer} (hact : Act fd s s')
    (hr : Registry s) (hi : ConnInv s) : ConnInv s' := by
  cases hact with
  | queue dest session message h howed => exact hi.queue h howed
  | write dest session h => exact hi.put h rfl _ rfl (fun _ => trivial) (fun _ => rfl) rfl
  | drop dest reason h => exact hi.drop hr dest reason
  | relist loop => exact hi.same [] (List.append_nil _).symm (by simp) (by simp) rfl rfl
  | leave session reason h => exact hi.put h rfl _ rfl (fun _ => trivial) (fun _ => rfl) rfl
  | interest session wantRead wantWrite h =>
      refine hi.quiet (List.append_nil _).symm (by simp) (by simp) rfl ?_
      exact forall_lookup_insert ⟨session, h⟩ fun _ b hb => ⟨b, hb⟩
  | login session username h hrole hout hfree =>
      exact hi.put h rfl _ rfl (fun _ => trivial) (fun _ => rfl) rfl
  | subscribe session instrument h hrole =>
      exact hi.put h rfl _ rfl (fun _ => trivial) (fun _ => rfl) rfl
  | unsubscribe session instrument h hrole hin =>
      exact hi.put h rfl _ rfl (fun _ => trivial) (fun _ => rfl) rfl
  | submit session cmd h hrole hin hcmd => exact hi.submit hr cmd
  | cancel session orderId h hin hok => exact hi.cancel hr hok

theorem Env.connInv {s s' : ExchangeServer} (henv : Env s s') (hr : Registry s)
    (hi : ConnInv s) : ConnInv s' := by
  cases henv with
  | accept fd peer hfd h hnonneg => exact hi.accept hr h peer
  | refuse fd peer h => exact hi.refuse hr h
  | bounce fd hfd =>
      exact hi.same _ (bounce_trace s fd) (by simp [Obs.InOrder]) (by simp [Obs.boundary]) rfl
        rfl
  | reap =>
      obtain ⟨hs, _, _, hbook⟩ := reapClosed_tables s
      refine hi.same _ (reapClosed_trace s) ?_ ?_ hbook hs
      · intro x hx before
        obtain ⟨fd, _, rfl⟩ := List.mem_map.mp hx
        trivial
      · intro x hx fd
        obtain ⟨fd', _, rfl⟩ := List.mem_map.mp hx
        rfl
  | timer resumeAt loop =>
      exact hi.same [] (List.append_nil _).symm (by simp) (by simp) rfl rfl
  | load a => exact hi.same [] (List.append_nil _).symm (by simp) (by simp) rfl rfl

/-- **The step lemma.** -/
theorem Move.connInv {s s' : ExchangeServer} (hmove : Move s s') (hr : Registry s)
    (hi : ConnInv s) : ConnInv s' := by
  cases hmove with
  | serve hserve =>
      cases hserve with
      | act hact => exact hact.connInv hr hi
      | receive session bytes h hopen =>
          exact hi.put h rfl _ rfl (fun _ => trivial) (fun _ => rfl) rfl
      | take session line tail h hline =>
          exact hi.put h rfl _ rfl (fun _ => trivial) (fun _ => rfl) rfl
      | handled line =>
          exact hi.same _ rfl (by simp [Obs.InOrder]) (by simp [Obs.boundary]) rfl rfl
  | env henv => exact henv.connInv hr hi

theorem Reachable.connInv {c : Setup} {s : ExchangeServer} (h : Reachable c s) :
    ConnInv s := by
  have hboth := Moves.invariant h (I := fun s => Registry s ∧ ConnInv s)
    (fun _ _ hmove h => ⟨hmove.registry h.1, hmove.connInv h.1 h.2⟩)
    ⟨registry_start c, connInv_start c⟩
  exact hboth.2

/-- **A reused descriptor inherits nothing.**  In every run, a resting order
belongs to a connected trader that is logged in, and that connection submitted
it.  Whenever an order was matched, cancelled or reported to its owner, the
connection under its descriptor was the one that had submitted it. -/
theorem no_inheritance (c : Setup) (turns : List Turn) :
    let s := run c turns
    (∀ o ∈ s.book.orders,
      (∃ session, s.sessions.lookup o.ownerFd = some session ∧ session.loggedIn = true) ∧
        OwnedSince s.trace o.ownerFd o.id) ∧
    (∀ before o quantity fills after,
      s.trace = before ++ .submitted o quantity fills :: after → ∀ f ∈ fills,
        OwnedSince before (party f.execution o.side.opposite) f.restingId) ∧
    (∀ before fd id after, s.trace = before ++ .cancelled fd id :: after →
      OwnedSince before fd id) ∧
    (∀ before fd i q p after, s.trace = before ++ .queued fd (.bought i q p) :: after →
      Notified before fd .buy i q p) ∧
    (∀ before fd i q p after, s.trace = before ++ .queued fd (.sold i q p) :: after →
      Notified before fd .sell i q p) := by
  intro s
  have hreach : Reachable c s := run_reachable c turns
  have hr := hreach.registry
  have hi := hreach.connInv
  refine ⟨?_, ?_, fun before fd id after h => hi.past before _ after h,
    fun before fd i q p after h => hi.past before _ after h,
    fun before fd i q p after h => hi.past before _ after h⟩
  · intro o ho
    obtain ⟨q, n, hn, rfl⟩ := mem_orders.mp ho
    obtain ⟨session, h, hrole⟩ := hr.owner q n hn
    exact ⟨⟨session, h, (hr.trader_iff _ session h).mp hrole⟩, hi.resting q n hn⟩
  · intro before o quantity fills after h f hf
    have hok : FillOk before o f := hi.past before _ after h f hf
    exact hok.resting

end SocketExchange.Server
