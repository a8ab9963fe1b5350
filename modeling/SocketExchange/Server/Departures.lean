import SocketExchange.Server.Isolation
import SocketExchange.Server.Notifications
import SocketExchange.Trading.Cancellation

/-!
# Clients that have left

`begin_orderly_close` drops a session that has nothing to be written, and with it
its orders and its subscriptions.  A session with a backlog stays until the backlog
is gone, and its orders and subscriptions stay with it: they can still be executed,
and the notices are appended to the backlog.

So a client that has left takes no part in the market exactly if it leaves nothing
behind.  That is a condition on the history before each departure
(`Obs.LeavesClean`); a run in which all departures meet it is one in which every
departed client is silent (`Obs.SparesDeparted`).
-/

namespace SocketExchange.Server

open SocketExchange.Lib
open SocketExchange.Lib.Bytes
open SocketExchange.Network
open SocketExchange.Protocol
open SocketExchange.Trading.OrderBook
open ExchangeServer

/-! ## The book, read off the trace -/

/-- The call on the book that an observation records. -/
def Obs.entry : Obs → Option Entry
  | .submitted o quantity fills => some (.added o quantity fills)
  | .cancelled fd id => some (.cancelled id fd true [])
  | .dropped fd _ => some (.removed fd [])
  | _ => none

/-- The calls on the book. -/
def historyIn (trace : List Obs) : List Entry := trace.filterMap Obs.entry

theorem historyIn_append (trace new : List Obs) :
    historyIn (trace ++ new) = historyIn trace ++ historyIn new :=
  List.filterMap_append

/-- The resting orders are the live orders of the trace. -/
def Tracked (s : ExchangeServer) : Prop := Tracks (historyIn s.trace) s.book

/-- The book is not touched. -/
private theorem Tracked.quiet {s s' : ExchangeServer} (hi : Tracked s)
    (hbook : s'.book = s.book) {new : List Obs} (htrace : s'.trace = s.trace ++ new)
    (hnew : ∀ o ∈ new, o.entry = none) : Tracked s' := by
  have hnone : historyIn new = [] := List.filterMap_eq_nil_iff.mpr hnew
  unfold Tracked
  rw [htrace, historyIn_append, hnone, List.append_nil, hbook]
  exact hi

private theorem Tracked.drop {s : ExchangeServer} (hi : Tracked s) (fd : Int)
    (reason : DropReason) : Tracked (s.drop fd reason) := by
  cases h : s.sessions.lookup fd with
  | none =>
      rw [drop_of_lookup_none h]
      exact hi
  | some session =>
      have hbook : (s.drop fd reason).book = s.book.removeOrdersOf s.kernel.order fd := by
        simp only [ExchangeServer.drop, h]
      unfold Tracked
      rw [drop_trace h, historyIn_append, hbook]
      exact hi.removeOrdersOf s.kernel.order fd []

theorem Act.tracked {fd : Int} {s s' : ExchangeServer} (hact : Act fd s s') (hi : Tracked s) :
    Tracked s' := by
  cases hact with
  | drop dest reason h => exact hi.drop dest reason
  | relist loop => exact hi.quiet rfl (List.append_nil _).symm (by simp)
  | interest session wantRead wantWrite h =>
      exact hi.quiet rfl (List.append_nil _).symm (by simp)
  | queue | write | leave | login | subscribe | unsubscribe =>
      exact hi.quiet rfl rfl (by simp [Obs.entry])
  | submit session cmd h hrole hin hcmd =>
      have htrace : historyIn (s.submit fd cmd).trace = historyIn s.trace ++
          [.added (s.book.incoming fd cmd.instrument (sideOf cmd.type) cmd.price) cmd.quantity
            (s.addResult fd cmd).fills] := historyIn_append _ _
      unfold Tracked
      rw [htrace]
      exact hi.addOrder fd cmd.instrument (sideOf cmd.type) cmd.quantity cmd.price
  | cancel session orderId h hin hok =>
      have htracks := hi.cancelOrder orderId fd []
      rw [hok] at htracks
      unfold Tracked
      rw [observe, historyIn_append]
      exact htracks

theorem Move.tracked {s s' : ExchangeServer} (hmove : Move s s') (hi : Tracked s) :
    Tracked s' := by
  cases hmove with
  | serve hserve =>
      cases hserve with
      | act hact => exact hact.tracked hi
      | receive | take | handled => exact hi.quiet rfl rfl (by simp [Obs.entry])
  | env henv =>
      cases henv with
      | accept fd peer hfd h hnonneg => exact hi.quiet rfl rfl (by simp [Obs.entry])
      | refuse fd peer h =>
          exact hi.quiet rfl (refuse_trace s fd) (by simp [Obs.entry])
      | bounce fd hfd => exact hi.quiet rfl (bounce_trace s fd) (by simp [Obs.entry])
      | reap =>
          refine hi.quiet (reapClosed_tables s).2.2.2 (reapClosed_trace s) ?_
          intro o ho
          obtain ⟨fd, _, rfl⟩ := List.mem_map.mp ho
          rfl
      | timer resumeAt loop => exact hi.quiet rfl (List.append_nil _).symm (by simp)
      | load answers => exact hi.quiet rfl (List.append_nil _).symm (by simp)

theorem Reachable.tracked {c : Setup} {s : ExchangeServer} (h : Reachable c s) : Tracked s :=
  Moves.invariant h (I := Tracked) (fun _ _ hmove hi => hmove.tracked hi) tracks_empty

/-! ## What a client leaves behind -/

/-- `fd` is dropped. -/
def Obs.drops (fd : Int) : Obs → Bool
  | .dropped dest _ => dest = fd
  | _ => false

/-- The order `id` is cancelled. -/
def Obs.cancels (id : Int) : Obs → Bool
  | .cancelled _ orderId => orderId = id
  | _ => false

def Obs.executedOf (id : Int) : Obs → Int
  | .submitted _ _ fills => Trading.OrderBook.executedOf id fills
  | _ => 0

/-- The quantity of the order `id` that has been executed. -/
def executedOfOrder (id : Int) (trace : List Obs) : Int :=
  (trace.map (Obs.executedOf id)).sum

/-- The order of `fd` that is given, unless it is executed in full or cancelled. -/
def Obs.openOrder (fd : Int) (trace : List Obs) : Obs → List Int
  | .submitted o quantity _ =>
      if o.ownerFd = fd ∧ executedOfOrder o.orderId trace < quantity ∧
          trace.any (Obs.cancels o.orderId) = false then [o.orderId] else []
  | _ => []

/-- The orders `fd` has given since it was last dropped and that still rest. -/
def openOrders (fd : Int) (trace : List Obs) : List Int :=
  (Log.since (Obs.drops fd) trace).flatMap (Obs.openOrder fd trace)

theorem sumOver_historyIn (id : Int) (trace : List Obs) :
    sumOver (historyIn trace) (Entry.executedOf id) = executedOfOrder id trace := by
  induction trace with
  | nil => rfl
  | cons o trace ih =>
      simp only [sumOver, executedOfOrder, historyIn, List.map_cons, List.sum_cons] at ih ⊢
      rw [← ih]
      cases o <;> first | rfl | exact (Int.zero_add _).symm

private theorem cancels_historyIn (id : Int) (trace : List Obs) :
    (∀ e ∈ historyIn trace, ¬ e.Cancels id) ↔ trace.any (Obs.cancels id) = false := by
  simp only [historyIn, List.mem_filterMap, List.any_eq_false]
  constructor
  · intro h o ho hcancel
    cases o with
    | cancelled fd orderId => exact h _ ⟨_, ho, rfl⟩ ⟨of_decide_eq_true hcancel, rfl⟩
    | _ => cases hcancel
  · rintro h e ⟨o, ho, he⟩ hcancel
    cases o with
    | cancelled fd orderId =>
        cases he
        exact h _ ho (decide_eq_true hcancel.1)
    | submitted o quantity fills => cases he; exact hcancel
    | dropped fd reason => cases he; exact hcancel
    | _ => cases he

private theorem removes_historyIn (fd : Int) (trace : List Obs) :
    (∀ e ∈ historyIn trace, ¬ e.Removes fd) ↔ ∀ o ∈ trace, o.drops fd = false := by
  simp only [historyIn, List.mem_filterMap]
  constructor
  · intro h o ho
    cases o <;> first | rfl | exact decide_eq_false fun heq => h _ ⟨_, ho, rfl⟩ heq
  · rintro h e ⟨o, ho, he⟩ hremove
    cases o with
    | dropped dest reason =>
        cases he
        exact of_decide_eq_false (h _ ho) hremove
    | submitted o quantity fills => cases he; exact hremove
    | cancelled dest orderId => cases he; exact hremove
    | _ => cases he

/-- The open orders of a client are its live orders. -/
theorem mem_openOrders {fd id : Int} {trace : List Obs} :
    id ∈ openOrders fd trace ↔ ∃ left, 0 < left ∧ LiveAt (historyIn trace) id fd left := by
  simp only [openOrders, List.mem_flatMap, Log.mem_since]
  constructor
  · rintro ⟨o, ⟨before, after, hsplit, _, hafter⟩, hid⟩
    cases o with
    | submitted o quantity fills =>
        simp only [Obs.openOrder] at hid
        split at hid
        · next hopen =>
          obtain ⟨howner, hleft, hcancel⟩ := hopen
          rw [List.mem_singleton.mp hid]
          refine ⟨quantity - executedOfOrder o.orderId trace, by omega, quantity,
            historyIn after, ⟨historyIn before, o, fills, ?_, rfl, howner⟩, ?_,
            (cancels_historyIn o.orderId trace).mpr hcancel,
            (removes_historyIn fd after).mpr hafter⟩
          · rw [hsplit, historyIn_append]
            rfl
          · rw [sumOver_historyIn]
            omega
        · cases hid
    | _ => cases hid
  · rintro ⟨left, hpos, quantity, since, ⟨before, o, fills, hsplit, rfl, howner⟩, hleft,
      hcancel, hremove⟩
    obtain ⟨pre, rest, rfl, _, hrest⟩ := List.filterMap_eq_append_iff.mp hsplit
    obtain ⟨skipped, x, after, rfl, hskipped, hx, hafter⟩ := List.filterMap_eq_cons_iff.mp hrest
    have hsubmitted : x = .submitted o quantity fills := by
      cases x <;> cases hx
      rfl
    refine ⟨x, ⟨pre ++ skipped, after, by simp, ?_, ?_⟩, ?_⟩
    · rw [hsubmitted]
      rfl
    · rw [← hafter] at hremove
      exact (removes_historyIn fd after).mp hremove
    · rw [sumOver_historyIn] at hleft
      have hopen : o.ownerFd = fd ∧
          executedOfOrder o.orderId (pre ++ (skipped ++ x :: after)) < quantity ∧
          (pre ++ (skipped ++ x :: after)).any (Obs.cancels o.orderId) = false :=
        ⟨howner, by omega, (cancels_historyIn _ _).mp hcancel⟩
      rw [hsubmitted] at hopen ⊢
      rw [Obs.openOrder, if_pos hopen]
      exact List.mem_singleton_self _

/-- Nothing rests in the name of `fd`. -/
def Orderless (fd : Int) (b : Book) : Prop := ∀ q, ∀ n ∈ b.queue q, n.order.ownerFd ≠ fd

theorem openOrders_eq_nil_iff {s : ExchangeServer} (h : Tracked s) (fd : Int) :
    openOrders fd s.trace = [] ↔ Orderless fd s.book := by
  rw [List.eq_nil_iff_forall_not_mem]
  constructor
  · rintro hnone q n hn rfl
    exact hnone n.order.id (mem_openOrders.mpr ⟨_, h.wf.quantity_pos q n hn, h.sound q n hn⟩)
  · intro hless id hid
    obtain ⟨left, hpos, hlive⟩ := mem_openOrders.mp hid
    obtain ⟨q, n, hn, _, howner, _⟩ := h.complete id fd left hlive hpos
    exact hless q n hn howner

/-! ## The property and its condition -/

/-- The client has left, and has not been dropped yet. -/
def Departed (fd : Int) (before : List Obs) : Prop :=
  (∃ reason, .leaving fd reason ∈ sinceAccept fd before) ∧
    ∀ reason, .dropped fd reason ∉ sinceAccept fd before

/-- How many of the bytes queued to the present connection of `fd` are unsent. -/
def pendingOf (fd : Int) (trace : List Obs) : Nat :=
  (queuedTo fd trace).length - (sentTo fd trace).length

/-- Nothing is queued to a client that has left, no execution names it, and what is
pending for it does not grow. -/
def Obs.SparesDeparted (before : List Obs) (o : Obs) : Prop :=
  ∀ fd, Departed fd before → (∀ message, o ≠ .queued fd message) ∧
    (∀ e ∈ o.executions, e.buyerFd ≠ fd ∧ e.sellerFd ≠ fd) ∧
    pendingOf fd (before ++ [o]) ≤ pendingOf fd before

/-- A client that leaves has no unsent output, or neither an open order nor a
subscription. -/
def Obs.LeavesClean (before : List Obs) : Obs → Prop
  | .leaving fd _ => sentTo fd before = queuedTo fd before ∨
      (openOrders fd before = [] ∧ subscriptionsIn fd before = [])
  | _ => True

instance (before : List Obs) (o : Obs) : Decidable (o.LeavesClean before) := by
  cases o <;> unfold Obs.LeavesClean <;> infer_instance

section State

variable {c : Setup} {s : ExchangeServer} (hreach : Reachable c s) {fd : Int}
  {session : ClientSession} (h : s.sessions.lookup fd = some session)

include hreach h

/-- What the trace calls pending is what is pending. -/
theorem pendingBytes_eq_pendingOf : session.pendingBytes = pendingOf fd s.trace := by
  have hi := Moves.outputInv hreach (base_start c) (outputInv_start c)
  obtain ⟨hexact, _⟩ := hi.exact fd session h
  rw [pendingOf, ← hexact, List.length_append, Nat.add_sub_cancel_left,
    ClientSession.pending, List.length_drop]
  rfl

/-- The condition, as `begin_orderly_close` would have to check it. -/
theorem leavesClean_iff (reason : DropReason) :
    (Obs.leaving fd reason).LeavesClean s.trace ↔
      session.pendingBytes = 0 ∨ (Orderless fd s.book ∧ session.subscriptions = []) := by
  have hi := Moves.outputInv hreach (base_start c) (outputInv_start c)
  obtain ⟨hexact, _⟩ := hi.exact fd session h
  have hsent : sentTo fd s.trace = queuedTo fd s.trace ↔ session.pendingBytes = 0 := by
    rw [← hexact, List.self_eq_append_right, ← List.length_eq_zero_iff,
      ClientSession.pending, List.length_drop]
    rfl
  rw [Obs.LeavesClean, hsent, openOrders_eq_nil_iff hreach.tracked,
    (hreach.epoch h).subscriptions]

/-- A client that has left is closing. -/
theorem closing_of_departed (hleft : Departed fd s.trace) : session.closing = true :=
  (hreach.epoch h).leaving.mpr hleft.1

end State

/-! ## Who is closing has nothing left -/

/-- Between stages, the clients that have left have no orders and no subscriptions. -/
def Retired (s : ExchangeServer) : Prop :=
  ∀ fd session, s.sessions.lookup fd = some session → session.closing = true →
    Orderless fd s.book ∧ session.subscriptions = []

section Serves

variable {s s' : ExchangeServer} (hi : Retired s) (hr : Registry s)

include hi hr

/-- Serving a client does not bring anything back to another one who has left. -/
private theorem Retired.other {fd fd' : Int} (hserves : Serves fd s s') (hne : fd' ≠ fd)
    {y : ClientSession} (hy : s'.sessions.lookup fd' = some y) (hclosing : y.closing = true) :
    Orderless fd' s'.book ∧ y.subscriptions = [] := by
  obtain ⟨_, new, hisolated⟩ := hserves.isolated hr
  obtain ⟨x, hx, hsame⟩ := hisolated.sessions fd' y hne hy
  obtain ⟨_, _, _, hsubs, _, hclosing'⟩ := hsame
  obtain ⟨hless, hnone⟩ := hi fd' x hx (hclosing' ▸ hclosing)
  refine ⟨fun q n hn howner => ?_, hsubs.trans hnone⟩
  obtain ⟨m, hm, hkey⟩ := hisolated.origin q n hn (howner ▸ hne)
  exact hless q m hm ((owner_of_key hkey).trans howner)

private theorem Retired.serves {fd : Int} (hserves : Serves fd s s')
    (hself : ∀ y, s'.sessions.lookup fd = some y → y.closing = true →
      Orderless fd s'.book ∧ y.subscriptions = []) : Retired s' := by
  intro fd' y hy hclosing
  by_cases hfd : fd' = fd
  · subst hfd
    exact hself y hy hclosing
  · exact hi.other hr hserves hfd hy hclosing

/-- Steps that could have been taken while any client is served. -/
private theorem Retired.acts (hacts : ∀ fd, Acts fd s s') : Retired s' := by
  intro fd y hy hclosing
  exact hi.other hr (hacts (fd + 1)).serves (by omega) hy hclosing

end Serves

private theorem Env.retired {s s' : ExchangeServer} (henv : Env s s') (hi : Retired s) :
    Retired s' := by
  intro fd' y hy hclosing
  cases henv with
  | accept fd peer hfd h hnonneg =>
      have hlookup : (s.sessions.insert fd { fd := fd, peer := peer }).lookup fd' = some y := hy
      rw [lookup_insert] at hlookup
      split at hlookup
      · cases hlookup
        cases hclosing
      · exact hi fd' y hlookup hclosing
  | refuse fd peer h => exact hi fd' y (lookup_of_erase hy).2 hclosing
  | reap =>
      obtain ⟨hsessions, _, _, hbook⟩ := reapClosed_tables s
      rw [hsessions] at hy
      rw [hbook]
      exact hi fd' y hy hclosing
  | bounce | timer | load => exact hi fd' y hy hclosing

private theorem Envs.retired {s s' : ExchangeServer} (henvs : Envs s s') (hi : Retired s) :
    Retired s' := by
  induction henvs with
  | refl => exact hi
  | tail _ henv ih => exact henv.retired ih

/-- A session that stays after `begin_orderly_close` keeps the book as it was. -/
private theorem beginOrderlyClose_book {s : ExchangeServer} {fd : Int} {reason : DropReason}
    {y : ClientSession} (h : (s.beginOrderlyClose fd reason).sessions.lookup fd = some y) :
    (s.beginOrderlyClose fd reason).book = s.book := by
  unfold beginOrderlyClose at h ⊢
  split at h
  · rfl
  · next session hsession =>
    dsimp only at h ⊢
    split at h
    · rw [drop_sessions, if_pos rfl] at h
      cases h
    · next hpending =>
      rw [if_neg hpending]
      rfl

/-- **A clean departure.** -/
private theorem Retired.close {c : Setup} {s : ExchangeServer} (hreach : Reachable c s)
    (hi : Retired s) {fd : Int} {reason : DropReason}
    (hclean : (Obs.leaving fd reason).LeavesClean s.trace) :
    Retired (s.beginOrderlyClose fd reason) := by
  refine hi.serves hreach.registry (beginOrderlyClose_acts fd reason).serves ?_
  intro y hy _
  rcases lookup_of_beginOrderlyClose hy with ⟨hne, _⟩ | ⟨_, x, hx, hpending, rfl⟩
  · exact absurd rfl hne
  · rw [beginOrderlyClose_book hy]
    rcases (leavesClean_iff hreach hx reason).mp hclean with hnone | hclean
    · omega
    · exact hclean

/-! ## What a line writes -/

/-- Somebody leaves. -/
def Obs.leaves : Obs → Bool
  | .leaving _ _ => true
  | _ => false

private theorem settle_stays {s : ExchangeServer} (hb : Base s) (fd : Int) (reply : Response)
    (es : List TradeExecution) : ∃ new, (settle s fd reply es).trace = s.trace ++ new ∧
      ∀ o ∈ new, o.leaves = false := by
  refine settle_invariant (I := fun t => ∃ new, t.trace = s.trace ++ new ∧
    ∀ o ∈ new, o.leaves = false) (M := fun _ _ => True) ?_ hb
    ⟨[], (List.append_nil _).symm, by simp⟩ trivial fun e _ => noticesAre_any e
  rintro t dest message - hbt ⟨new, htrace, hnew⟩
  cases h : t.sessions.lookup dest with
  | none =>
      rw [sendTo_of_lookup_none h]
      exact ⟨new, htrace, hnew⟩
  | some session =>
      obtain ⟨bytes, gone, hsend, hparting⟩ := sendTo_trace hbt h message
      refine ⟨new ++ .queued dest message :: .sent dest bytes :: gone, ?_, ?_⟩
      · rw [hsend, htrace, List.append_assoc]
      · intro o ho
        rw [List.mem_append, List.mem_cons, List.mem_cons] at ho
        rcases ho with ho | rfl | rfl | ho
        · exact hnew o ho
        · rfl
        · rfl
        · rcases hparting with rfl | ⟨reason, rfl, _⟩
          · cases ho
          · rw [List.mem_singleton.mp ho]
            rfl

/-- The parties of the executions of a line: its sender, and owners of resting orders. -/
private theorem Effect.parties {fd : Int} {line : Bytes} {s s₁ : ExchangeServer}
    {reply : Response} {es : List TradeExecution} (he : Effect fd line s s₁ reply es)
    (hr : Registry s) {e : TradeExecution} (hmem : e ∈ es) {dest : Int}
    (hdest : dest = e.buyerFd ∨ dest = e.sellerFd) :
    dest = fd ∨ ∃ q, ∃ n ∈ s.book.queue q, n.order.ownerFd = dest := by
  cases he with
  | order session h hrole hin hcmd => exact execution_parties hr hmem hdest
  | refuse | login | subscribe | unsubscribe | cancel => cases hmem

section Line

variable {c : Setup} {s s₁ : ExchangeServer} (hreach : Reachable c s) {fd : Int}
  {session : ClientSession} {line tail : Bytes} {reply : Response} {es : List TradeExecution}
  (h : s.sessions.lookup fd = some session)
  (hline : splitLine session.inbuf = some (line, tail))
  (he : Effect fd (stripCarriageReturn line)
    (s.taken fd session (stripCarriageReturn line) tail) s₁ reply es)

include hreach h hline he

/-- Nobody leaves while a line is handled. -/
private theorem line_stays {new : List Obs}
    (htrace : ((settle s₁ fd reply es).finish fd (stripCarriageReturn line)).trace =
      s.trace ++ new) : ∀ o ∈ new, o.leaves = false := by
  have hb := (Serve.take s session line tail h hline).base hreach.base
  obtain ⟨pre, hpre, hprelude⟩ := he.prelude
  obtain ⟨rest, hsettle, hrest⟩ := settle_stays (he.acts.base hb) fd reply es
  have hnew : new = .handling fd (stripCarriageReturn line) :: (pre ++ (rest ++
      [.handled fd (stripCarriageReturn line) ((settle s₁ fd reply es).lineOutcome fd)])) := by
    rw [finish, observe, hsettle, hpre, taken] at htrace
    simpa [observe, putSession] using htrace.symm
  intro o ho
  rw [hnew, List.mem_cons, List.mem_append, List.mem_append, List.mem_singleton] at ho
  rcases ho with rfl | ho | ho | rfl
  · rfl
  · cases hprelude with
    | answer => cases ho
    | @note o' _ hnote _ =>
        rw [List.mem_singleton.mp ho]
        cases o' <;> first | rfl | cases hnote
    | submit o' quantity fills howner hpos =>
        rw [List.mem_singleton.mp ho]
        rfl
  · exact hrest o ho
  · rfl

variable (hi : Retired s) (hopen : session.closing = false)

include hi hopen

/-- No execution of a line names a client that has left. -/
private theorem line_parties {e : TradeExecution} (hmem : e ∈ es) {dest : Int}
    (hleft : Departed dest s.trace) : dest ≠ e.buyerFd ∧ dest ≠ e.sellerFd := by
  have htake := Serve.take s session line tail h hline
  have hnot : ¬ (dest = e.buyerFd ∨ dest = e.sellerFd) := by
    intro hdest
    rcases he.parties ((Move.serve _ htake).registry hreach.registry) hmem hdest with
      rfl | ⟨q, n, hn, howner⟩
    · rw [closing_of_departed hreach h hleft] at hopen
      cases hopen
    · obtain ⟨x, hx, _⟩ := hreach.registry.owner q n hn
      rw [howner] at hx
      exact (hi dest x hx (closing_of_departed hreach hx hleft)).1 q n hn howner
  exact not_or.mp hnot

/-- No execution of a line concerns a client that has left. -/
private theorem line_notices {e : TradeExecution} (hmem : e ∈ es) {dest : Int}
    (hleft : Departed dest s.trace) : s.noticesTo dest e = [] := by
  by_contra hne
  obtain ⟨hbuyer, hseller⟩ := line_parties hreach h hline he hi hopen hmem hleft
  rcases (noticesTo_ne_nil_iff s dest e).mp hne with hdest | hdest | hdest
  · exact hbuyer hdest
  · exact hseller hdest
  · obtain ⟨x, hx, hin⟩ := (hreach.registry.subscriber_iff dest e.instrument).mp hdest
    rw [(hi dest x hx (closing_of_departed hreach hx hleft)).2] at hin
    cases hin

end Line

/-! ## Stages -/

theorem pendingOf_concat_le {fd : Int} {o : Obs} (ho : ∀ message, o ≠ .queued fd message)
    (trace : List Obs) : pendingOf fd (trace ++ [o]) ≤ pendingOf fd trace := by
  by_cases haccept : o = .accepted fd
  · have hnone : queuedTo fd (trace ++ [o]) = [] := by
      rw [queuedTo, haccept, sinceAccept_accept (by simp)]
      rfl
    rw [pendingOf, hnone]
    simp
  · have hqueued : o.queuedBytes fd = [] := by
      cases o with
      | queued dest message =>
          refine if_neg ?_
          rintro rfl
          exact ho message rfl
      | _ => rfl
    rw [pendingOf, pendingOf, queuedTo_concat haccept, sentTo_concat haccept, hqueued,
      List.append_nil, List.length_append]
    omega

private theorem spares_of {before : List Obs} {o : Obs}
    (h : ∀ fd, Departed fd before → (∀ message, o ≠ .queued fd message) ∧
      ∀ e ∈ o.executions, e.buyerFd ≠ fd ∧ e.sellerFd ≠ fd) : o.SparesDeparted before := by
  intro fd hleft
  obtain ⟨hqueued, hparties⟩ := h fd hleft
  exact ⟨hqueued, hparties, pendingOf_concat_le hqueued before⟩

/-- Nothing is queued and nothing is executed. -/
private theorem spares_of_plain {o : Obs} (hqueued : ∀ fd message, o ≠ .queued fd message)
    (hnone : o.executions = []) (before : List Obs) : o.SparesDeparted before := by
  refine spares_of fun fd _ => ⟨hqueued fd, ?_⟩
  rw [hnone]
  simp

private theorem plain_of_calm {o : Obs} (h : o.calm = true) :
    (∀ fd message, o ≠ .queued fd message) ∧ o.executions = [] := by
  refine ⟨?_, ?_⟩
  · rintro fd message rfl
    cases h
  · cases o <;> first | rfl | cases h

private theorem plain_of_note {fd : Int} {o : Obs} (h : o.note fd = true) :
    (∀ fd message, o ≠ .queued fd message) ∧ o.executions = [] := by
  refine ⟨?_, ?_⟩
  · rintro fd message rfl
    cases h
  · cases o <;> first | rfl | cases h

private theorem spares_of_calm {o : Obs} (h : o.calm = true) (before : List Obs) :
    o.SparesDeparted before :=
  spares_of_plain (plain_of_calm h).1 (plain_of_calm h).2 before

/-- A piece of the trace in which nobody leaves and nobody is accepted. -/
private theorem Departed.of_append {fd : Int} {trace new : List Obs}
    (h : Departed fd (trace ++ new)) (hne : ∀ o ∈ new, o ≠ .accepted fd)
    (hstay : ∀ o ∈ new, o.leaves = false) : Departed fd trace := by
  obtain ⟨⟨reason, hleaving⟩, halive⟩ := h
  rw [sinceAccept_append hne] at hleaving halive
  refine ⟨⟨reason, ?_⟩, fun reason' hdrop => halive reason' (List.mem_append_left _ hdrop)⟩
  rcases List.mem_append.mp hleaving with hleaving | hleaving
  · exact hleaving
  · cases hstay _ hleaving

section LineStage

variable {c : Setup} {s s₁ : ExchangeServer} (hreach : Reachable c s) {fd : Int}
  {session : ClientSession} {line tail : Bytes} {reply : Response} {es : List TradeExecution}
  (h : s.sessions.lookup fd = some session) (hopen : session.closing = false)
  (hline : splitLine session.inbuf = some (line, tail))
  (he : Effect fd (stripCarriageReturn line)
    (s.taken fd session (stripCarriageReturn line) tail) s₁ reply es) (hi : Retired s)

include hreach h hopen hline he hi

/-- **A line and the clients that have left.** -/
private theorem line_spares : ∃ new,
    ((settle s₁ fd reply es).finish fd (stripCarriageReturn line)).trace = s.trace ++ new ∧
      (∀ o ∈ new, o.leaves = false) ∧ (∀ dest, ∀ o ∈ new, o ≠ .accepted dest) ∧
      Log.Each (fun before o => o.SparesDeparted (s.trace ++ before)) new := by
  obtain ⟨pre, notices, htrace, hpre, hnotices⟩ :=
    line_trace hreach.base hreach.registry h hline he
  have hstay := line_stays hreach h hline he htrace
  have hne := hpre.stretch_ne (stripCarriageReturn line) hnotices
  refine ⟨_, htrace, hstay, hne, fun before o after hsplit => spares_of fun dest hleft => ?_⟩
  have hpart : ∀ x ∈ before, x ∈ .handling fd (stripCarriageReturn line) :: pre ++
      .queued fd reply :: notices := by
    intro x hx
    rw [hsplit]
    exact List.mem_append_left _ hx
  have hleft' : Departed dest s.trace := hleft.of_append (fun x hx => hne dest x (hpart x hx))
    fun x hx => hstay x (hpart x hx)
  have ho : o ∈ .handling fd (stripCarriageReturn line) :: pre ++
      .queued fd reply :: notices := by
    rw [hsplit]
    simp
  rw [List.cons_append, List.mem_cons, List.mem_append, List.mem_cons] at ho
  rcases ho with rfl | ho | rfl | ho
  · exact ⟨by simp, by simp [Obs.executions]⟩
  · cases hpre with
    | answer => cases ho
    | note hnote =>
        obtain ⟨hqueued, hnone⟩ := plain_of_note hnote
        rw [List.mem_singleton.mp ho, hnone]
        exact ⟨hqueued dest, by simp⟩
    | submit o' quantity fills howner hpos =>
        rw [List.mem_singleton.mp ho]
        refine ⟨by simp, fun e hmem => ?_⟩
        obtain ⟨hbuyer, hseller⟩ :=
          line_parties hreach h hline he hi hopen hmem hleft'
        exact ⟨Ne.symm hbuyer, Ne.symm hseller⟩
  · refine ⟨fun message heq => ?_, by simp [Obs.executions]⟩
    cases heq
    rw [closing_of_departed hreach h hleft'] at hopen
    cases hopen
  · refine ⟨fun message heq => ?_, ?_⟩
    · -- every notice is due to somebody the execution concerns
      have hmem : message ∈ notices.flatMap (Obs.messageTo dest) := by
        rw [List.mem_flatMap]
        exact ⟨o, ho, by simp [heq, Obs.messageTo]⟩
      obtain ⟨e, hmem', hnotice⟩ := List.mem_flatMap.mp ((hnotices.due dest).subset hmem)
      rw [line_notices hreach h hline he hi hopen hmem' hleft'] at hnotice
      cases hnotice
    · have hnone : o.executions = [] := by
        rcases hnotices.only o ho with hcalm | hnotice
        · exact (plain_of_calm hcalm).2
        · cases o <;> first | rfl | cases hnotice
      rw [hnone]
      simp

/-- The sender of a line has not left. -/
private theorem line_retired :
    Retired ((settle s₁ fd reply es).finish fd (stripCarriageReturn line)) := by
  have htake := Serve.take s session line tail h hline
  have hserves : Serves fd s ((settle s₁ fd reply es).finish fd (stripCarriageReturn line)) :=
    (Relation.ReflTransGen.head htake (settle_acts (htake.base hreach.base) he).serves).tail
      (Serve.handled _ _)
  obtain ⟨new, htrace, hstay, hne, _⟩ := line_spares hreach h hopen hline he hi
  refine hi.serves hreach.registry hserves fun y hy hclosing => ?_
  have hreach' : Reachable c _ := hreach.trans (Serves.moves hserves)
  have hepoch := hreach'.epoch hy
  have hleft : Departed fd s.trace := by
    refine Departed.of_append ⟨?_, ?_⟩ (hne fd) hstay
    · rw [← htrace]
      exact hepoch.leaving.mp hclosing
    · rw [← htrace]
      exact hepoch.alive
  rw [closing_of_departed hreach h hleft] at hopen
  cases hopen

end LineStage

section Stage

variable {c : Setup} {s s' : ExchangeServer} (hreach : Reachable c s) (hstage : Stage s s')
  (hi : Retired s)

private theorem each_of_calm (trace : List Obs) {new : List Obs} (h : ∀ o ∈ new, o.calm = true) :
    Log.Each (fun before o => o.SparesDeparted (trace ++ before)) new := by
  intro before o after hsplit
  refine spares_of_calm (h o ?_) _
  rw [hsplit]
  simp

private theorem each_of_head (trace : List Obs) {x : Obs} {new : List Obs}
    (hx : x.SparesDeparted trace) (h : ∀ o ∈ new, o.calm = true) :
    Log.Each (fun before o => o.SparesDeparted (trace ++ before)) (x :: new) := by
  rw [Log.each_cons]
  refine ⟨by simpa using hx, ?_⟩
  intro before o after hsplit
  refine spares_of_calm (h o ?_) _
  rw [hsplit]
  simp

include hreach hstage hi

/-- What a stage writes about the clients that have left. -/
private theorem Stage.spares : ∃ new, s'.trace = s.trace ++ new ∧
    Log.Each (fun before o => o.SparesDeparted (s.trace ++ before)) new := by
  cases hstage with
  | receive fd session bytes h hopen => exact ⟨_, rfl, each_of_calm _ (by simp [Obs.calm])⟩
  | line fd session line tail h hopen hline hquit he =>
      obtain ⟨new, htrace, _, _, hspares⟩ := line_spares hreach h hopen hline he hi
      exact ⟨new, htrace, hspares⟩
  | quit fd session line tail h hopen hline hquit =>
      obtain ⟨new, htrace, hcalm, _⟩ := beginOrderlyClose_calm
        (s.taken fd session (stripCarriageReturn line) tail) fd .quit
      refine ⟨.handling fd (stripCarriageReturn line) :: (new ++
        [.handled fd (stripCarriageReturn line) (((s.taken fd session
          (stripCarriageReturn line) tail).beginOrderlyClose fd .quit).lineOutcome fd)]), ?_,
        each_of_head _ (spares_of_plain (by simp) rfl _) ?_⟩
      · rw [finish, observe, htrace]
        simp [taken, observe, putSession]
      · intro o ho
        rcases List.mem_append.mp ho with ho | ho
        · exact hcalm o ho
        · rw [List.mem_singleton.mp ho]
          rfl
  | oversized fd session h hopen =>
      obtain ⟨bytes, gone, hsend, hparting⟩ := sendTo_trace hreach.base h oversizedMessage
      obtain ⟨new, hclose, hcalm, _⟩ :=
        beginOrderlyClose_calm (s.sendTo fd oversizedMessage) fd .oversized
      refine ⟨.queued fd oversizedMessage :: ((.sent fd bytes :: gone) ++ new), ?_,
        each_of_head _ (spares_of fun dest hleft => ⟨fun message heq => ?_, ?_⟩) ?_⟩
      · rw [hclose, hsend]
        simp
      · cases heq
        rw [closing_of_departed hreach h hleft] at hopen
        cases hopen
      · simp [Obs.executions]
      · intro o ho
        rcases List.mem_append.mp ho with ho | ho
        · exact cons_parting_calm rfl hparting o ho
        · exact hcalm o ho
  | fin fd session h hopen =>
      obtain ⟨new, htrace, hcalm, _⟩ := beginOrderlyClose_calm s fd .fin
      exact ⟨new, htrace, each_of_calm _ hcalm⟩
  | writable fd =>
      obtain ⟨new, htrace, hcalm⟩ := onWritable_calm hreach.base fd
      exact ⟨new, htrace, each_of_calm _ hcalm⟩
  | abort fd reason h =>
      obtain ⟨new, htrace, hcalm⟩ := drop_calm s fd reason
      exact ⟨new, htrace, each_of_calm _ hcalm⟩
  | accept fd peer hfd h hnonneg =>
      obtain ⟨new, htrace, hcalm⟩ := register_calm (s.welcome fd peer) fd
      refine ⟨.accepted fd :: new, ?_, each_of_head _ (spares_of_plain (by simp) rfl _) hcalm⟩
      rw [htrace]
      simp [welcome, observe, putSession, openFd]
  | bounce fd hfd => exact ⟨_, bounce_trace s fd, each_of_calm _ (by simp [Obs.calm])⟩
  | pause =>
      refine ⟨[], ?_, Log.each_nil⟩
      unfold pauseAccepting
      split <;> simp
  | resume =>
      refine ⟨[], ?_, Log.each_nil⟩
      unfold resumeAcceptingIfDue
      split
      · simp
      · split <;> simp
  | reap =>
      refine ⟨_, (reapClosed_trace s), each_of_calm _ fun o ho => ?_⟩
      obtain ⟨fd, _, rfl⟩ := List.mem_map.mp ho
      rfl

/-- **The step lemma.**  A stage after which every departure was clean. -/
private theorem Stage.retired (hclean : Log.Each Obs.LeavesClean s'.trace) : Retired s' := by
  have hb := hreach.base
  have hr := hreach.registry
  -- a close that leaves its mark in the trace of `s'` is a clean one
  have hclose : ∀ {u : ExchangeServer} {fd : Int} {reason : DropReason},
      Reachable c u → Retired u → ∀ rest,
      s'.trace = (u.beginOrderlyClose fd reason).trace ++ rest →
      Retired (u.beginOrderlyClose fd reason) := by
    intro u fd reason hreach' hu rest htrace
    cases hlookup : u.sessions.lookup fd with
    | none =>
        have hsame : u.beginOrderlyClose fd reason = u := by simp [beginOrderlyClose, hlookup]
        rw [hsame]
        exact hu
    | some session =>
        obtain ⟨gone, hleave, _⟩ := beginOrderlyClose_trace hlookup reason
        refine hu.close hreach' (hclean u.trace (.leaving fd reason) (gone ++ rest) ?_)
        rw [htrace, hleave]
        simp
  cases hstage with
  | receive fd session bytes h hopen =>
      refine hi.serves hr (Relation.ReflTransGen.single (Serve.receive s session bytes h hopen))
        fun y hy hclosing => ?_
      have hlookup : (s.sessions.insert fd { session with
        inbuf := session.inbuf ++ bytes }).lookup fd = some y := hy
      rw [lookup_insert, if_pos rfl] at hlookup
      cases hlookup
      rw [hopen] at hclosing
      cases hclosing
  | line fd session line tail h hopen hline hquit he =>
      exact line_retired hreach h hopen hline he hi
  | quit fd session line tail h hopen hline hquit =>
      have htake := Serve.take s session line tail h hline
      have htaken : Retired (s.taken fd session (stripCarriageReturn line) tail) := by
        refine hi.serves hr (Relation.ReflTransGen.single htake) fun y hy hclosing => ?_
        have hlookup : (s.sessions.insert fd { session with inbuf := tail }).lookup fd =
          some y := hy
        rw [lookup_insert, if_pos rfl] at hlookup
        cases hlookup
        rw [hopen] at hclosing
        cases hclosing
      exact hclose (hreach.tail (Move.serve _ htake)) htaken
        [.handled fd (stripCarriageReturn line) _] rfl
  | oversized fd session h hopen =>
      have hsends : ∀ fd', Acts fd' s (s.sendTo fd oversizedMessage) :=
        fun fd' => sendTo_acts hb fd' fd trivial
      exact hclose (hreach.trans (hsends fd).serves.moves) (hi.acts hr hsends) []
        (List.append_nil _).symm
  | fin fd session h hopen => exact hclose hreach hi [] (List.append_nil _).symm
  | writable fd => exact hi.acts hr fun fd' => onWritable_acts hb fd' fd
  | abort fd reason h =>
      exact hi.acts hr fun fd' =>
        Relation.ReflTransGen.single (drop_act s fd' fd h)
  | accept fd peer hfd h hnonneg => exact (register_envs hfd h hnonneg).retired hi
  | bounce fd hfd => exact (Env.bounce s fd hfd).retired hi
  | pause =>
      unfold pauseAccepting
      split
      · exact hi
      · exact hi
  | resume =>
      unfold resumeAcceptingIfDue
      split
      · exact hi
      · split
        · exact hi
        · exact hi
  | reap => exact (Env.reap s).retired hi

end Stage

/-! ## The theorem -/

/-- **Who leaves nothing behind is left alone.**  In every run in which each client that
leaves has no unsent output, or neither open orders nor subscriptions, the clients that
have left take no further part in the market: until they are dropped, nothing is queued to
them, no execution names them, and their pending output does not grow. -/
theorem departed_take_no_part (c : Setup) (turns : List Turn)
    (hclean : Log.Each Obs.LeavesClean (run c turns).trace) :
    Log.Each Obs.SparesDeparted (run c turns).trace := by
  have hrun := run_stage_invariant (P := fun _ => True)
    (I := fun s => Log.Each Obs.LeavesClean s.trace →
      Retired s ∧ Log.Each Obs.SparesDeparted s.trace) c ?_ (fun _ _ _ h => h) ?_
    fun (t : Turn) (_ : t ∈ turns) => trivial
  · exact (hrun hclean).2
  · intro _
    refine ⟨?_, Log.each_nil⟩
    intro fd session h
    simp [ExchangeServer.start] at h
  · intro s s' hreach hstage hi hclean
    obtain ⟨new, htrace, _⟩ := hstage.stretch hreach.base hreach.registry
    have hbefore : Log.Each Obs.LeavesClean s.trace := by
      rw [htrace] at hclean
      exact (Log.each_append.mp hclean).1
    obtain ⟨hretired, hspares⟩ := hi hbefore
    obtain ⟨new', htrace', hnew⟩ := hstage.spares hreach hretired
    refine ⟨hstage.retired hreach hretired hclean, ?_⟩
    rw [htrace']
    exact Log.each_append.mpr ⟨hspares, hnew⟩

/-- No socket takes anything.  Client 5 says `words`, and then client 6 bids for what 5
may have offered. -/
private def leavesWith (words : Chunk) : List Turn :=
  [{ input := .event { fd := 3, readable := true }
     answers := { accepts := [.connection 5 [] true, .connection 6 [] true] } },
   { input := .event { fd := 5, readable := true }
     answers := { recvs := [.data words] } },
   { input := .event { fd := 6, readable := true }
     answers := { recvs :=
       [.data ⟨ascii "LOGIN b\nBUY JNST 10 100\n", by decide, by decide⟩] } }]

/-- Client 5 takes its offer back before it leaves. -/
private def cancelsAndQuits : List Turn :=
  leavesWith ⟨ascii "LOGIN a\nSELL JNST 10 100\nCANCEL 1\nQUIT\n", by decide, by decide⟩

theorem departed_take_no_part_cancelled :
    Log.Each Obs.LeavesClean (run {} cancelsAndQuits).trace ∧
      0 < pendingOf 5 (run {} cancelsAndQuits).trace ∧
      Log.Each Obs.SparesDeparted (run {} cancelsAndQuits).trace := by
  have hclean : Log.Each Obs.LeavesClean (run {} cancelsAndQuits).trace := by decide +kernel
  exact ⟨hclean, by decide +kernel, departed_take_no_part {} cancelsAndQuits hclean⟩

/-- Client 5 leaves its offer behind. -/
private def quitsWithOrder : List Turn :=
  leavesWith ⟨ascii "LOGIN a\nSELL JNST 10 100\nQUIT\n", by decide, by decide⟩

/-- The offer of a client that has left is executed, and the notice is queued to it. -/
theorem departed_still_trades : ¬ Log.Each Obs.SparesDeparted (run {} quitsWithOrder).trace := by
  intro hspares
  have hsplit : (run {} quitsWithOrder).trace = (run {} quitsWithOrder).trace.take 28 ++
      .queued 5 (.sold (ascii "JNST") 10 100) :: (run {} quitsWithOrder).trace.drop 29 := by
    decide +kernel
  have hleft : Departed 5 ((run {} quitsWithOrder).trace.take 28) := by
    have hstays : ∀ o ∈ sinceAccept 5 ((run {} quitsWithOrder).trace.take 28),
        o.drops 5 = false := by
      decide +kernel
    refine ⟨⟨.quit, by decide +kernel⟩, fun reason hdropped => ?_⟩
    simpa [Obs.drops] using hstays _ hdropped
  exact (hspares _ _ _ hsplit 5 hleft).1 _ rfl

end SocketExchange.Server
