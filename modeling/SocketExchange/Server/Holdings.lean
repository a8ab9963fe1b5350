import SocketExchange.Server.Hearing
import SocketExchange.Server.Verdicts

/-!
# What a trader knows of its orders

A trader is told the ids of its orders, the quantities and prices of its fills and that a
cancel succeeded.  Nothing tells it which order a fill belongs to, and other traders may
trade with it at any moment.

`Holdings` is the account it can keep all the same, from the lines it has sent and the
messages it receives.  The account is right: at every moment of a run it has the orders
that rest in the book, with their ids and with what is left of them, as long as the
trader is connected and no execution has been kept from it.
-/

namespace SocketExchange.Server

open SocketExchange.Lib
open SocketExchange.Lib.Bytes
open SocketExchange.Protocol
open SocketExchange.Trading.OrderBook
open ExchangeServer

/-! ## The account -/

/-- The lines that have had no answer yet, and the orders in the market. -/
structure Holdings where
  unanswered : List Bytes := []
  orders : List Order := []

namespace Holdings

/-- The oldest line has been answered. -/
def answered (h : Holdings) : Holdings := { h with unanswered := h.unanswered.tail }

/-- The order that a line asks for. -/
def orderOf (fd orderId : Int) (line : Bytes) : Order :=
  let cmd := parse line
  (Incoming.mk orderId fd cmd.instrument (sideOf cmd.type) cmd.price).rest cmd.quantity

/-- What `fd` makes of a message. -/
def hear (fd : Int) (h : Holdings) (message : Response) : Holdings :=
  match message with
  | .ok => h.answered
  | .error _ => if message = oversizedMessage then h else h.answered
  | .orderAccepted orderId =>
      match h.unanswered with
      | [] => h
      | line :: lines => { unanswered := lines, orders := h.orders ++ [orderOf fd orderId line] }
  | .orderCancelled orderId =>
      { h.answered with orders := h.orders.filter fun x => x.id ≠ orderId }
  | .bought instrument quantity price =>
      { h with orders := fillFirst .buy instrument price quantity h.orders }
  | .sold instrument quantity price =>
      { h with orders := fillFirst .sell instrument price quantity h.orders }
  | .trade _ _ _ => h

end Holdings

/-- The lines that are answered: all but a QUIT. -/
def asking (lines : List Bytes) : List Bytes := lines.filter fun line => ¬ Quits line

theorem asking_append (a b : List Bytes) : asking (a ++ b) = asking a ++ asking b :=
  List.filter_append ..

/-- The account of a client after all it has said and heard. -/
def holdingsAfter (fd : Int) (lines : List Bytes) (messages : List Response) : Holdings :=
  messages.foldl (Holdings.hear fd) { unanswered := asking lines }

/-! ## At the exchange -/

/-- The orders of `fd`. -/
def Exchange.holds (x : Exchange) (fd : Int) : List Order := ownedBy fd x.market.orders

/-- The notices of an execution are put down as it concerns the client. -/
theorem hear_notices (x : Exchange) (fd : Int) (lines : List Bytes) (orders : List Order)
    (e : TradeExecution) :
    (x.notices fd e).foldl (Holdings.hear fd) ⟨lines, orders⟩ =
      ⟨lines, fillOwn fd orders e⟩ := by
  have hparty : ((if fd = e.buyerFd then [Response.bought e.instrument e.quantity e.price]
        else []) ++ if fd = e.sellerFd then [Response.sold e.instrument e.quantity e.price]
        else []).foldl (Holdings.hear fd) ⟨lines, orders⟩ = ⟨lines, fillOwn fd orders e⟩ := by
    rw [List.foldl_append, fillOwn, fillAs, fillAs]
    split <;> split <;> rfl
  rw [Exchange.notices, List.foldl_append, hparty]
  -- the news for a watcher says nothing about its own orders
  split
  · split <;> rfl
  · rfl

theorem hear_executions (x : Exchange) (fd : Int) (lines : List Bytes) (orders : List Order)
    (es : List TradeExecution) :
    (es.flatMap (x.notices fd)).foldl (Holdings.hear fd) ⟨lines, orders⟩ =
      ⟨lines, es.foldl (fillOwn fd) orders⟩ := by
  induction es generalizing orders with
  | nil => rfl
  | cons e es ih => rw [List.flatMap_cons, List.foldl_append, hear_notices, ih, List.foldl_cons]

theorem asking_of_asks {line : Bytes} (h : ¬ Quits line) : asking [line] = [line] :=
  List.filter_cons_of_pos (by simpa using h)

/-- A cancel takes one order out of the sender's account. -/
theorem holds_cancelled (x : Exchange) (fd orderId dest : Int) :
    ownedBy dest (x.market.step (.cancelOrder orderId fd)).orders =
      if dest = fd then (x.holds dest).filter (fun y => y.id ≠ orderId) else x.holds dest := by
  have hkeep : ownedBy dest (x.market.step (.cancelOrder orderId fd)).orders =
      (x.holds dest).filter fun y => !(y.id = orderId ∧ y.ownerFd = fd) :=
    List.filter_comm _ _ _
  rw [hkeep]
  split
  · next hdest =>
    refine List.filter_congr fun y hy => ?_
    have howner : y.ownerFd = dest := of_decide_eq_true (List.mem_filter.mp hy).2
    simp [howner, hdest]
  · next hdest =>
    refine List.filter_eq_self.mpr fun y hy => ?_
    have howner : y.ownerFd = dest := of_decide_eq_true (List.mem_filter.mp hy).2
    simp [howner, hdest]

section Line

variable {x : Exchange} (h : InOrder x) {fd : Int} {line : Bytes}

include h

/-- An order and its fills. -/
theorem InOrder.holds_ordered (hquit : ¬ Quits line) (hpos : 0 < (parse line).quantity)
    (dest : Int) (later : List Bytes) :
    let v := x.order fd (sideOf (parse line).type) (parse line)
    (v.executions.flatMap (x.notices dest)).foldl (Holdings.hear dest)
        ((if dest = fd then v.reply.toList else []).foldl (Holdings.hear dest)
          ⟨(if dest = fd then asking [line] else []) ++ later, x.holds dest⟩) =
      ⟨later, v.exchange.holds dest⟩ := by
  intro v
  set o := x.market.incoming fd (parse line).instrument (sideOf (parse line).type)
    (parse line).price
  have hexecutions : v.executions = (o.fillsOf (x.market.takings o (parse line).quantity)).map
      Fill.execution := rfl
  have howned : v.executions.foldl (fillOwn dest)
      (x.holds dest ++ ownedBy dest [o.rest (parse line).quantity]) = v.exchange.holds dest :=
    h.sound.owned_addOrder dest fd (parse line).instrument (sideOf (parse line).type) hpos
      (parse line).price
  have hreply : (if dest = fd then v.reply.toList else []).foldl (Holdings.hear dest)
      ⟨(if dest = fd then asking [line] else []) ++ later, x.holds dest⟩ =
        ⟨later, x.holds dest ++ ownedBy dest [o.rest (parse line).quantity]⟩ := by
    by_cases hdest : dest = fd
    · have hown : ownedBy dest [o.rest (parse line).quantity] =
          [Holdings.orderOf dest o.orderId line] := by
        rw [hdest]
        exact List.filter_cons_of_pos (decide_eq_true rfl)
      rw [if_pos hdest, if_pos hdest, asking_of_asks hquit, hown]
      rfl
    · have howner : (o.rest (parse line).quantity).ownerFd ≠ dest := Ne.symm hdest
      have hother : ownedBy dest [o.rest (parse line).quantity] = [] :=
        List.filter_cons_of_neg (by simpa using howner)
      rw [if_neg hdest, if_neg hdest, hother, List.append_nil]
      rfl
  rw [hreply, hear_executions, howned]

/-- **What is said because of a line keeps the account right**, of the sender and of
everybody else. -/
theorem InOrder.holds_outcome {v : Verdict} (hv : Outcome x fd line v) {dest : Int}
    (hthere : x.members.lookup dest ≠ none) (later : List Bytes) :
    ((if dest = fd then v.reply.toList else []) ++ v.executions.flatMap (x.notices dest)).foldl
        (Holdings.hear dest) ⟨(if dest = fd then asking [line] else []) ++ later, x.holds dest⟩ =
      ⟨later, v.exchange.holds dest⟩ := by
  rw [List.foldl_append]
  cases hv with
  | silent hsilent =>
      split
      · next hdest =>
        have hquit : Quits line := hsilent.resolve_left (hdest ▸ hthere)
        have hnothing : asking [line] = [] := List.filter_cons_of_neg (by simpa using hquit)
        rw [hnothing]
        rfl
      · rfl
  | refused hquit reason hreason =>
      split
      · show Holdings.hear dest _ (.error reason) = _
        rw [Holdings.hear, if_neg hreason.ne_oversized, asking_of_asks hquit]
        rfl
      · rfl
  | enrolled hquit _ member =>
      split
      · rw [asking_of_asks hquit]
        rfl
      · rfl
  | ordered hquit _ hpos => exact h.holds_ordered hquit hpos dest later
  | cancelled hquit =>
      have hafter := holds_cancelled x fd (parse line).orderId dest
      show _ = Holdings.mk later (ownedBy dest (x.market.step _).orders)
      rw [hafter]
      split
      · rw [asking_of_asks hquit]
        rfl
      · rfl

end Line

/-! ## At the server -/

/-- Somebody else's departure takes none of one's orders along. -/
theorem holds_leaves (x : Exchange) {fd dest : Int} (h : dest ≠ fd) :
    (x.next (.leaves fd)).holds dest = x.holds dest := by
  show ownedBy dest (x.market.orders.filter fun y => y.ownerFd ≠ fd) = _
  rw [ownedBy, List.filter_filter]
  refine List.filter_congr fun y _ => ?_
  by_cases howner : y.ownerFd = dest
  · simp [howner, h]
  · simp [howner]

/-- Whoever is there after somebody has left is somebody else, and nothing has changed for
it. -/
theorem stays_of_leaves {trace : List Obs} {o : Obs} {fd dest : Int}
    (ho : o.happening = some (.leaves fd))
    (hthere : (replay (trace ++ [o])).members.lookup dest ≠ none) :
    (replay (trace ++ [o])).members.lookup dest = (replay trace).members.lookup dest ∧
      (replay (trace ++ [o])).holds dest = (replay trace).holds dest := by
  rw [replay_concat _ ho] at hthere ⊢
  have hne : dest ≠ fd := by
    rintro rfl
    exact hthere (AList.lookup_erase _ _)
  exact ⟨AList.lookup_erase_ne hne, holds_leaves _ hne⟩

/-- Whoever is there at the end of a piece of the trace without arrivals was there all the
time, as the same, and has lost no orders but by lines. -/
theorem holds_within {dest : Int} {body : List Obs} (hbody : ∀ o ∈ body, o.within = true)
    {trace : List Obs} (hthere : (replay (trace ++ body)).members.lookup dest ≠ none) :
    (replay (trace ++ body)).members.lookup dest = (replay trace).members.lookup dest ∧
      (replay (trace ++ body)).holds dest = (replay trace).holds dest := by
  induction body using List.reverseRecOn with
  | nil =>
      rw [List.append_nil]
      exact ⟨rfl, rfl⟩
  | append_singleton body o ih =>
      have hbefore := ih fun o' ho' => hbody o' (List.mem_append_left _ ho')
      have ho : o.within = true := hbody o (by simp)
      rw [← List.append_assoc] at hthere ⊢
      cases o with
      | dropped fd reason =>
          obtain ⟨hsame, hholds⟩ := stays_of_leaves (o := .dropped fd reason) rfl hthere
          rw [hsame] at hthere ⊢
          rw [hholds]
          exact hbefore hthere
      | accepted | refused | handling => cases ho
      | _ =>
          rw [replay_append_silent (by simp [Obs.happening])] at hthere ⊢
          exact hbefore hthere

/-- To the exchange a line is said when its handling begins. -/
theorem replay_handling (trace : List Obs) (fd : Int) (line : Bytes) :
    replay (trace ++ [.handling fd line]) = (replay trace).next (.speaks fd line) :=
  replay_concat trace rfl

theorem replay_stretch (trace : List Obs) (fd : Int) (line : Bytes) (body : List Obs)
    (outcome : LineOutcome) :
    replay (trace ++ stretch fd line body outcome) =
      replay (trace ++ [.handling fd line] ++ body) := by
  rw [stretch, List.append_cons, ← List.append_assoc]
  exact replay_append_silent (by simp [Obs.happening])

/-- Whoever is there after a line was not dropped meanwhile, and is what the line has made
of it. -/
theorem stays_of_stretch {dest fd : Int} {line : Bytes} {body : List Obs} {outcome : LineOutcome}
    (hbody : ∀ o ∈ body, o.within = true) {trace : List Obs}
    (hthere : (replay (trace ++ stretch fd line body outcome)).members.lookup dest ≠ none) :
    (∀ reason, .dropped dest reason ∉ body) ∧
      (replay (trace ++ stretch fd line body outcome)).members.lookup dest =
        ((replay trace).next (.speaks fd line)).members.lookup dest ∧
      (replay (trace ++ stretch fd line body outcome)).holds dest =
        ((replay trace).next (.speaks fd line)).holds dest := by
  rw [replay_stretch] at hthere ⊢
  rw [← replay_handling]
  refine ⟨fun reason hmem => ?_, holds_within hbody hthere⟩
  exact hthere (lookup_none_of_dropped _ hbody hmem)

/-- Lines do not make anybody a member who was not. -/
theorem lookup_of_speaks {x : Exchange} {fd dest : Int} {line : Bytes}
    (h : (x.next (.speaks fd line)).members.lookup dest ≠ none) :
    x.members.lookup dest ≠ none := by
  have hverdict : (x.verdict fd line).exchange.members.lookup dest ≠ none := h
  have houtcome := verdict_outcome x fd line
  generalize x.verdict fd line = v at hverdict houtcome
  cases houtcome with
  | enrolled _ hthere member =>
      rw [lookup_enrol] at hverdict
      split at hverdict
      · next hdest =>
        rw [hdest]
        exact hthere
      · exact hverdict
  | silent | refused | ordered | cancelled => exact hverdict

theorem hear_oversized (fd : Int) (h : Holdings) : h.hear fd oversizedMessage = h := by
  unfold oversizedMessage Holdings.hear
  exact if_pos rfl

/-- A message between two lines is not put down. -/
theorem holdingsAfter_aside {o : Obs} (ho : o.between = true) (dest : Int) (lines : List Bytes)
    (trace : List Obs) :
    holdingsAfter dest lines (messagesTo dest (trace ++ [o])) =
      holdingsAfter dest lines (messagesTo dest trace) := by
  rw [messagesTo_append (by simpa using between_ne_accepted ho dest), List.flatMap_singleton]
  cases o with
  | queued fd message =>
      obtain rfl : message = oversizedMessage := of_decide_eq_true ho
      rw [Obs.messageTo]
      split
      · rw [holdingsAfter, List.foldl_append]
        exact hear_oversized dest _
      · rw [List.append_nil]
  | _ => exact congrArg (holdingsAfter dest lines) (List.append_nil _)

/-- Between two lines nothing changes for those who stay. -/
theorem holds_aside {o : Obs} (ho : o.between = true) {dest : Int} {trace : List Obs}
    (hthere : (replay (trace ++ [o])).members.lookup dest ≠ none) :
    (replay (trace ++ [o])).members.lookup dest = (replay trace).members.lookup dest ∧
      (replay (trace ++ [o])).holds dest = (replay trace).holds dest := by
  cases o with
  | refused fd => exact stays_of_leaves rfl hthere
  | dropped fd reason => exact stays_of_leaves rfl hthere
  | accepted | handling => cases ho
  | _ =>
      rw [replay_append_silent (by simp [Obs.happening])]
      exact ⟨rfl, rfl⟩

/-- Somebody who is not there has no orders. -/
theorem InOrder.holds_of_absent {x : Exchange} (h : InOrder x) {fd : Int}
    (hnone : x.members.lookup fd = none) : x.holds fd = [] := by
  refine List.filter_eq_nil_iff.mpr fun y hy => ?_
  have howner := h.owners y hy
  simp only [decide_eq_true_eq]
  rintro rfl
  exact howner hnone

/-- **The account is right over a whole conversation.** -/
theorem Conversation.holdings {trace : List Obs} (h : Conversation trace) {dest : Int}
    (hthere : (replay trace).members.lookup dest ≠ none)
    (hsenders : SendersStay (sinceAccept dest trace)) (later : List Bytes) :
    holdingsAfter dest ((handledLines dest trace).map Prod.fst ++ later) (messagesTo dest trace) =
      ⟨asking later, (replay trace).holds dest⟩ := by
  induction h generalizing later with
  | start => exact absurd rfl hthere
  | @arrival trace fd h hnone ih =>
      rw [handledLines_arrival]
      have hjoins : replay (trace ++ [.accepted fd]) = (replay trace).enrol fd .guest :=
        replay_concat trace (rfl : (Obs.accepted fd).happening = some (.joins fd))
      by_cases hnew : fd = dest
      · have hholds : (replay (trace ++ [.accepted fd])).holds dest = [] := by
          rw [hjoins, ← hnew]
          exact (replay_inOrder trace).holds_of_absent hnone
        rw [if_pos hnew, hholds, hnew, (newcomer_unheard dest trace).1]
        rfl
      · rw [hjoins, lookup_enrol, if_neg (Ne.symm hnew)] at hthere
        rw [sinceAccept_append (by simpa using hnew)] at hsenders
        rw [if_neg hnew, (arrival_unheard hnew trace).1, hjoins]
        exact ih hthere (fun o hmem => hsenders o (List.mem_append_left _ hmem)) later
  | @aside trace o h ho ih =>
      obtain ⟨hsame, hholds⟩ := holds_aside ho hthere
      rw [hsame] at hthere
      rw [sinceAccept_append (by simpa using between_ne_accepted ho dest)] at hsenders
      rw [handledLines_aside ho, holdingsAfter_aside ho, hholds]
      exact ih hthere (fun o' hmem => hsenders o' (List.mem_append_left _ hmem)) later
  | @line trace body fd line outcome h hspeaker hbody hspoken houtcome ih =>
      rw [← stretch] at hthere hsenders ⊢
      obtain ⟨hstays, hsame, hholds⟩ := stays_of_stretch hbody hthere
      rw [hsame] at hthere
      rw [sinceAccept_append (stretch_not_accepted hbody dest)] at hsenders
      have hbefore := lookup_of_speaks hthere
      have hsaid := hspoken.all_said houtcome (hsenders _ (by simp [stretch])) hstays
      rw [handledLines_stretch hbody, messagesTo_stretch hbody, hsaid, hholds, holdingsAfter,
        List.foldl_append, List.append_assoc]
      have hold := ih hbefore (fun o hmem => hsenders o (List.mem_append_left _ hmem))
        ((if fd = dest then [line] else []) ++ later)
      rw [holdingsAfter] at hold
      rw [hold, asking_append]
      have hown : asking (if fd = dest then [line] else []) =
          if dest = fd then asking [line] else [] := by
        by_cases hfd : fd = dest
        · rw [if_pos hfd, if_pos hfd.symm]
        · rw [if_neg hfd, if_neg (Ne.symm hfd)]
          rfl
      rw [hown]
      exact (replay_inOrder trace).holds_outcome (verdict_outcome _ fd line) hbefore _

/-! ## Whole runs -/

/-- **A trader knows its orders.**  In every run, a client that is connected, and since
whose arrival nobody was lost over a line of his own other than QUIT, can tell from the
lines it sent and the messages it was sent which orders it has in the book: for each
queue those with its descriptor as owner, in order, with their ids and what is left of
them.  Lines it has sent that are not handled yet do not confuse it; they are what it is
still waiting to be answered. -/
theorem trader_knows_its_orders (c : Setup) (turns : List Turn) (dest : Int) (later : List Bytes)
    (hconnected : (run c turns).connected dest = true)
    (hsenders : SendersStay (sinceAccept dest (run c turns).trace)) :
    let s := run c turns
    let known := holdingsAfter dest ((handledLines dest s.trace).map Prod.fst ++ later)
      (messagesTo dest s.trace)
    known.unanswered = asking later ∧
    (known.orders.Pairwise fun x y => x.id < y.id) ∧
    ∀ q, (known.orders.filter fun x => x.queueId = q) =
      ((s.book.queue q).map Node.order).filter fun x => x.ownerFd = dest := by
  intro s known
  have hreplayed : Replayed s := run_replayed c turns
  obtain ⟨session, hsession⟩ := connected_iff.mp hconnected
  have hthere : (replay s.trace).members.lookup dest ≠ none := by
    rw [hreplayed.members, hsession]
    exact Option.some_ne_none _
  have hknown : known = ⟨asking later, (replay s.trace).holds dest⟩ :=
    (run_conversation c turns).holdings hthere hsenders later
  rw [hknown]
  refine ⟨rfl, hreplayed.market.sorted.filter _, fun q => ?_⟩
  rw [hreplayed.market.queue]
  exact List.filter_comm _ _ _

/-- A seller has two orders at one price, a buyer takes the first and part of the second,
and the seller has asked for more in the meantime. -/
private def sellerWaits : List Turn :=
  [{ input := .event { fd := 3, readable := true }
     answers := { accepts := [.connection 5 [] true, .connection 6 [] true] } },
   { input := .event { fd := 5, readable := true }
     answers := { recvs := [.data ⟨ascii "LOGIN a\nSELL JNST 5 9\nBUY IMCT 4 2\nSELL JNST 5 9\n",
       by decide, by decide⟩] } },
   { input := .event { fd := 6, readable := true }
     answers := { recvs := [.data ⟨ascii "LOGIN b\nBUY JNST 7 9\n", by decide, by decide⟩] } },
   { input := .event { fd := 5, readable := true }
     answers := { recvs := [.data ⟨ascii "CANCEL 1\nCANCEL 2\n", by decide, by decide⟩] } }]

theorem trader_knows_its_orders_second_at_price :
    messagesTo 5 (run {} sellerWaits).trace =
      [.ok, .orderAccepted 1, .orderAccepted 2, .orderAccepted 3, .sold (ascii "JNST") 5 9,
        .sold (ascii "JNST") 2 9, .error (ascii "No such order with unfilled quantity: 1"),
        .orderCancelled 2] ∧
    (((run {} sellerWaits).book.queue ⟨.sell, ascii "JNST"⟩).map Node.order).filter
      (fun x => x.ownerFd = 5) = [⟨3, 5, ascii "JNST", .sell, 3, 9⟩] := by
  refine ⟨by decide +kernel, ?_⟩
  have h := (trader_knows_its_orders {} sellerWaits 5 [ascii "QUIT"] (by decide +kernel)
    (by rw [SendersStay]; decide +kernel)).2.2 ⟨.sell, ascii "JNST"⟩
  rw [← h]
  decide +kernel

end SocketExchange.Server
