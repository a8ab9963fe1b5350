import SocketExchange.Lib.Refinement
import SocketExchange.Trading.Greedy

/-!
# The market behind the book

What the book is for can be said without queues, nodes, iterators or an index.  A market
is one list of orders, oldest first, and the next id.  An incoming order draws on those
it can trade with, in the order of the list, and what it does not get is appended.
Cancelling and departing take orders out.

The book keeps the same orders in a queue for each side of each instrument and finds them
through an index of iterators.  `Represents` is the relation between the two.  Every call
keeps it and is answered alike, so a run of the book is a run of the market, whatever the
order in which the index is walked.
-/

namespace SocketExchange.Trading.OrderBook

open SocketExchange.Lib
open SocketExchange.Lib.Bytes

/-! ## The market -/

/-- The orders with something left to trade, oldest first. -/
structure Market where
  nextOrderId : Int := 1
  orders : List Order := []

/-- What is said back to whoever made a call. -/
inductive Answer where
  | accepted (orderId : Int) (executions : List TradeExecution)
  | cancelled
  | refused (error : Bytes)
  | removed
  deriving Repr, DecidableEq

/-- The incoming order of a call on `m`. -/
def Market.incoming (m : Market) (ownerFd : Int) (instrument : Bytes) (side : Side)
    (price : Int) : Incoming :=
  ⟨m.nextOrderId, ownerFd, instrument, side, price⟩

/-- The orders an incoming one may trade with. -/
def Market.counterparties (m : Market) (o : Incoming) : List Order :=
  m.orders.filter fun x =>
    x.side = o.side.opposite ∧ x.instrument = o.instrument ∧ x.price = o.price

/-- What an incoming order gets from whom. -/
def Market.takings (m : Market) (o : Incoming) (quantity : Int) : List (Order × Int) :=
  (m.counterparties o).zip (Greedy.draw quantity ((m.counterparties o).map Order.quantity))

/-- An order after some takings: reduced, or gone. -/
def Order.less (takings : List (Order × Int)) (x : Order) : Option Order :=
  if x.quantity = filledOf x.id takings then none
  else some { x with quantity := x.quantity - filledOf x.id takings }

/-- The remainder rests, or nothing does. -/
def restOrders (o : Incoming) (remaining : Int) : List Order :=
  if 0 < remaining then [o.rest remaining] else []

def Market.addOrder (m : Market) (o : Incoming) (quantity : Int) : Market where
  nextOrderId := m.nextOrderId + 1
  orders :=
    let takings := m.takings o quantity
    m.orders.filterMap (Order.less takings) ++ restOrders o (quantity - takenTotal takings)

/-- What a cancel is answered. -/
def Market.cancelAnswer (m : Market) (orderId requesterFd : Int) : Answer :=
  match m.orders.find? fun x => x.id = orderId with
  | none => .refused (ascii "No such order with unfilled quantity: " ++ decimal orderId)
  | some x =>
      if x.ownerFd ≠ requesterFd then
        .refused (ascii "Order " ++ decimal orderId ++ ascii " belongs to another trader")
      else .cancelled

/-- The market without the orders that fail `keep`. -/
def Market.keep (keep : Order → Bool) (m : Market) : Market :=
  { m with orders := m.orders.filter keep }

def Market.step (m : Market) : Op → Market
  | .addOrder ownerFd instrument side quantity price =>
      m.addOrder (m.incoming ownerFd instrument side price) quantity
  | .cancelOrder orderId requesterFd =>
      m.keep fun x => !(x.id = orderId ∧ x.ownerFd = requesterFd)
  | .removeOrdersOf ownerFd => m.keep fun x => x.ownerFd ≠ ownerFd

def Market.answer (m : Market) : Op → Answer
  | .addOrder ownerFd instrument side quantity price =>
      let o := m.incoming ownerFd instrument side price
      .accepted m.nextOrderId ((o.fillsOf (m.takings o quantity)).map Fill.execution)
  | .cancelOrder orderId requesterFd => m.cancelAnswer orderId requesterFd
  | .removeOrdersOf _ => .removed

/-- The market as a machine. -/
def market : Refinement.Machine Op Market Answer := ⟨{}, Market.step, Market.answer⟩

/-! ## The book as a machine -/

/-- What the book's caller is told. -/
def Book.answer (b : Book) (c : Call) : Answer :=
  match c.op with
  | .addOrder ownerFd instrument side quantity price =>
      let r := b.addOrder ownerFd instrument side quantity price
      .accepted r.orderId r.executions
  | .cancelOrder orderId requesterFd =>
      let r := b.cancelOrder orderId requesterFd
      if r.ok then .cancelled else .refused r.error
  | .removeOrdersOf _ => .removed

/-- The book as a machine.  A call brings the order in which it walks the index. -/
def book : Refinement.Machine Call Book Answer := ⟨Book.empty, Book.call, Book.answer⟩

/-! ## The relation between the two -/

/-- The queue an order belongs to. -/
def Order.queueId (x : Order) : QueueId := ⟨x.side, x.instrument⟩

/-- The book holds the orders of the market, each queue its part of the list. -/
structure Represents (b : Book) (m : Market) : Prop where
  wf : b.WF
  nextOrderId : b.nextOrderId = m.nextOrderId
  sorted : m.orders.Pairwise fun x y => x.id < y.id
  queue : ∀ q, (b.queue q).map Node.order = m.orders.filter fun x => x.queueId = q

theorem represents_empty : Represents Book.empty {} where
  wf := wf_empty
  nextOrderId := rfl
  sorted := List.Pairwise.nil
  queue := fun q => by simp

section Represents

variable {b : Book} {m : Market} (h : Represents b m)

include h

theorem Represents.mem {x : Order} : x ∈ m.orders ↔ ∃ n ∈ b.queue x.queueId, n.order = x := by
  have hmem : x ∈ m.orders.filter (fun y => y.queueId = x.queueId) ↔ x ∈ m.orders := by
    simp
  rw [← hmem, ← h.queue, List.mem_map]

theorem Represents.mem_node {q : QueueId} {n : Node} (hn : n ∈ b.queue q) :
    n.order ∈ m.orders ∧ n.order.queueId = q := by
  have hmem : n.order ∈ (b.queue q).map Node.order := List.mem_map_of_mem hn
  rw [h.queue, List.mem_filter] at hmem
  exact ⟨hmem.1, of_decide_eq_true hmem.2⟩

/-- Ids are unique in the market. -/
theorem Represents.eq_of_id {x y : Order} (hx : x ∈ m.orders) (hy : y ∈ m.orders)
    (hid : x.id = y.id) : x = y := by
  obtain ⟨n, hn, rfl⟩ := h.mem.mp hx
  obtain ⟨n', hn', rfl⟩ := h.mem.mp hy
  rw [h.wf.eq_of_id hn hn' hid]

/-- `resting_order_count` is the length of the list. -/
theorem Represents.restingOrderCount : b.restingOrderCount = m.orders.length := by
  have hnodup : m.orders.Nodup := h.sorted.imp fun hlt heq => by
    rw [heq] at hlt
    omega
  have hperm : b.orders.Perm m.orders := by
    refine (List.perm_ext_iff_of_nodup (List.Nodup.of_map _ (ids_nodup h.wf)) hnodup).mpr fun x => ?_
    rw [mem_orders]
    constructor
    · rintro ⟨q, n, hn, rfl⟩
      exact (h.mem_node hn).1
    · intro hx
      exact ⟨_, h.mem.mp hx⟩
  rw [restingOrderCount_eq h.wf, hperm.length_eq]

/-! ### Leaving -/

/-- What is taken out of both leaves the two related. -/
theorem Represents.keep {keep : Order → Bool} {b' : Book} (hk : Kept keep b b') :
    Represents b' (m.keep keep) where
  wf := (hk.shrunk h.wf).wf h.wf
  nextOrderId := hk.nextOrderId.trans h.nextOrderId
  sorted := h.sorted.filter _
  queue := fun q => by
    have hmap : ((b.queue q).filter fun n => keep n.order).map Node.order =
        ((b.queue q).map Node.order).filter keep := List.filter_map.symm
    rw [hk.queue, hmap, h.queue]
    exact List.filter_comm _ _ _

theorem Represents.removeOrdersOf (order : HashOrder) (fd : Int) :
    Represents (b.removeOrdersOf order fd) (m.keep fun x => x.ownerFd ≠ fd) :=
  h.keep (removeOrdersOf_kept order h.wf fd)

/-! ### Cancelling -/

/-- The index finds the order the list has under that id. -/
theorem Represents.lookup (id : Int) :
    (b.index.lookup id).bind (fun loc => (b.deref loc).map Node.order) =
      m.orders.find? fun x => x.id = id := by
  cases hfind : m.orders.find? fun x => x.id = id with
  | none =>
      rw [List.find?_eq_none] at hfind
      cases hlookup : b.index.lookup id with
      | none => rfl
      | some loc =>
          obtain ⟨n, hn, _, hid, _⟩ := deref_of_lookup h.wf hlookup
          have hother := hfind n.order (h.mem_node hn).1
          exact absurd (decide_eq_true hid) hother
  | some x =>
      have hid : x.id = id := by simpa using List.find?_some hfind
      obtain ⟨n, hn, rfl⟩ := h.mem.mp (List.mem_of_find?_eq_some hfind)
      rw [← hid, lookup_of_mem h.wf hn, Option.bind_some, deref_of_mem h.wf hn, Option.map_some]

theorem Represents.cancelAnswer (id fd : Int) :
    (if (b.cancelOrder id fd).ok then Answer.cancelled
      else .refused (b.cancelOrder id fd).error) = m.cancelAnswer id fd := by
  rw [Market.cancelAnswer, ← h.lookup, Book.cancelOrder]
  cases hlookup : b.index.lookup id with
  | none => rfl
  | some loc =>
      obtain ⟨n, _, _, _, hderef⟩ := deref_of_lookup h.wf hlookup
      simp only [hderef, Option.bind_some, Option.map_some, ne_eq, Option.some.injEq]
      split <;> rfl

theorem Represents.cancelOrder (id fd : Int) :
    Represents (b.cancelOrder id fd).book
      (m.keep fun x => !(x.id = id ∧ x.ownerFd = fd)) := by
  rcases cancelOrder_cases h.wf id fd with ⟨_, hbook, hnone⟩ | ⟨_, ⟨q, n, hn, hid, hfd⟩, hkept⟩
  · rw [hbook]
    refine h.keep ((kept_refl h.wf).congr fun q n hn => ?_)
    have hother := hnone q n hn
    simpa [← imp_iff_not_or] using hother
  · refine h.keep (hkept.congr fun q' n' hn' => ?_)
    -- the order with that id is the requester's own
    have howner : n'.order.id = id → n'.order.ownerFd = fd := fun hid' => by
      rw [h.wf.eq_of_id hn' hn (hid'.trans hid.symm), hfd]
    by_cases hid' : n'.order.id = id
    · simp [hid', howner hid']
    · simp [hid']

/-! ### Submitting -/

section AddOrder

variable (ownerFd : Int) (instrument : Bytes) (side : Side) (quantity price : Int)

theorem Represents.incoming :
    m.incoming ownerFd instrument side price = b.incoming ownerFd instrument side price := by
  rw [Market.incoming, Book.incoming, h.nextOrderId]

/-- The counterparties are the orders of the opposite queue at the price. -/
theorem Represents.counterparties :
    m.counterparties (b.incoming ownerFd instrument side price) =
      (levelOf price (b.queue ⟨side.opposite, instrument⟩)).map Node.order := by
  have hlevel : (levelOf price (b.queue ⟨side.opposite, instrument⟩)).map Node.order =
      ((b.queue ⟨side.opposite, instrument⟩).map Node.order).filter fun x => x.price = price := by
    rw [List.filter_map]
    rfl
  rw [hlevel, h.queue, List.filter_filter, Market.counterparties]
  refine List.filter_congr fun x _ => ?_
  simp [Book.incoming, Order.queueId, and_assoc, and_comm]

/-- What is got from whom. -/
theorem Represents.takings :
    m.takings (b.incoming ownerFd instrument side price) quantity =
      (b.matched instrument side quantity price).taken := by
  rw [Market.takings, h.counterparties, Book.matched, matchNodes_taken_eq_draw, List.map_map]
  rfl

theorem Represents.remaining :
    quantity - takenTotal (m.takings (b.incoming ownerFd instrument side price) quantity) =
      (b.matched instrument side quantity price).remaining := by
  have htotal := matchNodes_total price (b.queue ⟨side.opposite, instrument⟩) quantity
  rw [h.takings, Book.matched]
  omega

theorem Represents.answer_addOrder :
    Answer.accepted (b.addOrder ownerFd instrument side quantity price).orderId
        (b.addOrder ownerFd instrument side quantity price).executions =
      m.answer (.addOrder ownerFd instrument side quantity price) := by
  rw [Market.answer, h.incoming, h.takings, AddResult.executions, addOrder_fills, ← h.nextOrderId]
  rfl

end AddOrder

end Represents

/-- Takings do not move an order to another queue. -/
theorem less_queueId {takings : List (Order × Int)} {x y : Order} (h : x.less takings = some y) :
    y.queueId = x.queueId ∧ y.id = x.id := by
  unfold Order.less at h
  split at h
  · cases h
  · rw [Option.some.injEq] at h
    subst h
    exact ⟨rfl, rfl⟩

theorem less_of_fresh {takings : List (Order × Int)} {x : Order}
    (h : filledOf x.id takings = 0) (hpos : 0 < x.quantity) : x.less takings = some x := by
  rw [Order.less, h, if_neg (by omega)]
  simp

/-- Takings and queues. -/
theorem filter_filterMap_less (takings : List (Order × Int)) (q : QueueId) (orders : List Order) :
    (orders.filterMap (Order.less takings)).filter (fun x => x.queueId = q) =
      (orders.filter fun x => x.queueId = q).filterMap (Order.less takings) := by
  induction orders with
  | nil => rfl
  | cons x orders ih =>
      cases hless : x.less takings with
      | none =>
          rw [List.filterMap_cons_none hless, ih]
          by_cases hq : x.queueId = q
          · rw [List.filter_cons_of_pos (by simpa using hq), List.filterMap_cons_none hless]
          · rw [List.filter_cons_of_neg (by simpa using hq)]
      | some y =>
          have hy := (less_queueId hless).1
          rw [List.filterMap_cons_some hless]
          by_cases hq : x.queueId = q
          · rw [List.filter_cons_of_pos (by simpa [hy] using hq),
              List.filter_cons_of_pos (by simpa using hq), List.filterMap_cons_some hless, ih]
          · rw [List.filter_cons_of_neg (by simpa [hy] using hq),
              List.filter_cons_of_neg (by simpa using hq), ih]

theorem map_restNodes (addr : Nat) (o : Incoming) (remaining : Int) :
    (restNodes addr o remaining).map Node.order = restOrders o remaining := by
  unfold restNodes restOrders
  split
  · rfl
  · rfl

/-- The remainder rests in the incoming order's own queue. -/
theorem filter_restOrders (o : Incoming) (remaining : Int) (q : QueueId) :
    (restOrders o remaining).filter (fun x => x.queueId = q) =
      if q = o.ownQueue then restOrders o remaining else [] := by
  have hown : ∀ x ∈ restOrders o remaining, x.queueId = o.ownQueue := by
    intro x hx
    unfold restOrders at hx
    split at hx
    · rw [List.mem_singleton.mp hx]
      rfl
    · cases hx
  split
  · next hq =>
    rw [List.filter_eq_self]
    intro x hx
    simp [hown x hx, hq]
  · next hq =>
    rw [List.filter_eq_nil_iff]
    intro x hx
    simp [hown x hx, Ne.symm hq]

/-- The nodes of a queue lose what their orders lose. -/
theorem map_filterMap_settle (takings : List (Order × Int)) (nodes : List Node) :
    (nodes.filterMap (settle takings)).map Node.order =
      (nodes.map Node.order).filterMap (Order.less takings) := by
  have hcomp : ∀ n : Node, (settle takings n).map Node.order = n.order.less takings := by
    intro n
    unfold settle Order.less
    split
    · rfl
    · rfl
  rw [List.map_filterMap, List.filterMap_map]
  exact List.filterMap_congr fun n _ => hcomp n

section Represents

variable {b : Book} {m : Market} (h : Represents b m)

include h

/-- Orders outside the opposite queue lose nothing. -/
theorem Represents.filterMap_less {q : QueueId} (instrument : Bytes) (side : Side)
    (quantity price : Int) (hq : q ≠ ⟨side.opposite, instrument⟩) :
    (m.orders.filter fun x => x.queueId = q).filterMap
        (Order.less (b.matched instrument side quantity price).taken) =
      m.orders.filter fun x => x.queueId = q := by
  have hkeep : ∀ x ∈ m.orders.filter (fun x => x.queueId = q),
      x.less (b.matched instrument side quantity price).taken = some x := by
    intro x hx
    obtain ⟨hx, hxq⟩ := List.mem_filter.mp hx
    have hxq : x.queueId = q := of_decide_eq_true hxq
    obtain ⟨n, hn, rfl⟩ := h.mem.mp hx
    refine less_of_fresh (filledOf_of_fresh fun t ht hid => ?_) (h.wf.quantity_pos _ n hn)
    obtain ⟨_, _, _, n', hn', hn't⟩ :=
      matchNodes_taken price _ quantity (h.wf.quantity_pos _) t ht
    rw [← hn't] at hid
    -- an order with that id is in the opposite queue, and ids are in one queue only
    exact hq (hxq.symm.trans (h.wf.id_queue _ _ n hn n' hn' hid.symm))
  rw [List.filterMap_congr hkeep, List.filterMap_some]

/-- The remainder is the youngest order there is. -/
theorem Represents.sorted_append (takings : List (Order × Int)) (ownerFd : Int)
    (instrument : Bytes) (side : Side) (price remaining : Int) :
    (m.orders.filterMap (Order.less takings) ++
      restOrders (b.incoming ownerFd instrument side price) remaining).Pairwise
        fun x y => x.id < y.id := by
  refine List.pairwise_append.mpr ⟨?_, ?_, ?_⟩
  · refine h.sorted.filterMap _ fun x x' hlt y hy y' hy' => ?_
    rw [(less_queueId hy).2, (less_queueId hy').2]
    exact hlt
  · unfold restOrders
    split
    · exact List.pairwise_singleton _ _
    · exact List.Pairwise.nil
  · intro y hy z hz
    obtain ⟨x, hx, hxy⟩ := List.mem_filterMap.mp hy
    obtain ⟨n, hn, rfl⟩ := h.mem.mp hx
    have hid : z.id = b.nextOrderId := by
      unfold restOrders at hz
      split at hz
      · rw [List.mem_singleton.mp hz]
        rfl
      · cases hz
    rw [(less_queueId hxy).2, hid]
    exact h.wf.id_lt _ n hn

/-- **Submitting.** -/
theorem Represents.addOrder (ownerFd : Int) (instrument : Bytes) (side : Side)
    (quantity price : Int) :
    Represents (b.addOrder ownerFd instrument side quantity price).book
      (m.addOrder (m.incoming ownerFd instrument side price) quantity) := by
  rw [h.incoming]
  set o := b.incoming ownerFd instrument side price
  have hownQueue : o.ownQueue = ⟨side, instrument⟩ := rfl
  have htakings := h.takings ownerFd instrument side quantity price
  have hremaining := h.remaining ownerFd instrument side quantity price
  have horders : (m.addOrder o quantity).orders =
      m.orders.filterMap (Order.less (b.matched instrument side quantity price).taken) ++
        restOrders o (b.matched instrument side quantity price).remaining := by
    rw [← hremaining, ← htakings]
    rfl
  refine ⟨addOrder_wf ownerFd instrument side quantity price h.wf, ?_, ?_, fun q => ?_⟩
  · rw [addOrder_nextOrderId, h.nextOrderId]
    rfl
  · rw [horders]
    exact h.sorted_append _ ownerFd instrument side price _
  · rw [horders, List.filter_append, filter_filterMap_less, filter_restOrders, addOrder_queue,
      hownQueue]
    by_cases hopp : q = ⟨side.opposite, instrument⟩
    · rw [if_pos hopp, Book.matched, matchNodes_queue price _ quantity (h.wf.quantity_pos _)
        (h.wf.sorted _), map_filterMap_settle, h.queue, ← hopp, if_neg, List.append_nil]
      intro hown
      exact oppositeQueue_ne_ownQueue o (hopp.symm.trans hown)
    · rw [if_neg hopp, h.filterMap_less instrument side quantity price hopp]
      by_cases hown : q = ⟨side, instrument⟩
      · rw [if_pos hown, List.map_append, h.queue, map_restNodes, if_pos hown]
      · rw [if_neg hown, h.queue, if_neg hown, List.append_nil]

end Represents

/-! ## Runs -/

/-- **Every call keeps the relation and is answered alike.** -/
theorem book_refines_market : Refinement.Refines book market Call.op (fun _ => True) Represents where
  start := represents_empty
  step := fun b m c _ h => by
    obtain ⟨op, order⟩ := c
    cases op with
    | addOrder ownerFd instrument side quantity price =>
        exact h.addOrder ownerFd instrument side quantity price
    | cancelOrder orderId requesterFd => exact h.cancelOrder orderId requesterFd
    | removeOrdersOf ownerFd => exact h.removeOrdersOf order ownerFd
  answer := fun b m c _ h => by
    obtain ⟨op, order⟩ := c
    cases op with
    | addOrder ownerFd instrument side quantity price =>
        exact h.answer_addOrder ownerFd instrument side quantity price
    | cancelOrder orderId requesterFd => exact h.cancelAnswer orderId requesterFd
    | removeOrdersOf ownerFd => rfl

/-- **The book is the market.**  Whatever calls are made and however each of them walks the
index, the ids, the executions and the verdicts on cancels are those of the list of orders,
and the queues and the index hold that list. -/
theorem book_answers_as_market (calls : List Call) :
    book.answers calls = market.answers (calls.map Call.op) ∧
      (∀ q, ((bookReached calls).queue q).map Node.order =
        (market.after (calls.map Call.op)).orders.filter fun x => x.queueId = q) ∧
      (bookReached calls).restingOrderCount =
        (market.after (calls.map Call.op)).orders.length := by
  obtain ⟨hanswers, hrep⟩ := book_refines_market.run fun (c : Call) (_ : c ∈ calls) => trivial
  exact ⟨hanswers, hrep.queue, hrep.restingOrderCount⟩

end SocketExchange.Trading.OrderBook
