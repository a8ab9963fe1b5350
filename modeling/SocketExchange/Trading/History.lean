import Mathlib.Data.List.Induction
import SocketExchange.Lib.Tables
import SocketExchange.Trading.Matching

/-!
# Histories of the book

A history is the list of what the calls on a book were given and gave back.
Claims about "the executions so far" or "an earlier cancel" are functions of
it.  What an operation takes out of the book is not read off its definition: it
is the difference between the orders before and the orders after.

The invariants of every reachable book are collected at the end: the index and
the queues agree, and no price is bid and offered at the same time.
-/

namespace SocketExchange.Trading.OrderBook

open SocketExchange.Lib
open SocketExchange.Lib.Bytes

/-! ## Operations and runs -/

/-- A call on the book. -/
inductive Op where
  | addOrder (ownerFd : Int) (instrument : Bytes) (side : Side) (quantity price : Int)
  | cancelOrder (orderId requesterFd : Int)
  | removeOrdersOf (ownerFd : Int)
  deriving Repr, DecidableEq

/-- The server submits positive quantities only. -/
def Op.Valid : Op → Prop
  | .addOrder _ _ _ quantity _ => 0 < quantity
  | .cancelOrder _ _ => True
  | .removeOrdersOf _ => True

instance (op : Op) : Decidable op.Valid := by
  cases op <;> unfold Op.Valid <;> infer_instance

def Book.apply (order : HashOrder) (b : Book) : Op → Book
  | .addOrder ownerFd instrument side quantity price =>
      (b.addOrder ownerFd instrument side quantity price).book
  | .cancelOrder orderId requesterFd => (b.cancelOrder orderId requesterFd).book
  | .removeOrdersOf ownerFd => b.removeOrdersOf order ownerFd

/-- The book after a sequence of calls on a new one. -/
def bookAfter (order : HashOrder) (ops : List Op) : Book :=
  Loop.run (Book.apply order) Book.empty ops

/-- One call and its outcome. -/
inductive Entry where
  | added (o : Incoming) (quantity : Int) (fills : List Fill)
  | cancelled (orderId requesterFd : Int) (ok : Bool) (taken : List Order)
  | removed (ownerFd : Int) (taken : List Order)
  deriving Repr, DecidableEq

/-- The orders of `b` that are not in `b'`. -/
def gone (b b' : Book) : List Order :=
  b.orders.filter fun o => decide (o.id ∉ b'.orders.map Order.id)

def Book.entry (order : HashOrder) (b : Book) : Op → Entry
  | .addOrder ownerFd instrument side quantity price =>
      let r := b.addOrder ownerFd instrument side quantity price
      .added ⟨r.orderId, ownerFd, instrument, side, price⟩ quantity r.fills
  | .cancelOrder orderId requesterFd =>
      let r := b.cancelOrder orderId requesterFd
      .cancelled orderId requesterFd r.ok (gone b r.book)
  | .removeOrdersOf ownerFd =>
      .removed ownerFd (gone b (b.removeOrdersOf order ownerFd))

/-- The entries of a sequence of calls on `b`. -/
def Book.historyFrom (order : HashOrder) (b : Book) : List Op → List Entry
  | [] => []
  | op :: ops => b.entry order op :: (b.apply order op).historyFrom order ops

/-- The entries of a sequence of calls on a new book. -/
def history (order : HashOrder) (ops : List Op) : List Entry :=
  Book.empty.historyFrom order ops

theorem historyFrom_append (order : HashOrder) (b : Book) (xs ys : List Op) :
    b.historyFrom order (xs ++ ys) =
      b.historyFrom order xs ++
        (Loop.run (Book.apply order) b xs).historyFrom order ys := by
  induction xs generalizing b with
  | nil => rfl
  | cons op xs ih =>
      simp only [List.cons_append, Book.historyFrom, ih, Loop.run_cons]

theorem history_concat (order : HashOrder) (ops : List Op) (op : Op) :
    history order (ops ++ [op]) =
      history order ops ++ [(bookAfter order ops).entry order op] :=
  historyFrom_append order Book.empty ops [op]

theorem bookAfter_concat (order : HashOrder) (ops : List Op) (op : Op) :
    bookAfter order (ops ++ [op]) = (bookAfter order ops).apply order op :=
  Loop.run_concat _ _ _ _

/-! ## The invariant over whole runs -/

theorem apply_wf (order : HashOrder) {b : Book} (hb : b.WF) (op : Op) :
    (b.apply order op).WF := by
  cases op with
  | addOrder ownerFd instrument side quantity price =>
      exact addOrder_wf ownerFd instrument side quantity price hb
  | cancelOrder orderId requesterFd =>
      exact (cancelOrder_shrunk hb orderId requesterFd).wf hb
  | removeOrdersOf ownerFd =>
      exact ((removeOrdersOf_kept order hb ownerFd).shrunk hb).wf hb

theorem bookAfter_wf (order : HashOrder) (ops : List Op) : (bookAfter order ops).WF :=
  Loop.run_invariant (I := Book.WF) (P := fun _ => True) (fun _ op _ h => apply_wf order h op)
    wf_empty (fun _ _ => trivial)

/-- Each call of `add_order` uses up one id. -/
theorem bookAfter_nextOrderId_le (order : HashOrder) (ops : List Op) :
    (bookAfter order ops).nextOrderId ≤ ops.length + 1 := by
  induction ops using List.reverseRecOn with
  | nil => simp [bookAfter, Book.empty]
  | append_singleton ops op ih =>
      rw [bookAfter_concat, List.length_append]
      have hb := bookAfter_wf order ops
      have hstep : ((bookAfter order ops).apply order op).nextOrderId ≤
          (bookAfter order ops).nextOrderId + 1 := by
        cases op with
        | addOrder ownerFd instrument side quantity price =>
            exact Int.le_of_eq (addOrder_nextOrderId _ _ _ _ _ _)
        | cancelOrder orderId requesterFd =>
            have := (cancelOrder_shrunk hb orderId requesterFd).nextOrderId
            simp only [Book.apply, this]
            omega
        | removeOrdersOf ownerFd =>
            have := (removeOrdersOf_kept order hb ownerFd).nextOrderId
            simp only [Book.apply, this]
            omega
      simp only [List.length_singleton]
      omega

/-! ## Every walk of its own -/

/-- A call, and the order in which the index is walked should the call walk it. -/
structure Call where
  op : Op
  order : HashOrder

def Book.call (b : Book) (c : Call) : Book := b.apply c.order c.op

/-- The book after a sequence of calls on a new one, no two of which need walk the
index in the same way. -/
def bookReached (calls : List Call) : Book := Loop.run Book.call Book.empty calls

theorem bookReached_wf (calls : List Call) : (bookReached calls).WF :=
  Loop.run_invariant (I := Book.WF) (P := fun _ => True)
    (fun _ c _ h => apply_wf c.order h c.op) wf_empty (fun _ _ => trivial)

/-- **Removal is an exact filter.**  Whatever the walk, the orders of `fd` leave their
queues and everybody else's stay in line, and the index is the one of what is left. -/
theorem removal_exact (calls : List Call) (order : HashOrder) (fd : Int) :
    let b := bookReached calls
    let b' := b.removeOrdersOf order fd
    (∀ q, b'.queue q = (b.queue q).filter fun n => n.order.ownerFd ≠ fd) ∧
      (∀ id loc, b'.index.lookup id = some loc ↔
        ∃ n ∈ b.queue loc.queue, n.order.ownerFd ≠ fd ∧ n.addr = loc.it ∧ n.order.id = id) ∧
      b'.nextOrderId = b.nextOrderId := by
  intro b b'
  have hkept := removeOrdersOf_kept order (bookReached_wf calls) fd
  refine ⟨hkept.queue, ?_, hkept.nextOrderId⟩
  intro id loc
  rw [hkept.indexOk id loc]
  constructor
  · rintro ⟨n, hn, haddr, hid⟩
    obtain ⟨hold, howner⟩ := hkept.mem.mp hn
    exact ⟨n, hold, of_decide_eq_true howner, haddr, hid⟩
  · rintro ⟨n, hn, howner, haddr, hid⟩
    exact ⟨n, hkept.mem.mpr ⟨hn, decide_eq_true howner⟩, haddr, hid⟩

/-! ## The orders of a book -/

theorem mem_nodes {b : Book} {n : Node} : n ∈ b.nodes ↔ ∃ q, n ∈ b.queue q := by
  rw [Book.nodes, List.mem_append, Tables.mem_flatMap_iff_lookup, Tables.mem_flatMap_iff_lookup]
  constructor
  · rintro (⟨i, h⟩ | ⟨i, h⟩)
    · exact ⟨⟨.buy, i⟩, h⟩
    · exact ⟨⟨.sell, i⟩, h⟩
  · rintro ⟨⟨side, i⟩, h⟩
    cases side with
    | buy => exact Or.inl ⟨i, h⟩
    | sell => exact Or.inr ⟨i, h⟩

theorem mem_orders {b : Book} {o : Order} :
    o ∈ b.orders ↔ ∃ q, ∃ n ∈ b.queue q, n.order = o := by
  simp only [Book.orders, List.mem_map, mem_nodes]
  constructor
  · rintro ⟨n, ⟨q, hn⟩, rfl⟩
    exact ⟨q, n, hn, rfl⟩
  · rintro ⟨q, n, hn, rfl⟩
    exact ⟨n, ⟨q, hn⟩, rfl⟩

/-- Ids do not repeat within one of the two maps. -/
private theorem queueMap_ids_nodup {m : QueueMap}
    (hs : ∀ i, ((m.lookup i).getD []).Pairwise fun a c => a.order.id < c.order.id)
    (hi : ∀ i i', ∀ a ∈ (m.lookup i).getD [], ∀ c ∈ (m.lookup i').getD [],
      a.order.id = c.order.id → i = i') :
    ((m.entries.flatMap (·.2)).map (·.order.id)).Nodup := by
  have hget : ∀ e ∈ m.entries, (m.lookup e.1).getD [] = e.2 := fun e he => by
    rw [AList.mem_lookup_iff.mpr he]; rfl
  rw [List.map_flatMap, List.nodup_flatMap]
  constructor
  · intro e he
    have := hs e.1
    rw [hget e he] at this
    exact (List.pairwise_map.mpr (this.imp fun h => by omega))
  · have hk : m.entries.Pairwise fun e e' => e.1 ≠ e'.1 := List.pairwise_map.mp m.nodupKeys
    refine hk.imp_of_mem ?_
    intro e e' he he' hne
    simp only [Function.onFun, List.disjoint_left, List.mem_map]
    rintro id ⟨a, ha, rfl⟩ ⟨c, hc, hac⟩
    exact hne (hi e.1 e'.1 a (by rw [hget e he]; exact ha) c (by rw [hget e' he']; exact hc)
      hac.symm)

/-- No id occurs twice in the book. -/
theorem ids_nodup {b : Book} (hb : b.WF) : (b.orders.map Order.id).Nodup := by
  have hmap : b.orders.map Order.id = b.nodes.map (·.order.id) := by
    simp [Book.orders, List.map_map, Function.comp_def]
  rw [hmap, Book.nodes, List.map_append, List.nodup_append]
  refine ⟨queueMap_ids_nodup (fun i => hb.sorted ⟨.buy, i⟩) ?_,
    queueMap_ids_nodup (fun i => hb.sorted ⟨.sell, i⟩) ?_, ?_⟩
  · intro i i' a ha c hc hid
    exact congrArg QueueId.instrument (hb.id_queue ⟨.buy, i⟩ ⟨.buy, i'⟩ a ha c hc hid)
  · intro i i' a ha c hc hid
    exact congrArg QueueId.instrument (hb.id_queue ⟨.sell, i⟩ ⟨.sell, i'⟩ a ha c hc hid)
  · intro id hbuy id' hsell heq
    simp only [List.mem_map, Tables.mem_flatMap_iff_lookup] at hbuy hsell
    obtain ⟨a, ⟨i, ha⟩, rfl⟩ := hbuy
    obtain ⟨c, ⟨i', hc⟩, rfl⟩ := hsell
    have := congrArg QueueId.side (hb.id_queue ⟨.buy, i⟩ ⟨.sell, i'⟩ a ha c hc heq)
    cases this

/-- The index has one entry per resting order. -/
theorem restingOrderCount_eq {b : Book} (hb : b.WF) :
    b.restingOrderCount = b.orders.length := by
  have hperm : (b.index.entries.map Sigma.fst).Perm (b.orders.map Order.id) := by
    refine (List.perm_ext_iff_of_nodup b.index.nodupKeys (ids_nodup hb)).mpr fun id => ?_
    show id ∈ b.index.entries.map Sigma.fst ↔ _
    rw [List.mem_map, List.mem_map]
    simp only [mem_orders]
    constructor
    · rintro ⟨e, he, rfl⟩
      obtain ⟨n, hn, _, hid, _⟩ := deref_of_lookup hb (AList.mem_lookup_iff.mpr he)
      exact ⟨n.order, ⟨_, n, hn, rfl⟩, hid⟩
    · rintro ⟨o, ⟨q, n, hn, rfl⟩, rfl⟩
      exact ⟨_, AList.mem_lookup_iff.mp (lookup_of_mem hb hn), rfl⟩
  have := hperm.length_eq
  simpa [Book.restingOrderCount] using this
/-! ## The index and the queues agree -/

/-- `index_` and the queues describe the same orders. -/
structure Book.Agrees (b : Book) : Prop where
  /-- An id is filed exactly when one order with that id is in the book. -/
  filed_iff : ∀ id, (b.index.lookup id).isSome ↔ ∃! o, o ∈ b.orders ∧ o.id = id
  /-- A location is the queue and the node of the order filed under it. -/
  location : ∀ id loc, b.index.lookup id = some loc ↔
    ∃ n ∈ b.queue loc.queue, n.addr = loc.it ∧ n.order.id = id
  /-- A node's address names it among all nodes. -/
  address : ∀ q q', ∀ m ∈ b.queue q, ∀ n ∈ b.queue q', m.addr = n.addr → q = q' ∧ m = n
  ids_nodup : (b.orders.map Order.id).Nodup
  own_queue : ∀ q, ∀ n ∈ b.queue q,
    n.order.side = q.side ∧ n.order.instrument = q.instrument
  quantity_pos : ∀ o ∈ b.orders, 0 < o.quantity
  id_lt : ∀ o ∈ b.orders, o.id < b.nextOrderId
  count : b.restingOrderCount = b.orders.length
  /-- The lookup of `cancel_order` finds the order it was asked for. -/
  cancel_deref : ∀ id loc, b.index.lookup id = some loc →
    ∃ n, b.deref loc = some n ∧ n.order.id = id
  /-- Every lookup of `remove_orders_of` finds its order, at the moment it is
  made. -/
  remove_deref : ∀ (order : HashOrder) fd before entry after,
    order.walk b.index.entries = before ++ entry :: after →
    ∃ n, (Loop.run (Book.removeEntry fd) b before).deref entry.2 = some n ∧
      n.order.id = entry.1

theorem Book.WF.agrees {b : Book} (hb : b.WF) : b.Agrees where
  filed_iff := by
    intro id
    constructor
    · intro h
      obtain ⟨loc, hloc⟩ := Option.isSome_iff_exists.mp h
      obtain ⟨n, hn, _, hid, _⟩ := deref_of_lookup hb hloc
      refine ⟨n.order, ⟨mem_orders.mpr ⟨_, n, hn, rfl⟩, hid⟩, ?_⟩
      rintro o ⟨ho, hoid⟩
      obtain ⟨q, m, hm, rfl⟩ := mem_orders.mp ho
      rw [hb.eq_of_id hm hn (hoid.trans hid.symm)]
    · rintro ⟨o, ⟨ho, rfl⟩, _⟩
      obtain ⟨q, n, hn, rfl⟩ := mem_orders.mp ho
      rw [lookup_of_mem hb hn]
      rfl
  location := hb.indexOk
  address := by
    intro q q' m hm n hn ha
    exact ⟨hb.id_queue q q' m hm n hn (hb.addr_id q q' m hm n hn ha), hb.eq_of_addr hm hn ha⟩
  ids_nodup := ids_nodup hb
  own_queue := hb.own
  quantity_pos := by
    intro o ho
    obtain ⟨q, n, hn, rfl⟩ := mem_orders.mp ho
    exact hb.quantity_pos q n hn
  id_lt := by
    intro o ho
    obtain ⟨q, n, hn, rfl⟩ := mem_orders.mp ho
    exact hb.id_lt q n hn
  count := restingOrderCount_eq hb
  cancel_deref := by
    intro id loc h
    obtain ⟨n, _, _, hid, hderef⟩ := deref_of_lookup hb h
    exact ⟨n, hderef, hid⟩
  remove_deref := by
    intro order fd before entry after hwalk
    exact removeWalk_deref order hb fd hwalk

/-- **The index and the queues agree in every reachable book**, and the id
counter has not left the range of `long`. -/
theorem index_agrees_with_queues (order : HashOrder) (ops : List Op)
    (hlen : ops.length < 2 ^ 63 - 1) :
    (bookAfter order ops).Agrees ∧ (bookAfter order ops).nextOrderId < 2 ^ 63 := by
  refine ⟨(bookAfter_wf order ops).agrees, ?_⟩
  have := bookAfter_nextOrderId_le order ops
  omega

/-- A book with one order filled, one resting and one cancelled. -/
theorem index_agrees_with_queues_sample :
    ∃ b, b = bookAfter .stored
        [.addOrder 5 (ascii "JNST") .sell 10 100, .addOrder 6 (ascii "JNST") .buy 4 100,
          .addOrder 6 (ascii "IMCT") .buy 3 50, .cancelOrder 3 6] ∧
      b.Agrees ∧ b.nextOrderId < 2 ^ 63 ∧ b.restingOrderCount = 1 := by
  refine ⟨_, rfl, ?_⟩
  have h := index_agrees_with_queues .stored
    [.addOrder 5 (ascii "JNST") .sell 10 100, .addOrder 6 (ascii "JNST") .buy 4 100,
      .addOrder 6 (ascii "IMCT") .buy 3 50, .cancelOrder 3 6] (by decide)
  exact ⟨h.1, h.2, by decide⟩

/-! ## The book is never crossed -/

theorem opposite_opposite (s : Side) : s.opposite.opposite = s := by cases s <;> rfl

/-- No price of an instrument is both bid and offered. -/
def Book.Uncrossed (b : Book) : Prop :=
  ∀ s i, ∀ m ∈ b.queue ⟨s, i⟩, ∀ n ∈ b.queue ⟨s.opposite, i⟩, m.order.price ≠ n.order.price

theorem Shrunk.uncrossed {b b' : Book} (h : Shrunk b b') (hb : b.Uncrossed) :
    b'.Uncrossed := by
  intro s i m hm n hn
  obtain ⟨m', hm', hkm⟩ := h.origin hm
  obtain ⟨n', hn', hkn⟩ := h.origin hn
  rw [← price_of_key hkm, ← price_of_key hkn]
  exact hb s i m' hm' n' hn'

/-- An order left by matching was there before. -/
theorem matchNodes_origin {price remaining : Int} {nodes : List Node}
    (hpos : ∀ n ∈ nodes, 0 < n.order.quantity)
    (hs : nodes.Pairwise fun m n => m.order.id < n.order.id) {n : Node}
    (hn : n ∈ (matchNodes price remaining nodes).queue) : ∃ m ∈ nodes, m.key = n.key := by
  rw [matchNodes_queue price nodes remaining hpos hs, List.mem_filterMap] at hn
  obtain ⟨m, hm, hsettle⟩ := hn
  refine ⟨m, hm, ?_⟩
  unfold settle at hsettle
  split at hsettle
  · cases hsettle
  · cases hsettle
    rfl

theorem addOrder_uncrossed {b : Book} (hb : b.WF) (hu : b.Uncrossed) (ownerFd : Int)
    (instrument : Bytes) (side : Side) (quantity price : Int) :
    (b.addOrder ownerFd instrument side quantity price).book.Uncrossed := by
  -- it is enough to compare the own queue with the opposite one
  have hkey : ∀ m ∈ (b.addOrder ownerFd instrument side quantity price).book.queue
        ⟨side, instrument⟩,
      ∀ n ∈ (b.addOrder ownerFd instrument side quantity price).book.queue
        ⟨side.opposite, instrument⟩, m.order.price ≠ n.order.price := by
    intro m hm n hn
    have hne : (⟨side, instrument⟩ : QueueId) ≠ ⟨side.opposite, instrument⟩ := fun h =>
      opposite_ne side (congrArg QueueId.side h).symm
    rw [addOrder_queue, if_neg hne, if_pos rfl, List.mem_append] at hm
    rw [addOrder_queue, if_pos rfl] at hn
    rcases hm with hm | hm
    · obtain ⟨n', hn', hk⟩ := matchNodes_origin (hb.quantity_pos _) (hb.sorted _) hn
      rw [← price_of_key hk]
      exact hu side instrument m hm n' hn'
    · unfold restNodes at hm
      split at hm
      · next hrem =>
        rw [List.mem_singleton] at hm
        subst hm
        exact (matchNodes_exhausted _ _ _ hrem n hn).symm
      · cases hm
  intro s i m hm n hn
  by_cases hi : i = instrument
  · subst hi
    by_cases hs : s = side
    · subst hs
      exact hkey m hm n hn
    · have hs' : s = side.opposite := by
        revert hs
        cases s <;> cases side <;> decide
      subst hs'
      rw [opposite_opposite] at hn
      exact (hkey n hn m hm).symm
  · have hother : ∀ t : Side, (b.addOrder ownerFd instrument side quantity price).book.queue
        ⟨t, i⟩ = b.queue ⟨t, i⟩ := by
      intro t
      rw [addOrder_queue, if_neg (fun h => hi (congrArg QueueId.instrument h)),
        if_neg (fun h => hi (congrArg QueueId.instrument h))]
    rw [hother] at hm hn
    exact hu s i m hm n hn

theorem bookAfter_uncrossed (order : HashOrder) (ops : List Op) :
    (bookAfter order ops).Uncrossed := by
  have hstart : Book.empty.WF ∧ Book.empty.Uncrossed :=
    ⟨wf_empty, fun s i m hm => by rw [queue_empty] at hm; cases hm⟩
  refine (Loop.run_invariant (I := fun b : Book => b.WF ∧ b.Uncrossed) (P := fun _ => True) ?_
    hstart (fun _ _ => trivial)).2
  rintro b op - ⟨hb, hu⟩
  refine ⟨apply_wf order hb op, ?_⟩
  cases op with
  | addOrder ownerFd instrument side quantity price =>
      exact addOrder_uncrossed hb hu ownerFd instrument side quantity price
  | cancelOrder orderId requesterFd =>
      exact (cancelOrder_shrunk hb orderId requesterFd).uncrossed hu
  | removeOrdersOf ownerFd =>
      exact ((removeOrdersOf_kept order hb ownerFd).shrunk hb).uncrossed hu

/-- **The book is never left crossed.** -/
theorem never_crossed (order : HashOrder) (ops : List Op) (instrument : Bytes)
    (price : Int) :
    ¬ ((∃ o ∈ (bookAfter order ops).orders,
          o.side = .buy ∧ o.instrument = instrument ∧ o.price = price) ∧
        ∃ o ∈ (bookAfter order ops).orders,
          o.side = .sell ∧ o.instrument = instrument ∧ o.price = price) := by
  rintro ⟨⟨o, ho, hside, hinst, hprice⟩, ⟨o', ho', hside', hinst', hprice'⟩⟩
  obtain ⟨q, n, hn, rfl⟩ := mem_orders.mp ho
  obtain ⟨q', n', hn', rfl⟩ := mem_orders.mp ho'
  have hb := bookAfter_wf order ops
  have hq : q = ⟨.buy, instrument⟩ := by rw [hb.queue_eq hn, hside, hinst]
  have hq' : q' = ⟨.sell, instrument⟩ := by rw [hb.queue_eq hn', hside', hinst']
  rw [hq] at hn
  rw [hq'] at hn'
  exact bookAfter_uncrossed order ops .buy instrument n hn n' hn' (hprice.trans hprice'.symm)

end SocketExchange.Trading.OrderBook
