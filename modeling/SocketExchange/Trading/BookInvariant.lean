import SocketExchange.Trading.OrderBook

/-!
# The invariant of the order book

`Book.WF` says that the queues and the index describe the same set of orders.
Operations are not checked against its eight fields one by one.  Instead there
are two relations between a book and its successor:

* `Shrunk b b'`: orders of `b` were erased or reduced, nothing was added.
  Every field of `WF` but two is about the immutable part of an order
  (`Node.key`) and is inherited along a sublist, so `Shrunk` carries `WF`.
* `Kept keep b b'`: exactly the orders failing `keep` were erased.

`erase_at`, `cancel_order` and `remove_orders_of` are instances of `Kept`, each
pass of the matching loop is an instance of `Shrunk`, and only the push of a
remainder has to look at the fields.
-/

namespace SocketExchange.Trading.OrderBook

open SocketExchange.Lib
open SocketExchange.Lib.Bytes

/-! ## Reading and writing queues -/

@[simp] theorem setQueue_index (b : Book) (q : QueueId) (l : List Node) :
    (b.setQueue q l).index = b.index := by
  unfold Book.setQueue; split <;> rfl

@[simp] theorem setQueue_nextOrderId (b : Book) (q : QueueId) (l : List Node) :
    (b.setQueue q l).nextOrderId = b.nextOrderId := by
  unfold Book.setQueue; split <;> rfl

@[simp] theorem setQueue_nextAddr (b : Book) (q : QueueId) (l : List Node) :
    (b.setQueue q l).nextAddr = b.nextAddr := by
  unfold Book.setQueue; split <;> rfl

theorem queue_setQueue (b : Book) (q q' : QueueId) (l : List Node) :
    (b.setQueue q l).queue q' = if q' = q then l else b.queue q' := by
  obtain ⟨side, instrument⟩ := q
  obtain ⟨side', instrument'⟩ := q'
  by_cases hi : instrument' = instrument
  · subst hi
    cases side <;> cases side' <;>
      simp [Book.setQueue, Book.queue, AList.lookup_insert]
  · cases side <;> cases side' <;>
      simp [Book.setQueue, Book.queue, AList.lookup_insert_ne hi, hi]

/-- The index of a book does not enter its queues. -/
@[simp] theorem queue_withIndex (b : Book) (index : Index) (q : QueueId) :
    ({ b with index := index } : Book).queue q = b.queue q := rfl

/-! ## The invariant -/

/-- The index lists exactly the orders that are in the queues, each at the
queue and the node where it is. -/
def Book.IndexOk (b : Book) : Prop :=
  ∀ id loc, b.index.lookup id = some loc ↔
    ∃ n ∈ b.queue loc.queue, n.addr = loc.it ∧ n.order.id = id

structure Book.WF (b : Book) : Prop where
  own : ∀ q, ∀ n ∈ b.queue q, n.order.side = q.side ∧ n.order.instrument = q.instrument
  quantity_pos : ∀ q, ∀ n ∈ b.queue q, 0 < n.order.quantity
  id_lt : ∀ q, ∀ n ∈ b.queue q, n.order.id < b.nextOrderId
  addr_lt : ∀ q, ∀ n ∈ b.queue q, n.addr < b.nextAddr
  sorted : ∀ q, (b.queue q).Pairwise fun m n => m.order.id < n.order.id
  id_queue : ∀ q q', ∀ m ∈ b.queue q, ∀ n ∈ b.queue q', m.order.id = n.order.id → q = q'
  addr_id : ∀ q q', ∀ m ∈ b.queue q, ∀ n ∈ b.queue q', m.addr = n.addr →
    m.order.id = n.order.id
  indexOk : b.IndexOk

@[simp] theorem queue_empty (q : QueueId) : Book.empty.queue q = [] := by
  cases h : q.side <;> simp [Book.queue, Book.empty, h]

theorem wf_empty : Book.empty.WF where
  own := by simp
  quantity_pos := by simp
  id_lt := by simp
  addr_lt := by simp
  sorted := by simp
  id_queue := by simp
  addr_id := by simp
  indexOk := by
    intro id loc
    simp [Book.empty, Book.queue]
    cases loc.queue.side <;> simp

/-- Within one queue the id determines the node. -/
private theorem eq_of_id_of_sorted {l : List Node}
    (hs : l.Pairwise fun m n => m.order.id < n.order.id) {m n : Node}
    (hm : m ∈ l) (hn : n ∈ l) (hid : m.order.id = n.order.id) : m = n := by
  induction l with
  | nil => cases hm
  | cons x l ih =>
      rw [List.pairwise_cons] at hs
      rcases List.mem_cons.mp hm with rfl | hm <;>
        rcases List.mem_cons.mp hn with rfl | hn
      · rfl
      · have := hs.1 n hn
        omega
      · have := hs.1 m ‹m ∈ l›
        omega
      · exact ih hs.2 ‹m ∈ l› ‹n ∈ l›

theorem Book.WF.eq_of_id {b : Book} (h : b.WF) {q q' : QueueId} {m n : Node}
    (hm : m ∈ b.queue q) (hn : n ∈ b.queue q')
    (hid : m.order.id = n.order.id) : m = n := by
  obtain rfl := h.id_queue q q' m hm n hn hid
  exact eq_of_id_of_sorted (h.sorted q) hm hn hid

theorem Book.WF.eq_of_addr {b : Book} (h : b.WF) {q q' : QueueId} {m n : Node}
    (hm : m ∈ b.queue q) (hn : n ∈ b.queue q') (ha : m.addr = n.addr) : m = n :=
  h.eq_of_id hm hn (h.addr_id q q' m hm n hn ha)

/-- A node's queue is the one its order names. -/
theorem Book.WF.queue_eq {b : Book} (h : b.WF) {q : QueueId} {n : Node}
    (hn : n ∈ b.queue q) : q = ⟨n.order.side, n.order.instrument⟩ := by
  obtain ⟨hs, hi⟩ := h.own q n hn
  rw [hs, hi]

/-- Assigning an id keeps the invariant. -/
theorem Book.WF.bump {b : Book} (h : b.WF) :
    ({ b with nextOrderId := b.nextOrderId + 1 } : Book).WF where
  own := h.own
  quantity_pos := h.quantity_pos
  id_lt := fun q n hn => by
    have := h.id_lt q n hn
    show n.order.id < b.nextOrderId + 1
    omega
  addr_lt := h.addr_lt
  sorted := h.sorted
  id_queue := h.id_queue
  addr_id := h.addr_id
  indexOk := h.indexOk

/-! ## Shrinking a book -/

/-- The part of a node that no operation changes. -/
def Node.key (n : Node) : Node :=
  { n with order := { n.order with quantity := 0 } }

@[simp] theorem key_reduce (n : Node) (traded : Int) :
    (n.reduce traded).key = n.key := rfl

theorem addr_of_key {m n : Node} (h : m.key = n.key) : m.addr = n.addr := by
  have h' : m.key.addr = n.key.addr := by rw [h]
  exact h'

theorem id_of_key {m n : Node} (h : m.key = n.key) : m.order.id = n.order.id := by
  have h' : m.key.order.id = n.key.order.id := by rw [h]
  exact h'

theorem owner_of_key {m n : Node} (h : m.key = n.key) :
    m.order.ownerFd = n.order.ownerFd := by
  have h' : m.key.order.ownerFd = n.key.order.ownerFd := by rw [h]
  exact h'

theorem side_of_key {m n : Node} (h : m.key = n.key) : m.order.side = n.order.side := by
  have h' : m.key.order.side = n.key.order.side := by rw [h]
  exact h'

theorem instrument_of_key {m n : Node} (h : m.key = n.key) :
    m.order.instrument = n.order.instrument := by
  have h' : m.key.order.instrument = n.key.order.instrument := by rw [h]
  exact h'

theorem price_of_key {m n : Node} (h : m.key = n.key) : m.order.price = n.order.price := by
  have h' : m.key.order.price = n.key.order.price := by rw [h]
  exact h'

/-- Some orders of `b` were erased or reduced; none was added or moved. -/
structure Shrunk (b b' : Book) : Prop where
  keys : ∀ q, ((b'.queue q).map Node.key).Sublist ((b.queue q).map Node.key)
  quantity_pos : ∀ q, ∀ n ∈ b'.queue q, 0 < n.order.quantity
  indexOk : b'.IndexOk
  nextOrderId : b'.nextOrderId = b.nextOrderId
  nextAddr : b'.nextAddr = b.nextAddr

theorem Shrunk.refl {b : Book} (h : b.WF) : Shrunk b b where
  keys := fun _ => List.Sublist.refl _
  quantity_pos := h.quantity_pos
  indexOk := h.indexOk
  nextOrderId := rfl
  nextAddr := rfl

theorem Shrunk.trans {b b' b'' : Book} (h : Shrunk b b') (h' : Shrunk b' b'') :
    Shrunk b b'' where
  keys := fun q => (h'.keys q).trans (h.keys q)
  quantity_pos := h'.quantity_pos
  indexOk := h'.indexOk
  nextOrderId := h'.nextOrderId.trans h.nextOrderId
  nextAddr := h'.nextAddr.trans h.nextAddr

/-- Every order left was there before, with the same immutable part. -/
theorem Shrunk.origin {b b' : Book} (h : Shrunk b b') {q : QueueId} {n : Node}
    (hn : n ∈ b'.queue q) : ∃ m ∈ b.queue q, m.key = n.key := by
  have hmem : n.key ∈ (b.queue q).map Node.key :=
    (h.keys q).subset (List.mem_map_of_mem hn)
  obtain ⟨m, hm, hk⟩ := List.mem_map.mp hmem
  exact ⟨m, hm, hk⟩

private theorem pairwise_id_iff (l : List Node) :
    (l.Pairwise fun m n => m.order.id < n.order.id) ↔
      (l.map Node.key).Pairwise fun m n => m.order.id < n.order.id := by
  rw [List.pairwise_map]
  rfl

theorem Shrunk.wf {b b' : Book} (h : Shrunk b b') (hb : b.WF) : b'.WF where
  own := by
    intro q n hn
    obtain ⟨m, hm, hk⟩ := h.origin hn
    obtain ⟨hs, hi⟩ := hb.own q m hm
    exact ⟨(side_of_key hk).symm.trans hs, (instrument_of_key hk).symm.trans hi⟩
  quantity_pos := h.quantity_pos
  id_lt := by
    intro q n hn
    obtain ⟨m, hm, hk⟩ := h.origin hn
    rw [h.nextOrderId, ← id_of_key hk]
    exact hb.id_lt q m hm
  addr_lt := by
    intro q n hn
    obtain ⟨m, hm, hk⟩ := h.origin hn
    rw [h.nextAddr, ← addr_of_key hk]
    exact hb.addr_lt q m hm
  sorted := by
    intro q
    rw [pairwise_id_iff]
    exact ((pairwise_id_iff _).mp (hb.sorted q)).sublist (h.keys q)
  id_queue := by
    intro q q' m hm n hn hid
    obtain ⟨m', hm', hkm⟩ := h.origin hm
    obtain ⟨n', hn', hkn⟩ := h.origin hn
    refine hb.id_queue q q' m' hm' n' hn' ?_
    rw [id_of_key hkm, id_of_key hkn, hid]
  addr_id := by
    intro q q' m hm n hn ha
    obtain ⟨m', hm', hkm⟩ := h.origin hm
    obtain ⟨n', hn', hkn⟩ := h.origin hn
    rw [← id_of_key hkm, ← id_of_key hkn]
    refine hb.addr_id q q' m' hm' n' hn' ?_
    rw [addr_of_key hkm, addr_of_key hkn, ha]
  indexOk := h.indexOk

/-- Exactly the orders that fail `keep` were erased. -/
structure Kept (keep : Order → Bool) (b b' : Book) : Prop where
  queue : ∀ q, b'.queue q = (b.queue q).filter fun n => keep n.order
  indexOk : b'.IndexOk
  nextOrderId : b'.nextOrderId = b.nextOrderId
  nextAddr : b'.nextAddr = b.nextAddr

theorem Kept.shrunk {keep : Order → Bool} {b b' : Book} (h : Kept keep b b')
    (hb : b.WF) : Shrunk b b' where
  keys := fun q => by
    rw [h.queue q]
    exact List.filter_sublist.map Node.key
  quantity_pos := fun q n hn => by
    rw [h.queue q] at hn
    exact hb.quantity_pos q n (List.mem_of_mem_filter hn)
  indexOk := h.indexOk
  nextOrderId := h.nextOrderId
  nextAddr := h.nextAddr

theorem Kept.trans {keep keep' : Order → Bool} {b b' b'' : Book}
    (h : Kept keep b b') (h' : Kept keep' b' b'') :
    Kept (fun o => keep o && keep' o) b b'' where
  queue := fun q => by
    rw [h'.queue q, h.queue q, List.filter_filter]
    simp only [Bool.and_comm]
  indexOk := h'.indexOk
  nextOrderId := h'.nextOrderId.trans h.nextOrderId
  nextAddr := h'.nextAddr.trans h.nextAddr

theorem Kept.mem {keep : Order → Bool} {b b' : Book} (h : Kept keep b b')
    {q : QueueId} {n : Node} :
    n ∈ b'.queue q ↔ n ∈ b.queue q ∧ keep n.order = true := by
  rw [h.queue q, List.mem_filter]

/-- Dropping the entry of the order that leaves the queues keeps the index
exact. -/
theorem indexOk_erase {b b' : Book} (hb : b.IndexOk) {gone : Int}
    (hindex : b'.index = b.index.erase gone)
    (hqueue : ∀ q, b'.queue q =
      (b.queue q).filter fun m => decide (m.order.id ≠ gone)) :
    b'.IndexOk := by
  intro id loc
  rw [hindex, hqueue]
  by_cases hid : id = gone
  · subst hid
    rw [AList.lookup_erase]
    constructor
    · intro h; cases h
    · rintro ⟨m, hm, _, hmid⟩
      simp only [List.mem_filter, decide_eq_true_eq] at hm
      exact absurd hmid hm.2
  · rw [AList.lookup_erase_ne hid, hb id loc]
    constructor
    · rintro ⟨m, hm, ha, hmid⟩
      refine ⟨m, ?_, ha, hmid⟩
      simp only [List.mem_filter, decide_eq_true_eq]
      exact ⟨hm, by rw [hmid]; exact hid⟩
    · rintro ⟨m, hm, ha, hmid⟩
      exact ⟨m, List.mem_of_mem_filter hm, ha, hmid⟩

/-! ## Erasing one order -/

/-- Erasing by address and erasing by id are the same on a well-formed book. -/
private theorem eraseNode_eq_filter {b : Book} (hb : b.WF) {q : QueueId} {n : Node}
    (hn : n ∈ b.queue q) :
    eraseNode n.addr (b.queue q) =
      (b.queue q).filter fun m => decide (m.order.id ≠ n.order.id) := by
  refine List.filter_congr fun m hm => ?_
  rw [decide_eq_decide]
  constructor
  · intro ha hid
    exact ha (addr_of_key (congrArg Node.key (hb.eq_of_id hm hn hid)))
  · intro hid ha
    exact hid (hb.addr_id q q m hm n hn ha)

private theorem filter_other_queue {b : Book} (hb : b.WF) {q q' : QueueId} {n : Node}
    (hn : n ∈ b.queue q) (hq : q' ≠ q) :
    (b.queue q').filter (fun m => decide (m.order.id ≠ n.order.id)) = b.queue q' := by
  rw [List.filter_eq_self]
  intro m hm
  rw [decide_eq_true_eq]
  exact fun hid => hq (hb.id_queue q' q m hm n hn hid)

/-- A queue update that drops one order drops it from the whole book. -/
theorem kept_of_queue {b b' : Book} (hb : b.WF) {q : QueueId} {n : Node}
    (hn : n ∈ b.queue q) {l : List Node}
    (hl : l = (b.queue q).filter fun m => decide (m.order.id ≠ n.order.id))
    (hqueue : ∀ q', b'.queue q' = if q' = q then l else b.queue q')
    (hindex : b'.index = b.index.erase n.order.id)
    (hid : b'.nextOrderId = b.nextOrderId) (haddr : b'.nextAddr = b.nextAddr) :
    Kept (fun o => decide (o.id ≠ n.order.id)) b b' := by
  have hfilter : ∀ q', b'.queue q' =
      (b.queue q').filter fun m => decide (m.order.id ≠ n.order.id) := by
    intro q'
    rw [hqueue]
    split
    · next h => rw [h, hl]
    · next h => exact (filter_other_queue hb hn h).symm
  exact
    { queue := hfilter
      indexOk := indexOk_erase hb.indexOk hindex hfilter
      nextOrderId := hid
      nextAddr := haddr }

theorem eraseAt_kept {b : Book} (hb : b.WF) {q : QueueId} {n : Node}
    (hn : n ∈ b.queue q) :
    Kept (fun o => decide (o.id ≠ n.order.id)) b (b.eraseAt n.order.id ⟨q, n.addr⟩) :=
  kept_of_queue hb hn (eraseNode_eq_filter hb hn)
    (fun q' => by
      simp only [Book.eraseAt, Book.eraseFromQueue, queue_withIndex, queue_setQueue])
    (by simp [Book.eraseAt, Book.eraseFromQueue])
    (by simp [Book.eraseAt, Book.eraseFromQueue])
    (by simp [Book.eraseAt, Book.eraseFromQueue])

/-! ## Following a location -/

theorem deref_of_mem {b : Book} (hb : b.WF) {q : QueueId} {n : Node}
    (hn : n ∈ b.queue q) : b.deref ⟨q, n.addr⟩ = some n := by
  unfold Book.deref
  cases hf : (b.queue q).find? fun m => decide (m.addr = n.addr) with
  | none =>
      have := List.find?_eq_none.mp hf n hn
      simp at this
  | some m =>
      have hm := List.mem_of_find?_eq_some hf
      have ha := List.find?_some hf
      simp only [decide_eq_true_eq] at ha
      rw [hb.eq_of_addr hm hn ha]

/-- **No dangling location.**  Every location in the index leads to a node of
the order it is filed under. -/
theorem deref_of_lookup {b : Book} (hb : b.WF) {id : Int} {loc : Location}
    (h : b.index.lookup id = some loc) :
    ∃ n ∈ b.queue loc.queue, loc = ⟨loc.queue, n.addr⟩ ∧ n.order.id = id ∧
      b.deref loc = some n := by
  obtain ⟨n, hn, ha, hid⟩ := (hb.indexOk id loc).mp h
  have hloc : loc = ⟨loc.queue, n.addr⟩ := by rw [ha]
  refine ⟨n, hn, hloc, hid, ?_⟩
  rw [hloc]
  exact deref_of_mem hb hn

theorem lookup_of_mem {b : Book} (hb : b.WF) {q : QueueId} {n : Node}
    (hn : n ∈ b.queue q) : b.index.lookup n.order.id = some ⟨q, n.addr⟩ :=
  (hb.indexOk _ _).mpr ⟨n, hn, rfl, rfl⟩

/-! ## `cancel_order` -/

/-- **What a cancel can do.**  It succeeds on the requester's own resting order
and erases exactly that one; otherwise it leaves the book alone. -/
theorem cancelOrder_cases {b : Book} (hb : b.WF) (id fd : Int) :
    ((b.cancelOrder id fd).ok = false ∧ (b.cancelOrder id fd).book = b ∧
      ∀ q, ∀ n ∈ b.queue q, n.order.id = id → n.order.ownerFd ≠ fd) ∨
    ((b.cancelOrder id fd).ok = true ∧
      (∃ q, ∃ n ∈ b.queue q, n.order.id = id ∧ n.order.ownerFd = fd) ∧
      Kept (fun o => decide (o.id ≠ id)) b (b.cancelOrder id fd).book) := by
  unfold Book.cancelOrder
  split
  · next hnone =>
    refine Or.inl ⟨rfl, rfl, fun q n hn hid => ?_⟩
    rw [← hid, lookup_of_mem hb hn] at hnone
    cases hnone
  · next loc hsome =>
    obtain ⟨n, hn, hloc, hid, hderef⟩ := deref_of_lookup hb hsome
    split
    · next howner =>
      refine Or.inl ⟨rfl, rfl, fun q m hm hmid hfd => howner ?_⟩
      rw [hderef, ← hb.eq_of_id hm hn (hmid.trans hid.symm), ← hfd]
      rfl
    · next howner =>
      have hfd : n.order.ownerFd = fd := by
        rw [hderef] at howner
        simpa using howner
      refine Or.inr ⟨rfl, ⟨loc.queue, n, hn, hid, hfd⟩, ?_⟩
      rw [hloc, ← hid]
      exact eraseAt_kept hb hn

theorem cancelOrder_shrunk {b : Book} (hb : b.WF) (id fd : Int) :
    Shrunk b (b.cancelOrder id fd).book := by
  rcases cancelOrder_cases hb id fd with ⟨_, hbook, _⟩ | ⟨_, _, hkept⟩
  · rw [hbook]; exact Shrunk.refl hb
  · exact hkept.shrunk hb

/-! ## `remove_orders_of` -/

/-- What one pass of the removal loop leaves. -/
private def keepUnless (fd : Int) (ids : List Int) (o : Order) : Bool :=
  !(decide (o.ownerFd = fd) && decide (o.id ∈ ids))

theorem kept_refl {b : Book} (hb : b.WF) : Kept (fun _ => true) b b where
  queue := fun q => by simp
  indexOk := hb.indexOk
  nextOrderId := rfl
  nextAddr := rfl

theorem Kept.congr {keep keep' : Order → Bool} {b b' : Book} (h : Kept keep b b')
    (hk : ∀ q, ∀ n ∈ b.queue q, keep n.order = keep' n.order) : Kept keep' b b' where
  queue := fun q => by
    rw [h.queue q]
    exact List.filter_congr fun n hn => hk q n hn
  indexOk := h.indexOk
  nextOrderId := h.nextOrderId
  nextAddr := h.nextAddr

/-- One pass over an entry whose order is still there. -/
private theorem removeEntry_kept {b : Book} (hb : b.WF) (fd : Int)
    {entry : Sigma fun _ : Int => Location}
    (h : b.index.lookup entry.1 = some entry.2) :
    Kept (keepUnless fd [entry.1]) b (b.removeEntry fd entry) := by
  obtain ⟨n, hn, hloc, hid, hderef⟩ := deref_of_lookup hb h
  unfold Book.removeEntry
  split
  · next howner =>
    rw [hderef] at howner
    have hfd : n.order.ownerFd = fd := by simpa using howner
    rw [hloc, ← hid]
    refine (eraseAt_kept hb hn).congr fun q m hm => ?_
    by_cases hmid : m.order.id = n.order.id
    · simp [keepUnless, hb.eq_of_id hm hn hmid, hfd]
    · simp [keepUnless, hmid]
  · next howner =>
    rw [hderef] at howner
    have hfd : n.order.ownerFd ≠ fd := by simpa using howner
    refine (kept_refl hb).congr fun q m hm => ?_
    by_cases hmid : m.order.id = entry.1
    · have : m = n := hb.eq_of_id hm hn (hmid.trans hid.symm)
      simp [keepUnless, this, hfd]
    · simp [keepUnless, hmid]

/-- The loop over any list of distinct entries of the index. -/
private theorem removeWalk_kept (fd : Int) :
    ∀ (entries : List (Sigma fun _ : Int => Location)) (b : Book), b.WF →
      (entries.map Sigma.fst).Nodup →
      (∀ e ∈ entries, b.index.lookup e.1 = some e.2) →
      Kept (keepUnless fd (entries.map Sigma.fst)) b
        (Loop.run (Book.removeEntry fd) b entries) := by
  intro entries
  induction entries with
  | nil =>
      intro b hb _ _
      exact (kept_refl hb).congr fun q n _ => by simp [keepUnless]
  | cons e entries ih =>
      intro b hb hnodup hlookup
      rw [List.map_cons, List.nodup_cons] at hnodup
      have hhead := removeEntry_kept hb fd (hlookup e (by simp))
      have hwf := (hhead.shrunk hb).wf hb
      -- the other entries still lead to their orders
      have hrest : ∀ e' ∈ entries, (b.removeEntry fd e).index.lookup e'.1 = some e'.2 := by
        intro e' he'
        have hne : e'.1 ≠ e.1 := by
          intro h
          exact hnodup.1 (h ▸ List.mem_map_of_mem he')
        obtain ⟨n, hn, ha, hid⟩ := (hb.indexOk _ _).mp (hlookup e' (by simp [he']))
        refine (hhead.indexOk _ _).mpr ⟨n, hhead.mem.mpr ⟨hn, ?_⟩, ha, hid⟩
        simp [keepUnless, hid, hne]
      rw [Loop.run_cons]
      refine (hhead.trans (ih _ hwf hnodup.2 hrest)).congr fun q n _ => ?_
      by_cases hfd : n.order.ownerFd = fd
      · rw [Bool.eq_iff_iff]
        simp [keepUnless, hfd, List.mem_cons]
      · simp [keepUnless, hfd]

private theorem walk_nodup (order : HashOrder) (index : Index) :
    ((order.walk index.entries).map Sigma.fst).Nodup :=
  ((order.walk_perm index.entries).map Sigma.fst).nodup_iff.mpr index.nodupKeys

private theorem walk_lookup (order : HashOrder) (index : Index) :
    ∀ e ∈ order.walk index.entries, index.lookup e.1 = some e.2 := by
  intro e he
  rw [order.mem_walk] at he
  exact AList.mem_lookup_iff.mpr he

/-- **Removal is a filter**, whatever the order in which the index is walked. -/
theorem removeOrdersOf_kept (order : HashOrder) {b : Book} (hb : b.WF) (fd : Int) :
    Kept (fun o => decide (o.ownerFd ≠ fd)) b (b.removeOrdersOf order fd) := by
  refine (removeWalk_kept fd _ b hb (walk_nodup order b.index)
    (walk_lookup order b.index)).congr fun q n hn => ?_
  have hmem : n.order.id ∈ (order.walk b.index.entries).map Sigma.fst := by
    have h := AList.mem_lookup_iff.mp (lookup_of_mem hb hn)
    exact List.mem_map.mpr ⟨_, order.mem_walk.mpr h, rfl⟩
  simp [keepUnless, hmem]

/-- Each pass of the removal loop follows a location that is still valid. -/
theorem removeWalk_deref (order : HashOrder) {b : Book} (hb : b.WF) (fd : Int)
    {before after : List (Sigma fun _ : Int => Location)}
    {entry : Sigma fun _ : Int => Location}
    (hwalk : order.walk b.index.entries = before ++ entry :: after) :
    ∃ n, (Loop.run (Book.removeEntry fd) b before).deref entry.2 = some n ∧
      n.order.id = entry.1 := by
  have hnodup := walk_nodup order b.index
  have hlookup := walk_lookup order b.index
  rw [hwalk, List.map_append, List.map_cons, List.nodup_append] at hnodup
  rw [hwalk] at hlookup
  have hkept := removeWalk_kept fd before b hb hnodup.1
    (fun e he => hlookup e (by simp [he]))
  obtain ⟨n, hn, ha, hid⟩ := (hb.indexOk _ _).mp (hlookup entry (by simp))
  have hfresh : entry.1 ∉ before.map Sigma.fst := fun hmem =>
    hnodup.2.2 entry.1 hmem entry.1 (by simp) rfl
  have hn' := hkept.mem.mpr ⟨hn, by simp [keepUnless, hid, hfresh]⟩
  have hwf := (hkept.shrunk hb).wf hb
  refine ⟨n, ?_, hid⟩
  rw [show entry.2 = ⟨entry.2.queue, n.addr⟩ by rw [ha]]
  exact deref_of_mem hwf hn'

end SocketExchange.Trading.OrderBook
