import SocketExchange.Trading.Matching

/-!
# Books that cannot be told apart

`buys_`, `sells_` and `index_` are unordered maps, and `remove_orders_of` walks one
of them.  Two books that went through the same calls may have been walked in
different orders, so they are compared by what they hold: every queue with its
nodes, the entry of every id, and the counters.

Each operation gives the same answer on two such books and leaves two such books
behind; the order of a walk does not come into it.
-/

namespace SocketExchange.Trading.OrderBook

open SocketExchange.Lib.Bytes

/-- The two books hold the same orders in the same places. -/
structure SameBook (b b' : Book) : Prop where
  nextOrderId : b.nextOrderId = b'.nextOrderId
  nextAddr : b.nextAddr = b'.nextAddr
  queue : ∀ q, b.queue q = b'.queue q
  index : ∀ id, b.index.lookup id = b'.index.lookup id

theorem SameBook.refl (b : Book) : SameBook b b := ⟨rfl, rfl, fun _ => rfl, fun _ => rfl⟩

theorem SameBook.symm {b b' : Book} (h : SameBook b b') : SameBook b' b :=
  ⟨h.nextOrderId.symm, h.nextAddr.symm, fun q => (h.queue q).symm, fun id => (h.index id).symm⟩

theorem SameBook.trans {b b' b'' : Book} (h : SameBook b b') (h' : SameBook b' b'') :
    SameBook b b'' :=
  ⟨h.nextOrderId.trans h'.nextOrderId, h.nextAddr.trans h'.nextAddr,
    fun q => (h.queue q).trans (h'.queue q), fun id => (h.index id).trans (h'.index id)⟩

/-- The index of a book is determined by its queues. -/
theorem SameBook.of_queues {b b' : Book} (hb : b.IndexOk) (hb' : b'.IndexOk)
    (hid : b.nextOrderId = b'.nextOrderId) (haddr : b.nextAddr = b'.nextAddr)
    (hqueue : ∀ q, b.queue q = b'.queue q) : SameBook b b' := by
  refine ⟨hid, haddr, hqueue, fun id => Option.ext fun loc => ?_⟩
  rw [hb id loc, hb' id loc, hqueue]

/-! ## The operations -/

section Operations

variable {b b' : Book} (h : SameBook b b')

include h

/-- Erasing the same orders. -/
theorem SameBook.kept {keep : Order → Bool} {c c' : Book} (hk : Kept keep b c)
    (hk' : Kept keep b' c') : SameBook c c' := by
  refine SameBook.of_queues hk.indexOk hk'.indexOk ?_ ?_ fun q => ?_
  · rw [hk.nextOrderId, hk'.nextOrderId, h.nextOrderId]
  · rw [hk.nextAddr, hk'.nextAddr, h.nextAddr]
  · rw [hk.queue, hk'.queue, h.queue]

theorem SameBook.removeOrdersOf (hb : b.WF) (hb' : b'.WF) (order order' : HashOrder)
    (fd : Int) : SameBook (b.removeOrdersOf order fd) (b'.removeOrdersOf order' fd) :=
  h.kept (removeOrdersOf_kept order hb fd) (removeOrdersOf_kept order' hb' fd)

theorem SameBook.deref (loc : Location) : b.deref loc = b'.deref loc := by
  rw [Book.deref, Book.deref, h.queue]

/-- The two cancels are both granted or refused with the same text. -/
theorem SameBook.cancelOrder_answer (id fd : Int) :
    (b.cancelOrder id fd).ok = (b'.cancelOrder id fd).ok ∧
      (b.cancelOrder id fd).error = (b'.cancelOrder id fd).error := by
  unfold Book.cancelOrder
  rw [← h.index id]
  cases b.index.lookup id with
  | none => exact ⟨rfl, rfl⟩
  | some loc =>
      dsimp only
      rw [← h.deref loc]
      split
      · exact ⟨rfl, rfl⟩
      · exact ⟨rfl, rfl⟩

theorem SameBook.cancelOrder (hb : b.WF) (hb' : b'.WF) (id fd : Int) :
    SameBook (b.cancelOrder id fd).book (b'.cancelOrder id fd).book := by
  have hok := (h.cancelOrder_answer id fd).1
  rcases cancelOrder_cases hb id fd with ⟨hno, hbook, _⟩ | ⟨hyes, _, hk⟩
  · rcases cancelOrder_cases hb' id fd with ⟨_, hbook', _⟩ | ⟨hyes', _, _⟩
    · rw [hbook, hbook']
      exact h
    · rw [hno, hyes'] at hok
      cases hok
  · rcases cancelOrder_cases hb' id fd with ⟨hno', _, _⟩ | ⟨_, _, hk'⟩
    · rw [hyes, hno'] at hok
      cases hok
    · exact h.kept hk hk'

variable (ownerFd : Int) (instrument : Bytes) (side : Side) (quantity price : Int)

theorem SameBook.matched :
    b.matched instrument side quantity price = b'.matched instrument side quantity price := by
  rw [Book.matched, Book.matched, h.queue]

theorem SameBook.incoming :
    b.incoming ownerFd instrument side price = b'.incoming ownerFd instrument side price := by
  rw [Book.incoming, Book.incoming, h.nextOrderId]

theorem SameBook.addOrder_fills :
    (b.addOrder ownerFd instrument side quantity price).fills =
      (b'.addOrder ownerFd instrument side quantity price).fills := by
  rw [OrderBook.addOrder_fills, OrderBook.addOrder_fills, h.matched, h.incoming]

theorem SameBook.addOrder (hb : b.WF) (hb' : b'.WF) :
    SameBook (b.addOrder ownerFd instrument side quantity price).book
      (b'.addOrder ownerFd instrument side quantity price).book := by
  refine SameBook.of_queues (addOrder_wf _ _ _ _ _ hb).indexOk
    (addOrder_wf _ _ _ _ _ hb').indexOk ?_ ?_ fun q => ?_
  · rw [addOrder_nextOrderId, addOrder_nextOrderId, h.nextOrderId]
  · rw [addOrder_nextAddr, addOrder_nextAddr, h.matched, h.nextAddr]
  · rw [addOrder_queue, addOrder_queue, h.matched, h.incoming, h.nextAddr, h.queue]

end Operations

/-- Removing the orders of somebody who has none. -/
theorem sameBook_removeOrdersOf {b : Book} (hb : b.WF) (order : HashOrder) {fd : Int}
    (hnone : ∀ q, ∀ n ∈ b.queue q, n.order.ownerFd ≠ fd) :
    SameBook b (b.removeOrdersOf order fd) := by
  have hk : Kept (fun _ => true) b (b.removeOrdersOf order fd) :=
    (removeOrdersOf_kept order hb fd).congr fun q n hn => decide_eq_true (hnone q n hn)
  exact (SameBook.refl b).kept (kept_refl hb) hk

end SocketExchange.Trading.OrderBook
