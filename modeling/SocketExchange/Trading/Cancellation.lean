import Mathlib.Algebra.Order.BigOperators.Group.List
import SocketExchange.Lib.Log
import SocketExchange.Trading.Ledger

/-!
# What a cancel knows

`cancel_order` looks at the index as it stands.  The protocol promises an answer
about the past: the order was accepted for this trader, has unfilled quantity,
was not cancelled before and did not disappear with its connection.

`LiveAt h id fd left` is that sentence, read off a history and nothing else.
The invariant `Tracks` says that the resting orders of the book are exactly the
live orders of its history, each with the quantity the history leaves it.
-/

namespace SocketExchange.Trading.OrderBook

open SocketExchange.Lib
open SocketExchange.Lib.Bytes

/-! ## Reading a history -/

/-- The quantity of the order `id` that some fills executed, on either side. -/
def executedOf (id : Int) (fills : List Fill) : Int :=
  (fills.map fun f =>
    (if f.incomingId = id then f.execution.quantity else 0) +
      if f.restingId = id then f.execution.quantity else 0).sum

def Entry.executedOf (id : Int) : Entry → Int
  | .added _ _ fills => OrderBook.executedOf id fills
  | _ => 0

/-- A successful `cancel_order(id, _)`. -/
def Entry.Cancels (id : Int) : Entry → Prop
  | .cancelled orderId _ ok _ => orderId = id ∧ ok = true
  | _ => False

/-- A `remove_orders_of(fd)`. -/
def Entry.Removes (fd : Int) : Entry → Prop
  | .removed ownerFd _ => ownerFd = fd
  | _ => False

/-- The id returned by an `add_order`. -/
def Entry.issuedId : Entry → Option Int
  | .added o _ _ => some o.orderId
  | _ => none

/-- The ids returned so far, in the order of the calls. -/
def issued (h : List Entry) : List Int := h.filterMap Entry.issuedId

/-- `id` was returned by an `add_order` of `fd` for `quantity` units, and `since`
is what happened after that call. -/
def AddedBy (h : List Entry) (id fd quantity : Int) (since : List Entry) : Prop :=
  ∃ before o fills, h = before ++ .added o quantity fills :: since ∧
    o.orderId = id ∧ o.ownerFd = fd

/-- The order `id` of `fd` has not been taken out of the book, and its
executions leave `left` units of it. -/
def LiveAt (h : List Entry) (id fd left : Int) : Prop :=
  ∃ quantity since, AddedBy h id fd quantity since ∧
    sumOver h (Entry.executedOf id) + left = quantity ∧
    (∀ e ∈ h, ¬ e.Cancels id) ∧ ∀ e ∈ since, ¬ e.Removes fd

theorem sumOver_concat (h : List Entry) (e : Entry) (f : Entry → Int) :
    sumOver (h ++ [e]) f = sumOver h f + f e := by
  simp [sumOver]

theorem addedBy_concat {h : List Entry} {e : Entry} {id fd quantity : Int}
    {since : List Entry} :
    AddedBy (h ++ [e]) id fd quantity since ↔
      (∃ since', since = since' ++ [e] ∧ AddedBy h id fd quantity since') ∨
        since = [] ∧ ∃ o fills, e = .added o quantity fills ∧ o.orderId = id ∧
          o.ownerFd = fd := by
  constructor
  · rintro ⟨before, o, fills, heq, hid, hfd⟩
    rcases Log.split_of_concat heq with ⟨_, he, rfl⟩ | ⟨since', rfl, hold⟩
    · exact Or.inr ⟨rfl, o, fills, he.symm, hid, hfd⟩
    · exact Or.inl ⟨since', rfl, before, o, fills, hold, hid, hfd⟩
  · rintro (⟨since', rfl, before, o, fills, rfl, hid, hfd⟩ | ⟨rfl, o, fills, rfl, hid, hfd⟩)
    · exact ⟨before, o, fills, by simp, hid, hfd⟩
    · exact ⟨h, o, fills, rfl, hid, hfd⟩

/-- An order is live after a call if it was before and the call did not end it,
or if the call is the one that submitted it. -/
theorem liveAt_concat {h : List Entry} {e : Entry} {id fd left : Int} :
    LiveAt (h ++ [e]) id fd left ↔
      (LiveAt h id fd (e.executedOf id + left) ∧ ¬ e.Cancels id ∧ ¬ e.Removes fd) ∨
        (∃ o quantity fills, e = .added o quantity fills ∧ o.orderId = id ∧
          o.ownerFd = fd ∧ sumOver h (Entry.executedOf id) + (e.executedOf id + left) = quantity ∧
          ∀ e' ∈ h, ¬ e'.Cancels id) := by
  simp only [LiveAt, addedBy_concat, sumOver_concat, List.mem_append, List.mem_singleton,
    or_imp, forall_and, forall_eq]
  constructor
  · rintro ⟨quantity, since, ⟨since', rfl, hadd⟩ | ⟨rfl, o, fills, rfl, hid, hfd⟩, hq,
      ⟨hc, hce⟩, hr⟩
    · refine Or.inl ⟨⟨quantity, since', hadd, by omega, hc, ?_⟩, hce, ?_⟩
      · exact fun e' he' => hr e' (by simp [he'])
      · exact hr e (by simp)
    · exact Or.inr ⟨o, quantity, fills, rfl, hid, hfd, by omega, hc⟩
  · rintro (⟨⟨quantity, since, hadd, hq, hc, hr⟩, hce, hre⟩ | ⟨o, quantity, fills, rfl, hid,
      hfd, hq, hc⟩)
    · refine ⟨quantity, since ++ [e], Or.inl ⟨since, rfl, hadd⟩, by omega, ⟨hc, hce⟩, ?_⟩
      intro e' he'
      rcases List.mem_append.mp he' with he' | he'
      · exact hr e' he'
      · rw [List.mem_singleton.mp he']
        exact hre
    · exact ⟨quantity, [], Or.inr ⟨rfl, o, fills, rfl, hid, hfd⟩, by omega,
        ⟨hc, fun hce => hce⟩, by simp⟩

/-! ## The executions of one call -/

/-- The fills of a call count for the incoming order and for the resting ones. -/
theorem executedOf_fillsOf (o : Incoming) (id : Int) (taken : List (Order × Int)) :
    executedOf id (o.fillsOf taken) =
      (if o.orderId = id then takenTotal taken else 0) + filledOf id taken := by
  induction taken with
  | nil => simp [executedOf, Incoming.fillsOf, takenTotal, filledOf]
  | cons t taken ih =>
      simp only [executedOf, Incoming.fillsOf, takenTotal, filledOf, List.map_cons,
        List.sum_cons] at ih ⊢
      rw [ih]
      simp only [Incoming.fill]
      split
      · omega
      · omega

theorem filledOf_nonneg (id : Int) {taken : List (Order × Int)}
    (h : ∀ t ∈ taken, 0 < t.2) : 0 ≤ filledOf id taken := by
  induction taken with
  | nil => exact Int.le_refl 0
  | cons t taken ih =>
      have hrest := ih fun t ht => h t (by simp [ht])
      have hhead := h t (by simp)
      rw [filledOf]
      split
      · omega
      · omega

theorem takenTotal_nonneg {taken : List (Order × Int)} (h : ∀ t ∈ taken, 0 < t.2) :
    0 ≤ takenTotal taken := by
  refine List.sum_nonneg fun x hx => ?_
  obtain ⟨t, ht, rfl⟩ := List.mem_map.mp hx
  exact Int.le_of_lt (h t ht)

section AddOrder

variable {b : Book} (hb : b.WF) (ownerFd : Int) (instrument : Bytes) (side : Side)
  (quantity price : Int)

include hb

/-- A call takes from orders of the opposite queue, in positive amounts. -/
theorem matched_taken :
    ∀ t ∈ (b.matched instrument side quantity price).taken,
      TakenFrom price (b.queue ⟨side.opposite, instrument⟩) t :=
  matchNodes_taken price _ quantity (hb.quantity_pos _)

/-- Only orders of the opposite queue are filled. -/
theorem matched_filledOf_eq_zero {id : Int}
    (h : ∀ n ∈ b.queue ⟨side.opposite, instrument⟩, n.order.id ≠ id) :
    filledOf id (b.matched instrument side quantity price).taken = 0 := by
  refine filledOf_of_fresh fun t ht => ?_
  obtain ⟨_, _, _, n, hn, hnt⟩ := matched_taken hb instrument side quantity price t ht
  rw [← hnt]
  exact h n hn

/-- **The orders after `add_order`**: the old ones, reduced by what was taken
from them unless that was all, and the remainder of the new one. -/
theorem mem_addOrder {q : QueueId} {n : Node} :
    n ∈ (b.addOrder ownerFd instrument side quantity price).book.queue q ↔
      (∃ m ∈ b.queue q,
        filledOf m.order.id (b.matched instrument side quantity price).taken <
          m.order.quantity ∧
        n = m.reduce (filledOf m.order.id (b.matched instrument side quantity price).taken)) ∨
      (q = ⟨side, instrument⟩ ∧ 0 < (b.matched instrument side quantity price).remaining ∧
        n = ⟨b.nextAddr, (b.incoming ownerFd instrument side price).rest
          (b.matched instrument side quantity price).remaining⟩) := by
  rw [addOrder_queue]
  set m := b.matched instrument side quantity price with hm
  by_cases hopp : q = ⟨side.opposite, instrument⟩
  · subst hopp
    have hown : (⟨side.opposite, instrument⟩ : QueueId) ≠ ⟨side, instrument⟩ := fun h =>
      opposite_ne side (congrArg QueueId.side h)
    have hle := filledOf_le price (b.queue ⟨side.opposite, instrument⟩) quantity
      (hb.quantity_pos _) (hb.sorted _)
    rw [if_pos rfl, hm, Book.matched, matchNodes_queue price _ quantity (hb.quantity_pos _)
      (hb.sorted _), List.mem_filterMap]
    simp only [hown, false_and, or_false]
    refine exists_congr fun x => and_congr_right fun hx => ?_
    have hx' := (hle x hx).2
    unfold settle
    split
    · constructor
      · intro h; cases h
      · intro h; omega
    · constructor
      · intro h
        exact ⟨by omega, (Option.some.inj h).symm⟩
      · rintro ⟨_, rfl⟩
        rfl
  · -- no order of another queue is filled
    have hsame : ∀ x ∈ b.queue q, filledOf x.order.id m.taken = 0 := fun x hx =>
      matched_filledOf_eq_zero hb instrument side quantity price fun y hy hid =>
        hopp (hb.id_queue _ _ x hx y hy hid.symm)
    have hold : n ∈ b.queue q ↔ ∃ x ∈ b.queue q, filledOf x.order.id m.taken < x.order.quantity ∧
        n = x.reduce (filledOf x.order.id m.taken) := by
      constructor
      · intro hn
        refine ⟨n, hn, ?_⟩
        rw [hsame n hn]
        exact ⟨hb.quantity_pos q n hn, by simp [Node.reduce]⟩
      · rintro ⟨x, hx, _, rfl⟩
        rw [hsame x hx]
        simpa [Node.reduce] using hx
    rw [if_neg hopp, ← hold]
    by_cases hown : q = ⟨side, instrument⟩
    · rw [if_pos hown, List.mem_append, restNodes]
      split
      · next hpos => simp [hown, hpos]
      · next hpos => simp [hpos]
    · rw [if_neg hown]
      simp [hown]

omit hb in
/-- What a call executes of an order already in the book. -/
theorem executedOf_addOrder_old {id : Int} (h : id < b.nextOrderId) :
    executedOf id (b.addOrder ownerFd instrument side quantity price).fills =
      filledOf id (b.matched instrument side quantity price).taken := by
  have hne : ¬ (b.incoming ownerFd instrument side price).orderId = id := by
    show ¬ b.nextOrderId = id
    omega
  rw [addOrder_fills, executedOf_fillsOf, if_neg hne, Int.zero_add]

/-- What a call executes of the order it submits. -/
theorem executedOf_addOrder_new :
    executedOf b.nextOrderId (b.addOrder ownerFd instrument side quantity price).fills +
      (b.matched instrument side quantity price).remaining = quantity := by
  have hfresh : filledOf b.nextOrderId (b.matched instrument side quantity price).taken = 0 :=
    matched_filledOf_eq_zero hb instrument side quantity price fun n hn hid => by
      have := hb.id_lt _ n hn
      omega
  have hid : (b.incoming ownerFd instrument side price).orderId = b.nextOrderId := rfl
  rw [addOrder_fills, executedOf_fillsOf, if_pos hid, hfresh, Int.add_zero]
  exact matchNodes_total price (b.queue ⟨side.opposite, instrument⟩) quantity

theorem executedOf_addOrder_nonneg (id : Int) :
    0 ≤ executedOf id (b.addOrder ownerFd instrument side quantity price).fills := by
  have hpos : ∀ t ∈ (b.matched instrument side quantity price).taken, 0 < t.2 := fun t ht =>
    (matched_taken hb instrument side quantity price t ht).1
  have htotal := takenTotal_nonneg hpos
  have hfilled := filledOf_nonneg id hpos
  rw [addOrder_fills, executedOf_fillsOf]
  split
  · omega
  · omega

/-- A call executes nothing of an order that is yet to come. -/
theorem executedOf_addOrder_future {id : Int} (h : b.nextOrderId < id) :
    executedOf id (b.addOrder ownerFd instrument side quantity price).fills = 0 := by
  have hne : ¬ (b.incoming ownerFd instrument side price).orderId = id := by
    show ¬ b.nextOrderId = id
    omega
  rw [addOrder_fills, executedOf_fillsOf, if_neg hne, Int.zero_add]
  refine matched_filledOf_eq_zero hb instrument side quantity price fun n hn hid => ?_
  have := hb.id_lt _ n hn
  omega

end AddOrder

/-! ## The book tracks its history -/

/-- The resting orders of `b` are the live orders of `h`, and what `h` says
about ids is about ids below the counter. -/
structure Tracks (h : List Entry) (b : Book) : Prop where
  wf : b.WF
  issued_sorted : (issued h).Pairwise (· < ·)
  issued_lt : ∀ id ∈ issued h, id < b.nextOrderId
  issued_count : b.nextOrderId = (issued h).length + 1
  unexecuted : ∀ id, b.nextOrderId ≤ id → sumOver h (Entry.executedOf id) = 0
  uncancelled : ∀ id, b.nextOrderId ≤ id → ∀ e ∈ h, ¬ e.Cancels id
  sound : ∀ q, ∀ n ∈ b.queue q, LiveAt h n.order.id n.order.ownerFd n.order.quantity
  complete : ∀ id fd left, LiveAt h id fd left → 0 < left →
    ∃ q, ∃ n ∈ b.queue q, n.order.id = id ∧ n.order.ownerFd = fd ∧ n.order.quantity = left

theorem LiveAt.issued {h : List Entry} {id fd left : Int} (hl : LiveAt h id fd left) :
    id ∈ issued h := by
  obtain ⟨quantity, since, ⟨before, o, fills, rfl, hid, _⟩, _⟩ := hl
  refine List.mem_filterMap.mpr ⟨.added o quantity fills, by simp, ?_⟩
  rw [← hid]
  rfl

theorem issued_concat (h : List Entry) (e : Entry) :
    issued (h ++ [e]) = issued h ++ e.issuedId.toList := by
  cases he : e.issuedId <;> simp [issued, List.filterMap_append, he]

/-- A call that submits nothing and erases the orders it ends. -/
private theorem Tracks.erase {h : List Entry} {b b' : Book} {keep : Order → Bool}
    (ht : Tracks h b) (hkept : Kept keep b b') {e : Entry} (hnew : e.issuedId = none)
    (hends : ∀ q, ∀ n ∈ b.queue q, keep n.order = true ↔
      ¬ e.Cancels n.order.id ∧ ¬ e.Removes n.order.ownerFd)
    (hfresh : ∀ id, b.nextOrderId ≤ id → ¬ e.Cancels id) : Tracks (h ++ [e]) b' := by
  have hexec : ∀ id, e.executedOf id = 0 := by
    cases e with
    | added o quantity fills => cases hnew
    | cancelled orderId requesterFd ok taken => exact fun _ => rfl
    | removed ownerFd taken => exact fun _ => rfl
  have hlive : ∀ id fd left, LiveAt (h ++ [e]) id fd left ↔
      LiveAt h id fd left ∧ ¬ e.Cancels id ∧ ¬ e.Removes fd := by
    intro id fd left
    rw [liveAt_concat, hexec, Int.zero_add, or_iff_left]
    rintro ⟨o, quantity, fills, rfl, _⟩
    cases hnew
  have hissued : issued (h ++ [e]) = issued h := by
    rw [issued_concat, hnew, Option.toList_none, List.append_nil]
  refine ⟨(hkept.shrunk ht.wf).wf ht.wf, ?_, ?_, ?_, ?_, ?_, ?_, ?_⟩
  · rw [hissued]
    exact ht.issued_sorted
  · rw [hissued, hkept.nextOrderId]
    exact ht.issued_lt
  · rw [hissued, hkept.nextOrderId]
    exact ht.issued_count
  · intro id hid
    rw [hkept.nextOrderId] at hid
    rw [sumOver_concat, ht.unexecuted id hid, hexec, Int.add_zero]
  · intro id hid e' he'
    rw [hkept.nextOrderId] at hid
    rcases List.mem_append.mp he' with he' | he'
    · exact ht.uncancelled id hid e' he'
    · rw [List.mem_singleton.mp he']
      exact hfresh id hid
  · intro q n hn
    obtain ⟨hn, hkeep⟩ := hkept.mem.mp hn
    exact (hlive _ _ _).mpr ⟨ht.sound q n hn, (hends q n hn).mp hkeep⟩
  · intro id fd left hl hpos
    obtain ⟨hl, hend⟩ := (hlive _ _ _).mp hl
    obtain ⟨q, n, hn, rfl, rfl, hleft⟩ := ht.complete id fd left hl hpos
    exact ⟨q, n, hkept.mem.mpr ⟨hn, (hends q n hn).mpr hend⟩, rfl, rfl, hleft⟩

theorem Tracks.addOrder {h : List Entry} {b : Book} (ht : Tracks h b)
    (ownerFd : Int) (instrument : Bytes) (side : Side) (quantity price : Int) :
    Tracks (h ++ [.added (b.incoming ownerFd instrument side price) quantity
        (b.addOrder ownerFd instrument side quantity price).fills])
      (b.addOrder ownerFd instrument side quantity price).book := by
  have hb := ht.wf
  set r := b.addOrder ownerFd instrument side quantity price with hr
  set e : Entry := .added (b.incoming ownerFd instrument side price) quantity r.fills with he
  have hnext : r.book.nextOrderId = b.nextOrderId + 1 := addOrder_nextOrderId _ _ _ _ _ _
  have hexec : ∀ id, e.executedOf id = executedOf id r.fills := fun _ => rfl
  have hissued : issued (h ++ [e]) = issued h ++ [b.nextOrderId] := issued_concat h e
  have hplain : ∀ id, ¬ e.Cancels id := fun _ hc => hc
  refine ⟨addOrder_wf ownerFd instrument side quantity price hb, ?_, ?_, ?_, ?_, ?_, ?_, ?_⟩
  · rw [hissued, List.pairwise_append]
    refine ⟨ht.issued_sorted, List.pairwise_singleton _ _, ?_⟩
    intro id hid id' hid'
    rw [List.mem_singleton.mp hid']
    exact ht.issued_lt id hid
  · intro id hid
    rw [hnext]
    rw [hissued, List.mem_append, List.mem_singleton] at hid
    rcases hid with hid | rfl
    · have := ht.issued_lt id hid
      omega
    · omega
  · rw [hissued, hnext, ht.issued_count]
    simp
  · intro id hid
    rw [sumOver_concat, hexec, ht.unexecuted id (by omega),
      executedOf_addOrder_future hb ownerFd instrument side quantity price (by omega)]
    rfl
  · intro id hid e' he'
    rcases List.mem_append.mp he' with he' | he'
    · exact ht.uncancelled id (by omega) e' he'
    · rw [List.mem_singleton.mp he']
      exact hplain id
  · intro q n hn
    rw [liveAt_concat, hexec]
    rcases (mem_addOrder hb ownerFd instrument side quantity price).mp hn with
      ⟨m, hm, _, rfl⟩ | ⟨_, _, rfl⟩
    · refine Or.inl ⟨?_, hplain _, fun hrem => hrem⟩
      have hold := executedOf_addOrder_old ownerFd instrument side quantity price
        (hb.id_lt q m hm)
      rw [← hr] at hold
      have hleft : executedOf m.order.id r.fills + (m.order.quantity -
          filledOf m.order.id (b.matched instrument side quantity price).taken) =
          m.order.quantity := by omega
      simp only [Node.reduce]
      rw [hleft]
      exact ht.sound q m hm
    · refine Or.inr ⟨_, quantity, r.fills, rfl, rfl, rfl, ?_, ht.uncancelled _ (Int.le_refl _)⟩
      simp only [Incoming.rest, Book.incoming]
      rw [ht.unexecuted _ (Int.le_refl _), Int.zero_add]
      exact executedOf_addOrder_new hb ownerFd instrument side quantity price
  · intro id fd left hl hpos
    rcases liveAt_concat.mp hl with ⟨hl, _, _⟩ | ⟨o, quantity', fills, hadd, rfl, rfl, hq, _⟩
    · rw [hexec] at hl
      have hnonneg := executedOf_addOrder_nonneg hb ownerFd instrument side quantity price id
      rw [← hr] at hnonneg
      obtain ⟨q, n, hn, rfl, rfl, hleft⟩ := ht.complete _ _ _ hl (by omega)
      have hold := executedOf_addOrder_old ownerFd instrument side quantity price
        (hb.id_lt q n hn)
      rw [← hr] at hold
      refine ⟨q, n.reduce _, (mem_addOrder hb ownerFd instrument side quantity price).mpr
        (Or.inl ⟨n, hn, by omega, rfl⟩), rfl, rfl, ?_⟩
      simp only [Node.reduce]
      omega
    · obtain ⟨rfl, rfl, rfl⟩ := Entry.added.inj hadd
      have hid : (b.incoming ownerFd instrument side price).orderId = b.nextOrderId := rfl
      have hnew := executedOf_addOrder_new hb ownerFd instrument side quantity price
      simp only [hexec, hr, hid] at hq
      rw [ht.unexecuted _ (Int.le_refl _)] at hq
      refine ⟨_, _, (mem_addOrder hb ownerFd instrument side quantity price).mpr
        (Or.inr ⟨rfl, by omega, rfl⟩), rfl, rfl, ?_⟩
      simp only [Incoming.rest]
      omega

theorem Tracks.cancelOrder {h : List Entry} {b : Book} (ht : Tracks h b)
    (orderId requesterFd : Int) (taken : List Order) :
    Tracks (h ++ [.cancelled orderId requesterFd (b.cancelOrder orderId requesterFd).ok taken])
      (b.cancelOrder orderId requesterFd).book := by
  rcases cancelOrder_cases ht.wf orderId requesterFd with ⟨hok, hbook, _⟩ |
    ⟨hok, ⟨q, n, hn, hid, _⟩, hkept⟩
  · have hkept : Kept (fun _ => true) b (b.cancelOrder orderId requesterFd).book := by
      rw [hbook]
      exact kept_refl ht.wf
    refine ht.erase hkept rfl ?_ ?_
    · intro q n hn
      simp [Entry.Cancels, Entry.Removes, hok]
    · intro id _
      simp [Entry.Cancels, hok]
  · refine ht.erase hkept rfl ?_ ?_
    · intro q n hn
      simp only [Entry.Cancels, Entry.Removes, hok, decide_eq_true_eq, and_true,
        not_false_eq_true]
      exact ne_comm
    · intro id hnext hc
      have := ht.wf.id_lt q n hn
      have : orderId = id := hc.1
      omega

theorem Tracks.removeOrdersOf {h : List Entry} {b : Book} (ht : Tracks h b)
    (order : HashOrder) (ownerFd : Int) (taken : List Order) :
    Tracks (h ++ [.removed ownerFd taken]) (b.removeOrdersOf order ownerFd) := by
  refine ht.erase (removeOrdersOf_kept order ht.wf ownerFd) rfl ?_ ?_
  · intro q n hn
    simp only [Entry.Cancels, Entry.Removes, decide_eq_true_eq, true_and, not_false_eq_true]
    exact ne_comm
  · exact fun _ _ hc => hc

/-- **The step lemma.** -/
theorem Tracks.apply {h : List Entry} {b : Book} (ht : Tracks h b) (order : HashOrder)
    (op : Op) : Tracks (h ++ [b.entry order op]) (b.apply order op) := by
  cases op with
  | addOrder ownerFd instrument side quantity price =>
      exact ht.addOrder ownerFd instrument side quantity price
  | cancelOrder orderId requesterFd => exact ht.cancelOrder orderId requesterFd _
  | removeOrdersOf ownerFd => exact ht.removeOrdersOf order ownerFd _

theorem tracks_empty : Tracks [] Book.empty := by
  refine ⟨wf_empty, List.Pairwise.nil, by simp [issued], rfl, fun _ _ => rfl, by simp, ?_, ?_⟩
  · intro q n hn
    rw [queue_empty] at hn
    cases hn
  · intro id fd left hl _
    exact absurd hl.issued (by simp [issued])

/-- **The run lemma.** -/
theorem bookAfter_tracks (order : HashOrder) (ops : List Op) :
    Tracks (history order ops) (bookAfter order ops) := by
  induction ops using List.reverseRecOn with
  | nil => exact tracks_empty
  | append_singleton ops op ih =>
      rw [history_concat, bookAfter_concat]
      exact ih.apply order op

/-! ## `cancel_order` answers from the history -/

/-- Erasing one order leaves all the others. -/
theorem Kept.orders_perm {id : Int} {b b' : Book}
    (h : Kept (fun o => decide (o.id ≠ id)) b b') (hb : b.WF) {q : QueueId} {n : Node}
    (hn : n ∈ b.queue q) (hid : n.order.id = id) :
    b.orders.Perm (n.order :: b'.orders) := by
  have hb' := (h.shrunk hb).wf hb
  have hmem : ∀ o, o ∈ b'.orders ↔ o ∈ b.orders ∧ o.id ≠ id := by
    intro o
    simp only [mem_orders, h.mem, decide_eq_true_eq]
    constructor
    · rintro ⟨q, m, ⟨hm, hne⟩, rfl⟩
      exact ⟨⟨q, m, hm, rfl⟩, hne⟩
    · rintro ⟨⟨q, m, hm, rfl⟩, hne⟩
      exact ⟨q, m, ⟨hm, hne⟩, rfl⟩
  have hnodup : (n.order :: b'.orders).Nodup :=
    List.nodup_cons.mpr ⟨fun hmem' => ((hmem _).mp hmem').2 hid, (ids_nodup hb').of_map _⟩
  refine (List.perm_ext_iff_of_nodup ((ids_nodup hb).of_map _) hnodup).mpr fun o => ?_
  rw [List.mem_cons, hmem]
  constructor
  · intro ho
    by_cases hoid : o.id = id
    · obtain ⟨q', m, hm, rfl⟩ := mem_orders.mp ho
      exact Or.inl (congrArg Node.order (hb.eq_of_id hm hn (hoid.trans hid.symm)))
    · exact Or.inr ⟨ho, hoid⟩
  · rintro (rfl | ⟨ho, _⟩)
    · exact mem_orders.mpr ⟨q, n, hn, rfl⟩
    · exact ho

/-- The index after one order has been erased. -/
theorem Kept.index_lookup {id : Int} {b b' : Book}
    (h : Kept (fun o => decide (o.id ≠ id)) b b') (hb : b.WF) (id' : Int) :
    b'.index.lookup id' = if id' = id then none else b.index.lookup id' := by
  refine Option.ext fun loc => ?_
  rw [h.indexOk id' loc]
  simp only [h.mem, decide_eq_true_eq]
  split
  · next heq =>
    subst heq
    constructor
    · rintro ⟨n, ⟨_, hne⟩, _, hid⟩
      exact absurd hid hne
    · intro hnone; cases hnone
  · next hne =>
    rw [hb.indexOk id' loc]
    constructor
    · rintro ⟨n, ⟨hn, _⟩, ha, hid⟩
      exact ⟨n, hn, ha, hid⟩
    · rintro ⟨n, hn, ha, hid⟩
      exact ⟨n, ⟨hn, hid ▸ hne⟩, ha, hid⟩

/-- **A cancel is decided by the order's history.**  It succeeds exactly on an
order its requester submitted, that has unfilled quantity, was not cancelled and
did not leave with its connection; it then removes that order and nothing else.
A refused cancel changes nothing.  Ids are handed out in increasing order, and
stay in the range of `long` for as many calls as that range allows. -/
theorem cancel_decided_by_history (order : HashOrder) (ops : List Op) (id fd : Int) :
    let b := bookAfter order ops
    let h := history order ops
    let r := b.cancelOrder id fd
    (r.ok = true ↔ ∃ quantity since, AddedBy h id fd quantity since ∧
      sumOver h (Entry.executedOf id) < quantity ∧
      (∀ e ∈ h, ¬ e.Cancels id) ∧ ∀ e ∈ since, ¬ e.Removes fd) ∧
    (r.ok = true → ∃ o ∈ b.orders, o.id = id ∧ o.ownerFd = fd ∧
      b.orders.Perm (o :: r.book.orders) ∧
      (∀ q, r.book.queue q = (b.queue q).filter fun n => decide (n.order.id ≠ id)) ∧
      (∀ id', r.book.index.lookup id' = if id' = id then none else b.index.lookup id') ∧
      r.book.nextOrderId = b.nextOrderId) ∧
    (r.ok = false → r.book = b) ∧
    (issued h).Pairwise (· < ·) ∧
    ((issued h).length < 2 ^ 63 - 1 →
      b.nextOrderId < 2 ^ 63 ∧ ∀ id' ∈ issued h, id' < 2 ^ 63) := by
  intro b h r
  have ht : Tracks h b := bookAfter_tracks order ops
  refine ⟨?_, ?_, ?_, ht.issued_sorted, ?_⟩
  · rcases cancelOrder_cases ht.wf id fd with ⟨hok, _, hnone⟩ | ⟨hok, ⟨q, n, hn, hid, hfd⟩, _⟩
    · refine ⟨fun htrue => absurd (hok.symm.trans htrue) (by decide), ?_⟩
      rintro ⟨quantity, since, hadd, hlt, hc, hrem⟩
      obtain ⟨q, n, hn, hid, hfd, _⟩ := ht.complete id fd
        (quantity - sumOver h (Entry.executedOf id))
        ⟨quantity, since, hadd, by omega, hc, hrem⟩ (by omega)
      exact absurd hfd (hnone q n hn hid)
    · refine ⟨fun _ => ?_, fun _ => hok⟩
      have hpos := ht.wf.quantity_pos q n hn
      obtain ⟨quantity, since, hadd, hq, hc, hrem⟩ := ht.sound q n hn
      rw [hid, hfd] at hadd
      rw [hid] at hq hc
      rw [hfd] at hrem
      exact ⟨quantity, since, hadd, by omega, hc, hrem⟩
  · intro htrue
    rcases cancelOrder_cases ht.wf id fd with ⟨hok, _, _⟩ | ⟨_, ⟨q, n, hn, hid, hfd⟩, hkept⟩
    · exact absurd (hok.symm.trans htrue) (by decide)
    · exact ⟨n.order, mem_orders.mpr ⟨q, n, hn, rfl⟩, hid, hfd,
        hkept.orders_perm ht.wf hn hid, hkept.queue, hkept.index_lookup ht.wf,
        hkept.nextOrderId⟩
  · intro hfalse
    rcases cancelOrder_cases ht.wf id fd with ⟨_, hbook, _⟩ | ⟨hok, _, _⟩
    · exact hbook
    · exact absurd (hok.symm.trans hfalse) (by decide)
  · intro hlen
    have hcount := ht.issued_count
    refine ⟨by omega, fun id' hid' => ?_⟩
    have := ht.issued_lt id' hid'
    omega

end SocketExchange.Trading.OrderBook
