import Mathlib.Algebra.Order.BigOperators.Group.List
import SocketExchange.Trading.History

/-!
# Quantity is conserved

Fix an owner, a side, an instrument and a price: an `Account`.  Over any run of
the book, what was submitted on that account is what was executed in its name,
plus what still rests, plus what cancels and disconnects took out.

The ledger is kept per account, so a trader meeting its own order is debited on
both of its accounts, once each.  The step lemma `apply_balances` is the
balance of one call; the run theorem adds it up along the history.
-/

namespace SocketExchange.Trading.OrderBook

open SocketExchange.Lib
open SocketExchange.Lib.Bytes

/-! ## Accounts -/

/-- A line of the ledger. -/
structure Account where
  ownerFd : Int
  side : Side
  instrument : Bytes
  price : Int
  deriving Repr, DecidableEq

def Order.account (o : Order) : Account := ⟨o.ownerFd, o.side, o.instrument, o.price⟩

def Incoming.account (o : Incoming) : Account := ⟨o.ownerFd, o.side, o.instrument, o.price⟩

/-- The account an execution debits on a side: the buyer's or the seller's. -/
def TradeExecution.account (e : TradeExecution) (side : Side) : Account where
  ownerFd := match side with
    | .buy => e.buyerFd
    | .sell => e.sellerFd
  side := side
  instrument := e.instrument
  price := e.price

/-- The queue an account's orders rest in. -/
def Account.queueId (a : Account) : QueueId := ⟨a.side, a.instrument⟩

/-- The quantity of an order that counts for an account. -/
def weight (a : Account) (o : Order) : Int := if o.account = a then o.quantity else 0

/-- The quantity of an account among some orders. -/
def total (a : Account) (orders : List Order) : Int := (orders.map (weight a)).sum

/-- The quantity executed in the name of an account. -/
def executedIn (a : Account) (fills : List Fill) : Int :=
  (fills.map fun f =>
    if f.execution.account a.side = a then f.execution.quantity else 0).sum

def Entry.submitted (a : Account) : Entry → Int
  | .added o quantity _ => if o.account = a then quantity else 0
  | _ => 0

def Entry.executed (a : Account) : Entry → Int
  | .added _ _ fills => executedIn a fills
  | _ => 0

/-- What a successful cancel took out. -/
def Entry.cancelledQuantity (a : Account) : Entry → Int
  | .cancelled _ _ ok taken => if ok then total a taken else 0
  | _ => 0

/-- What a disconnect took out. -/
def Entry.removedQuantity (a : Account) : Entry → Int
  | .removed _ taken => total a taken
  | _ => 0

/-- A quantity summed over a history. -/
def sumOver (h : List Entry) (f : Entry → Int) : Int := (h.map f).sum

/-! ## Totals are read off one queue -/

/-- A total over the book is a sum over one queue, if only orders of that queue
count. -/
theorem sum_orders_eq {b : Book} (hb : b.WF) (q : QueueId) (f : Order → Int)
    (hf : ∀ o : Order, ¬ (o.side = q.side ∧ o.instrument = q.instrument) → f o = 0) :
    (b.orders.map f).sum = ((b.queue q).map fun n => f n.order).sum := by
  have hzero : ∀ q', q' ≠ q → ∀ n ∈ b.queue q', f n.order = 0 := by
    intro q' hne n hn
    refine hf _ fun h => hne ?_
    rw [hb.queue_eq hn, h.1, h.2]
  rw [Book.orders, List.map_map, Book.nodes, List.map_append, List.sum_append]
  obtain ⟨side, instrument⟩ := q
  cases side with
  | buy =>
      rw [Tables.sum_flatMap_lookup b.buys instrument (f ∘ Node.order) fun i hi n hn =>
          hzero ⟨.buy, i⟩ (fun h => hi (congrArg QueueId.instrument h)) n hn,
        Tables.sum_flatMap_eq_zero b.sells (f ∘ Node.order) fun i n hn =>
          hzero ⟨.sell, i⟩ (by simp) n hn,
        Int.add_zero]
      rfl
  | sell =>
      rw [Tables.sum_flatMap_lookup b.sells instrument (f ∘ Node.order) fun i hi n hn =>
          hzero ⟨.sell, i⟩ (fun h => hi (congrArg QueueId.instrument h)) n hn,
        Tables.sum_flatMap_eq_zero b.buys (f ∘ Node.order) fun i n hn =>
          hzero ⟨.buy, i⟩ (by simp) n hn,
        Int.zero_add]
      rfl

theorem weight_eq_zero {a : Account} {o : Order}
    (h : ¬ (o.side = a.queueId.side ∧ o.instrument = a.queueId.instrument)) :
    weight a o = 0 := by
  refine if_neg fun heq => h ?_
  rw [← heq]
  exact ⟨rfl, rfl⟩

/-- The weight of a queue. -/
def queueWeight (a : Account) (nodes : List Node) : Int :=
  (nodes.map fun n => weight a n.order).sum

theorem total_orders {b : Book} (hb : b.WF) (a : Account) :
    total a b.orders = queueWeight a (b.queue a.queueId) :=
  sum_orders_eq hb a.queueId (weight a) fun _ h => weight_eq_zero h

/-! ## Orders taken out -/

private theorem sum_filter_add (p : Node → Bool) (f g : Node → Int) (l : List Node)
    (hg : ∀ n ∈ l, g n = if p n then 0 else f n) :
    ((l.filter p).map f).sum + (l.map g).sum = (l.map f).sum := by
  induction l with
  | nil => rfl
  | cons n l ih =>
      have ih' := ih fun m hm => hg m (by simp [hm])
      have hn := hg n (by simp)
      by_cases hp : p n
      · rw [List.filter_cons_of_pos hp]
        simp only [List.map_cons, List.sum_cons, hn, hp, if_true]
        omega
      · rw [List.filter_cons_of_neg hp]
        simp only [List.map_cons, List.sum_cons, hn, hp]
        simp only [Bool.false_eq_true, if_false]
        omega

private theorem total_filter (a : Account) (p : Order → Bool) (orders : List Order) :
    total a (orders.filter p) =
      (orders.map fun o => if p o then weight a o else 0).sum := by
  induction orders with
  | nil => rfl
  | cons o orders ih =>
      unfold total at ih ⊢
      by_cases hp : p o
      · rw [List.filter_cons_of_pos hp]
        simp [hp, ih]
      · rw [List.filter_cons_of_neg hp]
        simp [hp, ih]

/-- **A filter balances**: what is kept and what is gone make up what was. -/
theorem Kept.total_gone {keep : Order → Bool} {b b' : Book} (h : Kept keep b b')
    (hb : b.WF) (a : Account) :
    total a b'.orders + total a (gone b b') = total a b.orders := by
  have hb' := (h.shrunk hb).wf hb
  have hgone : total a (gone b b') = ((b.queue a.queueId).map fun n =>
      if decide (n.order.id ∉ b'.orders.map Order.id) then weight a n.order else 0).sum := by
    rw [gone, total_filter]
    refine sum_orders_eq hb a.queueId _ fun o ho => ?_
    rw [weight_eq_zero ho, ite_self]
  rw [total_orders hb' a, total_orders hb a, hgone, h.queue]
  refine sum_filter_add _ _ _ _ fun n hn => ?_
  have hiff : n.order.id ∈ b'.orders.map Order.id ↔ keep n.order = true := by
    rw [List.mem_map]
    constructor
    · rintro ⟨o, ho, hid⟩
      obtain ⟨q, m, hm, rfl⟩ := mem_orders.mp ho
      obtain ⟨hm, hkeep⟩ := h.mem.mp hm
      rwa [hb.eq_of_id hm hn hid] at hkeep
    · intro hkeep
      exact ⟨n.order, mem_orders.mpr ⟨_, n, h.mem.mpr ⟨hn, hkeep⟩, rfl⟩, rfl⟩
  by_cases hkeep : keep n.order = true
  · simp [hkeep, hiff]
  · simp [hkeep, hiff]

theorem total_nonneg (a : Account) {orders : List Order} (h : ∀ o ∈ orders, 0 < o.quantity) :
    0 ≤ total a orders := by
  refine List.sum_nonneg fun x hx => ?_
  obtain ⟨o, ho, rfl⟩ := List.mem_map.mp hx
  unfold weight
  split
  · exact Int.le_of_lt (h o ho)
  · exact Int.le_refl 0

theorem Book.WF.orders_pos {b : Book} (hb : b.WF) : ∀ o ∈ b.orders, 0 < o.quantity := by
  intro o ho
  obtain ⟨q, n, hn, rfl⟩ := mem_orders.mp ho
  exact hb.quantity_pos q n hn

/-- A filter leaves no account with more than it had. -/
theorem Kept.total_le {keep : Order → Bool} {b b' : Book} (h : Kept keep b b')
    (hb : b.WF) (a : Account) : total a b'.orders ≤ total a b.orders := by
  have hsum := h.total_gone hb a
  have hgone : 0 ≤ total a (gone b b') :=
    total_nonneg a fun o ho => hb.orders_pos o (List.mem_of_mem_filter ho)
  omega

/-! ## Executions -/

/-- What matching took from the orders of an account. -/
def takenWeight (a : Account) (taken : List (Order × Int)) : Int :=
  (taken.map fun t => if t.1.account = a then t.2 else 0).sum

private theorem weight_reduce (a : Account) (n : Node) (traded : Int) :
    weight a (n.reduce traded).order + (if n.order.account = a then traded else 0) =
      weight a n.order := by
  have hacc : (n.reduce traded).order.account = n.order.account := rfl
  unfold weight
  rw [hacc]
  split
  · show n.order.quantity - traded + traded = _
    omega
  · rfl

/-- **Matching balances** on the resting side. -/
theorem matchNodes_weight (a : Account) (price : Int) (nodes : List Node)
    (remaining : Int) :
    queueWeight a (matchNodes price remaining nodes).queue +
        takenWeight a (matchNodes price remaining nodes).taken = queueWeight a nodes := by
  fun_induction matchNodes price remaining nodes with
  | case1 remaining => rfl
  | case2 remaining n rest h => simp [takenWeight]
  | case3 remaining n rest h hprice m ih =>
      have ih' : queueWeight a m.queue + takenWeight a m.taken = queueWeight a rest := ih
      simp only [queueWeight, List.map_cons, List.sum_cons] at ih' ⊢
      omega
  | case4 remaining n rest h hprice traded m hzero ih =>
      have ih' : queueWeight a m.queue + takenWeight a m.taken = queueWeight a rest := ih
      have hw := weight_reduce a n traded
      have hnone : weight a (n.reduce traded).order = 0 := by
        unfold weight
        split
        · exact hzero
        · rfl
      simp only [queueWeight, takenWeight, List.map_cons, List.sum_cons] at ih' ⊢
      omega
  | case5 remaining n rest h hprice traded m hzero ih =>
      have ih' : queueWeight a m.queue + takenWeight a m.taken = queueWeight a rest := ih
      have hw := weight_reduce a n traded
      simp only [queueWeight, takenWeight, List.map_cons, List.sum_cons] at ih' ⊢
      omega

section Fills

variable {o : Incoming} {a : Account}

/-- On its own side an execution is in the name of the incoming order. -/
private theorem fill_account_own (r : Order) (traded : Int) :
    (o.fill r traded).execution.account o.side = o.account := by
  cases h : o.side <;> simp [Incoming.fill, TradeExecution.account, Incoming.account, h]

/-- On the other side it is in the name of the resting order. -/
private theorem fill_account_opposite {r : Order} (traded : Int)
    (hside : r.side = o.side.opposite) (hinst : r.instrument = o.instrument)
    (hprice : r.price = o.price) :
    (o.fill r traded).execution.account o.side.opposite = r.account := by
  cases h : o.side <;>
    simp [Incoming.fill, TradeExecution.account, Order.account, Side.opposite, h, hside, hinst,
      hprice]

private theorem executedIn_own (hside : a.side = o.side) (taken : List (Order × Int)) :
    executedIn a (o.fillsOf taken) = if o.account = a then takenTotal taken else 0 := by
  induction taken with
  | nil => simp [executedIn, Incoming.fillsOf, takenTotal]
  | cons t taken ih =>
      have hq : (o.fill t.1 t.2).execution.quantity = t.2 := rfl
      simp only [executedIn, Incoming.fillsOf, takenTotal, List.map_cons, List.sum_cons, hside,
        fill_account_own, hq] at ih ⊢
      rw [ih]
      split
      · rfl
      · rfl

private theorem executedIn_opposite (hside : a.side = o.side.opposite)
    (taken : List (Order × Int))
    (hr : ∀ t ∈ taken, t.1.side = o.side.opposite ∧ t.1.instrument = o.instrument ∧
      t.1.price = o.price) :
    executedIn a (o.fillsOf taken) = takenWeight a taken := by
  induction taken with
  | nil => rfl
  | cons t taken ih =>
      obtain ⟨hs, hi, hp⟩ := hr t (by simp)
      have ih' := ih fun t ht => hr t (by simp [ht])
      have hq : (o.fill t.1 t.2).execution.quantity = t.2 := rfl
      simp only [executedIn, Incoming.fillsOf, takenWeight, List.map_cons, List.sum_cons, hside,
        fill_account_opposite _ hs hi hp, hq] at ih' ⊢
      rw [ih']

private theorem executedIn_other (hinst : a.instrument ≠ o.instrument)
    (taken : List (Order × Int)) : executedIn a (o.fillsOf taken) = 0 := by
  induction taken with
  | nil => rfl
  | cons t taken ih =>
      have hne : (o.fill t.1 t.2).execution.account a.side ≠ a := fun h =>
        hinst (congrArg Account.instrument h).symm
      simp only [executedIn, Incoming.fillsOf, List.map_cons, List.sum_cons, if_neg hne,
        Int.zero_add] at ih ⊢
      exact ih

end Fills

/-! ## The balance of one call -/

private theorem side_cases (s t : Side) : s = t ∨ s = t.opposite := by
  cases s <;> cases t <;> decide

private theorem queueWeight_append (a : Account) (xs ys : List Node) :
    queueWeight a (xs ++ ys) = queueWeight a xs + queueWeight a ys := by
  simp [queueWeight]

private theorem queueWeight_restNodes (a : Account) (addr : Nat) (o : Incoming)
    {remaining : Int} (h : 0 ≤ remaining) :
    queueWeight a (restNodes addr o remaining) =
      if o.account = a then remaining else 0 := by
  unfold restNodes
  split
  · have hacc : (o.rest remaining).account = o.account := rfl
    simp only [queueWeight, List.map_cons, List.map_nil, List.sum_cons, List.sum_nil, weight, hacc,
      Int.add_zero]
    rfl
  · have hzero : remaining = 0 := by omega
    simp [queueWeight, hzero]

/-- **`add_order` balances** on every account: the incoming one, the resting
ones, and all others. -/
theorem addOrder_balances {b : Book} (hb : b.WF) (a : Account) (ownerFd : Int)
    (instrument : Bytes) (side : Side) {quantity : Int} (price : Int) (hq : 0 < quantity) :
    total a (b.addOrder ownerFd instrument side quantity price).book.orders +
        executedIn a (b.addOrder ownerFd instrument side quantity price).fills =
      total a b.orders +
        if (b.incoming ownerFd instrument side price).account = a then quantity else 0 := by
  have hb' := addOrder_wf ownerFd instrument side quantity price hb
  rw [total_orders hb' a, total_orders hb a, addOrder_fills, addOrder_queue]
  set o := b.incoming ownerFd instrument side price with ho
  have hsplit := matchNodes_total price (b.queue ⟨side.opposite, instrument⟩) quantity
  have hrem := matchNodes_remaining_nonneg price (b.queue ⟨side.opposite, instrument⟩) quantity
    (by omega)
  by_cases hinst : a.instrument = instrument
  · rcases side_cases a.side side with hside | hside
    · -- the incoming side: the remainder is pushed, the rest was executed
      have hown : a.queueId = ⟨side, instrument⟩ := by
        simp only [Account.queueId, hside, hinst]
      have hne : a.queueId ≠ ⟨side.opposite, instrument⟩ := fun h =>
        opposite_ne side ((congrArg QueueId.side h).symm.trans hside)
      simp only [Book.matched]
      rw [if_neg hne, if_pos hown, queueWeight_append, queueWeight_restNodes _ _ _ hrem,
        executedIn_own (o := o) hside]
      split
      · omega
      · omega
    · -- the resting side: what the queue lost was executed
      have hopp : a.queueId = ⟨side.opposite, instrument⟩ := by
        simp only [Account.queueId, hside, hinst]
      have hacc : o.account ≠ a := fun h =>
        opposite_ne side (hside.symm.trans (congrArg Account.side h).symm)
      rw [if_pos hopp, if_neg hacc, executedIn_opposite (o := o) hside, hopp]
      · have := matchNodes_weight a price (b.queue ⟨side.opposite, instrument⟩) quantity
        simp only [Book.matched]
        omega
      · intro t ht
        obtain ⟨_, _, hprice, n, hn, hnt⟩ :=
          matchNodes_taken price _ quantity (hb.quantity_pos _) t ht
        obtain ⟨h1, h2⟩ := hb.own _ n hn
        rw [← hnt]
        exact ⟨h1, h2, by rw [hnt]; exact hprice⟩
  · -- another instrument
    have hacc : o.account ≠ a := fun h => hinst (congrArg Account.instrument h).symm
    rw [if_neg (fun h => hinst (congrArg QueueId.instrument h)),
      if_neg (fun h => hinst (congrArg QueueId.instrument h)), if_neg hacc,
      executedIn_other (o := o) hinst]

/-- **The step lemma.** -/
theorem apply_balances (order : HashOrder) {b : Book} (hb : b.WF) {op : Op}
    (hop : op.Valid) (a : Account) :
    total a (b.apply order op).orders + (b.entry order op).executed a +
        (b.entry order op).cancelledQuantity a + (b.entry order op).removedQuantity a =
      total a b.orders + (b.entry order op).submitted a := by
  cases op with
  | addOrder ownerFd instrument side quantity price =>
      have h := addOrder_balances hb a ownerFd instrument side price hop
      simp only [Book.apply, Book.entry, Entry.executed, Entry.cancelledQuantity,
        Entry.removedQuantity, Entry.submitted, Int.add_zero]
      exact h
  | cancelOrder orderId requesterFd =>
      simp only [Book.apply, Book.entry, Entry.executed, Entry.cancelledQuantity,
        Entry.removedQuantity, Entry.submitted, Int.add_zero]
      rcases cancelOrder_cases hb orderId requesterFd with ⟨hok, hbook, _⟩ | ⟨hok, _, hkept⟩
      · rw [hok, hbook]
        simp
      · rw [hok, if_pos rfl]
        exact hkept.total_gone hb a
  | removeOrdersOf ownerFd =>
      simp only [Book.apply, Book.entry, Entry.executed, Entry.cancelledQuantity,
        Entry.removedQuantity, Entry.submitted, Int.add_zero]
      exact (removeOrdersOf_kept order hb ownerFd).total_gone hb a

/-- **Quantity is conserved** on every account, over every run of the book. -/
theorem quantity_conserved (order : HashOrder) (ops : List Op)
    (hops : ∀ op ∈ ops, op.Valid) (a : Account) :
    sumOver (history order ops) (Entry.submitted a) =
      sumOver (history order ops) (Entry.executed a) +
        total a (bookAfter order ops).orders +
        sumOver (history order ops) (Entry.cancelledQuantity a) +
        sumOver (history order ops) (Entry.removedQuantity a) := by
  induction ops using List.reverseRecOn with
  | nil => rfl
  | append_singleton ops op ih =>
      have ih' := ih fun op hop => hops op (by simp [hop])
      have hstep := apply_balances order (bookAfter_wf order ops) (hops op (by simp)) a
      rw [history_concat, bookAfter_concat]
      simp only [sumOver, List.map_append, List.sum_append, List.map_cons, List.map_nil,
        List.sum_cons, List.sum_nil] at ih' ⊢
      omega

/-- A trader meets its own order, cancels one order and loses another. -/
theorem quantity_conserved_self_trade :
    let ops : List Op :=
      [.addOrder 5 (ascii "JNST") .sell 10 100, .addOrder 5 (ascii "JNST") .buy 4 100,
        .cancelOrder 1 5, .addOrder 5 (ascii "JNST") .sell 7 100, .removeOrdersOf 5]
    let a : Account := ⟨5, .sell, ascii "JNST", 100⟩
    (∀ op ∈ ops, op.Valid) ∧
      sumOver (history .stored ops) (Entry.submitted a) = 17 ∧
      sumOver (history .stored ops) (Entry.executed a) +
        total a (bookAfter .stored ops).orders +
        sumOver (history .stored ops) (Entry.cancelledQuantity a) +
        sumOver (history .stored ops) (Entry.removedQuantity a) = 17 := by
  intro ops a
  have hvalid : ∀ op ∈ ops, op.Valid := by decide
  have hsub : sumOver (history .stored ops) (Entry.submitted a) = 17 := by decide
  exact ⟨hvalid, hsub, (quantity_conserved .stored ops hvalid a).symm.trans hsub⟩

end SocketExchange.Trading.OrderBook
