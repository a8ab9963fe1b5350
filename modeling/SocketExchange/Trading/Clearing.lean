import Mathlib.Algebra.BigOperators.Ring.Finset
import SocketExchange.Trading.Ledger
import SocketExchange.Trading.Levels

/-!
# What a level trades

An execution takes the same quantity from both sides of a level, and the two sides never
rest at the same time.  So what a level trades is decided by totals: it is the smaller of
what was bid and what was offered there, less what was taken out again.  Who trades with
whom depends on the order of arrival; how much is traded does not.
-/

namespace SocketExchange.Trading.OrderBook

open SocketExchange.Lib
open SocketExchange.Lib.Bytes

/-! ## Totals of a level -/

/-- What an order counts for on one side of a level. -/
def Level.share (l : Level) (side : Side) (o : Order) : Int :=
  if o.side = side ∧ o.instrument = l.instrument ∧ o.price = l.price then o.quantity else 0

/-- The quantity of some orders on one side of a level. -/
def Level.quantity (l : Level) (side : Side) (orders : List Order) : Int :=
  (orders.map (l.share side)).sum

/-- The quantity of an order that is submitted on one side of a level. -/
def Op.offers (l : Level) (side : Side) : Op → Int
  | .addOrder _ instrument side' quantity price =>
      if side' = side ∧ instrument = l.instrument ∧ price = l.price then quantity else 0
  | _ => 0

/-- What is taken out of one side of a level without being executed. -/
def Entry.withdrawn (l : Level) (side : Side) : Entry → Int
  | .cancelled _ _ ok taken => if ok then l.quantity side taken else 0
  | .removed _ taken => l.quantity side taken
  | .added _ _ _ => 0

/-- What some executions trade at a level. -/
def Level.tradedIn (l : Level) (fills : List Fill) : Int :=
  (fills.map fun f =>
    if f.execution.instrument = l.instrument ∧ f.execution.price = l.price then
      f.execution.quantity
    else 0).sum

def Entry.traded (l : Level) : Entry → Int
  | .added _ _ fills => l.tradedIn fills
  | _ => 0

/-- Resting orders are those of the level's nodes. -/
theorem quantity_orders {b : Book} (hb : b.WF) (l : Level) (side : Side) :
    l.quantity side b.orders = restingQuantity (b.level l side) := by
  have hqueue := sum_orders_eq hb ⟨side, l.instrument⟩ (l.share side) fun o ho =>
    if_neg fun h => ho ⟨h.1, h.2.1⟩
  rw [Level.quantity, hqueue, Book.level]
  have hown : ∀ n ∈ b.queue ⟨side, l.instrument⟩,
      n.order.side = side ∧ n.order.instrument = l.instrument := hb.own _
  generalize b.queue ⟨side, l.instrument⟩ = nodes at hown
  induction nodes with
  | nil => rfl
  | cons n nodes ih =>
      obtain ⟨hside, hinstrument⟩ := hown n List.mem_cons_self
      have hrest := ih fun m hm => hown m (List.mem_cons_of_mem n hm)
      by_cases hprice : n.order.price = l.price
      · rw [levelOf_cons_of_eq hprice, restingQuantity, List.map_cons, List.sum_cons,
          List.map_cons, List.sum_cons, hrest, Level.share,
          if_pos ⟨hside, hinstrument, hprice⟩]
        rfl
      · rw [levelOf_cons_of_ne hprice, List.map_cons, List.sum_cons, hrest, Level.share,
          if_neg fun h => hprice h.2.2, Int.zero_add]

/-! ## Orders that are taken out -/

/-- The account of somebody on one side of a level. -/
def Level.account (l : Level) (side : Side) (fd : Int) : Account :=
  ⟨fd, side, l.instrument, l.price⟩

/-- An order counts for one account of its level. -/
theorem share_eq_sum (l : Level) (side : Side) {owners : Finset Int} {o : Order}
    (h : o.ownerFd ∈ owners) :
    l.share side o = ∑ fd ∈ owners, weight (l.account side fd) o := by
  by_cases hhere : o.side = side ∧ o.instrument = l.instrument ∧ o.price = l.price
  · have hweight : ∀ fd, weight (l.account side fd) o =
        if fd = o.ownerFd then o.quantity else 0 := by
      intro fd
      simp [weight, Order.account, Level.account, hhere, eq_comm]
    simp only [hweight, Finset.sum_ite_eq', if_pos h]
    exact if_pos hhere
  · have hweight : ∀ fd, weight (l.account side fd) o = 0 := by
      intro fd
      refine if_neg fun heq => hhere ?_
      exact ⟨congrArg Account.side heq, congrArg Account.instrument heq,
        congrArg Account.price heq⟩
    simp only [hweight, Finset.sum_const_zero]
    exact if_neg hhere

/-- A level is made up of its accounts. -/
theorem quantity_eq_sum (l : Level) (side : Side) {owners : Finset Int} {orders : List Order}
    (h : ∀ o ∈ orders, o.ownerFd ∈ owners) :
    l.quantity side orders = ∑ fd ∈ owners, total (l.account side fd) orders := by
  induction orders with
  | nil => simp [Level.quantity, total]
  | cons o orders ih =>
      have hrest := ih fun o' ho' => h o' (List.mem_cons_of_mem o ho')
      have hcons : ∀ a, total a (o :: orders) = weight a o + total a orders := by
        intro a
        rw [total, List.map_cons, List.sum_cons, total]
      simp only [hcons, Finset.sum_add_distrib, ← hrest,
        ← share_eq_sum l side (h o List.mem_cons_self)]
      rw [Level.quantity, List.map_cons, List.sum_cons, Level.quantity]

/-- **What is kept and what is gone** make up what was there. -/
theorem Kept.quantity_gone {keep : Order → Bool} {b b' : Book} (h : Kept keep b b') (hb : b.WF)
    (l : Level) (side : Side) :
    l.quantity side b'.orders + l.quantity side (gone b b') = l.quantity side b.orders := by
  have hold : ∀ o ∈ b.orders, o.ownerFd ∈ (b.orders.map Order.ownerFd).toFinset :=
    fun o ho => List.mem_toFinset.mpr (List.mem_map_of_mem ho)
  have hkept : ∀ o ∈ b'.orders, o ∈ b.orders := by
    intro o ho
    obtain ⟨q, n, hn, rfl⟩ := mem_orders.mp ho
    exact mem_orders.mpr ⟨q, n, (h.mem.mp hn).1, rfl⟩
  have hgone : ∀ o ∈ gone b b', o ∈ b.orders := fun o ho => List.mem_of_mem_filter ho
  rw [quantity_eq_sum l side hold, quantity_eq_sum l side fun o ho => hold o (hkept o ho),
    quantity_eq_sum l side fun o ho => hold o (hgone o ho), ← Finset.sum_add_distrib]
  exact Finset.sum_congr rfl fun fd _ => h.total_gone hb _

/-! ## The balance of one call -/

/-- Matching takes from the level what it trades. -/
theorem matchNodes_restingQuantity (price remaining : Int) (nodes : List Node) :
    restingQuantity (matchNodes price remaining nodes).queue +
      takenTotal (matchNodes price remaining nodes).taken = restingQuantity nodes := by
  fun_induction matchNodes price remaining nodes with
  | case1 remaining => rfl
  | case2 remaining n rest h => simp [takenTotal]
  | case3 remaining n rest h hprice m ih =>
      have ih' : restingQuantity m.queue + takenTotal m.taken = restingQuantity rest := ih
      simp only [restingQuantity, List.map_cons, List.sum_cons] at ih' ⊢
      omega
  | case4 remaining n rest h hprice traded m hzero ih =>
      have ih' : restingQuantity m.queue + takenTotal m.taken = restingQuantity rest := ih
      simp only [restingQuantity, takenTotal, List.map_cons, List.sum_cons] at ih' ⊢
      omega
  | case5 remaining n rest h hprice traded m hzero ih =>
      have ih' : restingQuantity m.queue + takenTotal m.taken = restingQuantity rest := ih
      simp only [restingQuantity, takenTotal, List.map_cons, List.sum_cons] at ih' ⊢
      simp only [Node.reduce]
      omega

/-- Executions are at the price and in the instrument of the order that made them. -/
theorem tradedIn_fillsOf (l : Level) (o : Incoming) (taken : List (Order × Int)) :
    l.tradedIn (o.fillsOf taken) =
      if o.instrument = l.instrument ∧ o.price = l.price then takenTotal taken else 0 := by
  induction taken with
  | nil => simp [Level.tradedIn, Incoming.fillsOf, takenTotal]
  | cons t taken ih =>
      have hfill : l.tradedIn (o.fillsOf (t :: taken)) =
          (if o.instrument = l.instrument ∧ o.price = l.price then t.2 else 0) +
            l.tradedIn (o.fillsOf taken) := rfl
      rw [hfill, ih]
      split
      · rfl
      · rfl

section AddOrder

variable {b : Book} (ownerFd : Int) (l : Level) (side : Side) {quantity : Int}

/-- An order at the level is executed or rests, and what it takes is taken from the other
side. -/
theorem addOrder_clears (hq : 0 < quantity) (side' : Side) :
    restingQuantity ((b.addOrder ownerFd l.instrument side quantity l.price).book.level l side') +
        l.tradedIn (b.addOrder ownerFd l.instrument side quantity l.price).fills =
      restingQuantity (b.level l side') + if side = side' then quantity else 0 := by
  have htraded : l.tradedIn (b.addOrder ownerFd l.instrument side quantity l.price).fills =
      takenTotal (b.matchedAt l side quantity).taken := by
    rw [addOrder_fills, tradedIn_fillsOf, (matched_eq_matchedAt b l side quantity).2]
    exact if_pos ⟨rfl, rfl⟩
  have hsplit := matchNodes_total l.price (b.level l side.opposite) quantity
  have hrem := matchNodes_remaining_nonneg l.price (b.level l side.opposite) quantity
    (Int.le_of_lt hq)
  have hopposite := matchNodes_restingQuantity l.price quantity (b.level l side.opposite)
  rw [htraded]
  by_cases hside : side = side'
  · subst hside
    have hrests : restingQuantity (b.level l side ++ restNodes b.nextAddr
        (b.incoming ownerFd l.instrument side l.price) (b.matchedAt l side quantity).remaining) =
        restingQuantity (b.level l side) + (b.matchedAt l side quantity).remaining := by
      have hnew := restingQuantity_restNodes b.nextAddr
        (b.incoming ownerFd l.instrument side l.price) hrem
      rw [restingQuantity, List.map_append, List.sum_append]
      exact congrArg _ hnew
    rw [level_addOrder_own, hrests, if_pos rfl]
    simp only [Book.matchedAt]
    omega
  · have hother : side' = side.opposite := by
      revert hside
      cases side <;> cases side' <;> decide
    subst hother
    rw [level_addOrder_opposite, if_neg (Ne.symm (opposite_ne side))]
    simp only [Book.matchedAt]
    omega

end AddOrder

/-- **The step lemma.**  On either side of a level, what rests changes by what is
submitted, traded and taken out. -/
theorem apply_clears (order : HashOrder) {b : Book} (hb : b.WF) {op : Op} (hop : op.Valid)
    (l : Level) (side : Side) :
    l.quantity side (b.apply order op).orders + (b.entry order op).traded l +
        (b.entry order op).withdrawn l side =
      l.quantity side b.orders + op.offers l side := by
  cases op with
  | addOrder ownerFd instrument side' quantity price =>
      have hb' := apply_wf order hb (.addOrder ownerFd instrument side' quantity price)
      rw [quantity_orders hb', quantity_orders hb]
      simp only [Book.apply, Book.entry, Entry.traded, Entry.withdrawn, Op.offers, Int.add_zero]
      by_cases hhere : instrument = l.instrument ∧ price = l.price
      · obtain ⟨rfl, rfl⟩ := hhere
        rw [addOrder_clears ownerFd l side' hop side]
        simp
      · have hnothing : l.tradedIn (b.addOrder ownerFd instrument side' quantity price).fills =
            0 := by
          rw [addOrder_fills, tradedIn_fillsOf]
          exact if_neg hhere
        rw [level_addOrder_elsewhere b ownerFd l side' quantity hhere side, hnothing,
          if_neg fun h => hhere h.2]
  | cancelOrder orderId requesterFd =>
      simp only [Book.apply, Book.entry, Entry.traded, Entry.withdrawn, Op.offers, Int.add_zero]
      rcases cancelOrder_cases hb orderId requesterFd with ⟨hok, hbook, _⟩ | ⟨hok, _, hkept⟩
      · rw [hok, hbook]
        simp
      · rw [hok, if_pos rfl]
        exact hkept.quantity_gone hb l side
  | removeOrdersOf ownerFd =>
      simp only [Book.apply, Book.entry, Entry.traded, Entry.withdrawn, Op.offers, Int.add_zero]
      exact (removeOrdersOf_kept order hb ownerFd).quantity_gone hb l side

/-! ## Whole runs -/

/-- What a run offers on one side of a level, and leaves there to be traded. -/
def offered (order : HashOrder) (ops : List Op) (l : Level) (side : Side) : Int :=
  (ops.map (Op.offers l side)).sum - sumOver (history order ops) (Entry.withdrawn l side)

/-- **The run lemma.** -/
theorem offered_eq (order : HashOrder) {ops : List Op} (hops : ∀ op ∈ ops, op.Valid) (l : Level)
    (side : Side) :
    offered order ops l side = sumOver (history order ops) (Entry.traded l) +
      l.quantity side (bookAfter order ops).orders := by
  induction ops using List.reverseRecOn with
  | nil => rfl
  | append_singleton ops op ih =>
      have ih' := ih fun op hop => hops op (by simp [hop])
      have hstep := apply_clears order (bookAfter_wf order ops) (hops op (by simp)) l side
      unfold offered at ih' ⊢
      rw [history_concat, bookAfter_concat]
      simp only [sumOver, List.map_append, List.sum_append, List.map_cons, List.map_nil,
        List.sum_cons, List.sum_nil] at ih' ⊢
      omega

theorem quantity_nonneg {b : Book} (hb : b.WF) (l : Level) (side : Side) :
    0 ≤ l.quantity side b.orders := by
  refine List.sum_nonneg fun x hx => ?_
  obtain ⟨o, ho, rfl⟩ := List.mem_map.mp hx
  unfold Level.share
  split
  · exact Int.le_of_lt (hb.orders_pos o ho)
  · exact Int.le_refl 0

/-- One side of a level is empty. -/
theorem quantity_eq_zero (order : HashOrder) (ops : List Op) (l : Level) :
    l.quantity .buy (bookAfter order ops).orders = 0 ∨
      l.quantity .sell (bookAfter order ops).orders = 0 := by
  have hb := bookAfter_wf order ops
  rw [quantity_orders hb, quantity_orders hb]
  cases hbuys : (bookAfter order ops).level l .buy with
  | nil => exact Or.inl rfl
  | cons m rest =>
      refine Or.inr ?_
      cases hsells : (bookAfter order ops).level l .sell with
      | nil => rfl
      | cons n rest' =>
          have hm : m ∈ (bookAfter order ops).level l .buy := by
            rw [hbuys]
            exact List.mem_cons_self
          have hn : n ∈ (bookAfter order ops).level l .sell := by
            rw [hsells]
            exact List.mem_cons_self
          obtain ⟨hm, hprice⟩ := List.mem_filter.mp hm
          obtain ⟨hn, hprice'⟩ := List.mem_filter.mp hn
          exact absurd ((of_decide_eq_true hprice).trans (of_decide_eq_true hprice').symm)
            (bookAfter_uncrossed order ops .buy l.instrument m hm n hn)

section Cleared

variable (order : HashOrder) {ops : List Op} (hops : ∀ op ∈ ops, op.Valid) (l : Level)

include hops

theorem traded_eq_min :
    sumOver (history order ops) (Entry.traded l) =
      min (offered order ops l .buy) (offered order ops l .sell) := by
  have hb := bookAfter_wf order ops
  have hbuy := offered_eq order hops l .buy
  have hsell := offered_eq order hops l .sell
  have hbuy0 := quantity_nonneg hb l .buy
  have hsell0 := quantity_nonneg hb l .sell
  have hzero := quantity_eq_zero order ops l
  omega

/-- What is left of a side is what the other side did not take. -/
theorem quantity_eq_max (side : Side) :
    l.quantity side (bookAfter order ops).orders =
      max 0 (offered order ops l side - offered order ops l side.opposite) := by
  have hside := offered_eq order hops l side
  have htraded := traded_eq_min order hops l
  cases side with
  | buy =>
      rw [Side.opposite]
      omega
  | sell =>
      rw [Side.opposite]
      omega

end Cleared

/-- **A level trades all that can be traded.**  After any run, the quantity executed at a
level is the smaller of what its two sides were offered, less what was cancelled or lost
with its owner; and what rests on a side is what it was offered beyond the other. -/
theorem level_trades_minimum (order : HashOrder) (ops : List Op) (hops : ∀ op ∈ ops, op.Valid)
    (l : Level) :
    sumOver (history order ops) (Entry.traded l) =
        min (offered order ops l .buy) (offered order ops l .sell) ∧
      ∀ side, l.quantity side (bookAfter order ops).orders =
        max 0 (offered order ops l side - offered order ops l side.opposite) :=
  ⟨traded_eq_min order hops l, quantity_eq_max order hops l⟩

/-- Two sellers and two buyers meet at one price, and one of the sellers cancels the rest of
its order. -/
private def fourAtOnePrice : List Op :=
  [.addOrder 5 (ascii "JNST") .sell 10 100, .addOrder 6 (ascii "JNST") .buy 4 100,
    .cancelOrder 1 5, .addOrder 7 (ascii "JNST") .buy 5 100,
    .addOrder 8 (ascii "JNST") .sell 3 100]

theorem level_trades_minimum_four :
    sumOver (history .stored fourAtOnePrice) (Entry.traded ⟨ascii "JNST", 100⟩) = 7 := by
  have hcleared := (level_trades_minimum .stored fourAtOnePrice (by decide)
    ⟨ascii "JNST", 100⟩).1
  rw [hcleared]
  decide

/-! ## The order of arrival -/

def Op.adds : Op → Bool
  | .addOrder _ _ _ _ _ => true
  | _ => false

/-- Nothing is taken out by submissions. -/
theorem offered_of_adds (order : HashOrder) {ops : List Op} (h : ∀ op ∈ ops, op.adds = true)
    (l : Level) (side : Side) : offered order ops l side = (ops.map (Op.offers l side)).sum := by
  have hnothing : ∀ b : Book, ((b.historyFrom order ops).map (Entry.withdrawn l side)).sum = 0 := by
    induction ops with
    | nil => exact fun b => rfl
    | cons op ops ih =>
        intro b
        have hrest := ih fun op' hop' => h op' (List.mem_cons_of_mem op hop')
        cases op with
        | addOrder ownerFd instrument side' quantity price =>
            rw [Book.historyFrom, List.map_cons, List.sum_cons, hrest]
            rfl
        | cancelOrder | removeOrdersOf => cases h _ List.mem_cons_self
  rw [offered, sumOver, history, hnothing, Int.sub_zero]

/-- **The order of arrival decides who trades, not how much.**  Let the same orders be
submitted in any two orders, with no cancels and nobody leaving.  Then every level has
traded the same quantity, and has the same quantity left on either side. -/
theorem volume_ignores_arrival (order order' : HashOrder) {ops ops' : List Op}
    (hperm : ops.Perm ops') (hvalid : ∀ op ∈ ops, op.Valid)
    (hadds : ∀ op ∈ ops, op.adds = true) (l : Level) :
    sumOver (history order ops) (Entry.traded l) =
        sumOver (history order' ops') (Entry.traded l) ∧
      ∀ side, l.quantity side (bookAfter order ops).orders =
        l.quantity side (bookAfter order' ops').orders := by
  have hback : ∀ op, op ∈ ops' → op ∈ ops := fun op hop => hperm.mem_iff.mpr hop
  have hoffered : ∀ side, offered order ops l side = offered order' ops' l side := by
    intro side
    rw [offered_of_adds order hadds, offered_of_adds order' fun op hop => hadds op (hback op hop)]
    exact (hperm.map _).sum_eq
  have hvalid' : ∀ op ∈ ops', op.Valid := fun op hop => hvalid op (hback op hop)
  refine ⟨?_, fun side => ?_⟩
  · rw [traded_eq_min order hvalid, traded_eq_min order' hvalid', hoffered, hoffered]
  · rw [quantity_eq_max order hvalid, quantity_eq_max order' hvalid', hoffered, hoffered]

/-- Three orders at one price: in one order of arrival the second seller is served in full,
in the other the first. -/
theorem volume_ignores_arrival_three :
    sumOver (history .stored
      [.addOrder 5 (ascii "JNST") .sell 4 9, .addOrder 6 (ascii "JNST") .sell 3 9,
        .addOrder 7 (ascii "JNST") .buy 5 9]) (Entry.traded ⟨ascii "JNST", 9⟩) =
    sumOver (history .stored
      [.addOrder 7 (ascii "JNST") .buy 5 9, .addOrder 6 (ascii "JNST") .sell 3 9,
        .addOrder 5 (ascii "JNST") .sell 4 9]) (Entry.traded ⟨ascii "JNST", 9⟩) :=
  (volume_ignores_arrival .stored .stored (by decide) (by decide) (by decide)
    ⟨ascii "JNST", 9⟩).1

end SocketExchange.Trading.OrderBook
