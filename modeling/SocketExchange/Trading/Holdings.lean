import SocketExchange.Trading.Market

/-!
# Keeping account of one's own orders

The messages about a fill name an instrument, a quantity and a price, but not the order
that was filled.  A trader who wants to know what it still has in the market must guess
which of its orders a fill belongs to.

The guess is easy: the oldest one on that side at that price.  Matching is first come,
first served, so a resting order is never overtaken by a younger one of the same owner;
and an incoming order that finds somebody to trade with cannot have older orders of its own
side beside it, because the book is never crossed.
-/

namespace SocketExchange.Trading.OrderBook

open SocketExchange.Lib
open SocketExchange.Lib.Bytes

/-! ## The account -/

/-- The order may be the one that was filled. -/
def Order.fits (x : Order) (side : Side) (instrument : Bytes) (price : Int) : Bool :=
  x.side = side ∧ x.instrument = instrument ∧ x.price = price

/-- An order after a fill: reduced, or gone. -/
def Order.filled (x : Order) (quantity : Int) : List Order :=
  if x.quantity = quantity then [] else [{ x with quantity := x.quantity - quantity }]

/-- A fill is put down to the oldest order that fits. -/
def fillFirst (side : Side) (instrument : Bytes) (price quantity : Int) :
    List Order → List Order
  | [] => []
  | x :: orders =>
      if x.fits side instrument price then x.filled quantity ++ orders
      else x :: fillFirst side instrument price quantity orders

/-- What `fd` makes of an execution as the party on one side of it. -/
def fillAs (fd party : Int) (side : Side) (e : TradeExecution) (orders : List Order) :
    List Order :=
  if fd = party then fillFirst side e.instrument e.price e.quantity orders else orders

/-- What `fd` makes of an execution.  It may be both parties, and is told of the purchase
first. -/
def fillOwn (fd : Int) (orders : List Order) (e : TradeExecution) : List Order :=
  fillAs fd e.sellerFd .sell e (fillAs fd e.buyerFd .buy e orders)

/-- The orders of one owner, oldest first. -/
def ownedBy (fd : Int) (orders : List Order) : List Order :=
  orders.filter fun x => x.ownerFd = fd

theorem ownedBy_append (fd : Int) (a b : List Order) :
    ownedBy fd (a ++ b) = ownedBy fd a ++ ownedBy fd b := List.filter_append ..

theorem mem_of_mem_ownedBy {fd : Int} {orders : List Order} {x : Order}
    (h : x ∈ ownedBy fd orders) : x ∈ orders := List.mem_of_mem_filter h

section FillFirst

variable (side : Side) (instrument : Bytes) (price quantity : Int)

/-- Orders that do not fit are passed over. -/
theorem fillFirst_append {before : List Order}
    (h : ∀ x ∈ before, x.fits side instrument price = false) (orders : List Order) :
    fillFirst side instrument price quantity (before ++ orders) =
      before ++ fillFirst side instrument price quantity orders := by
  induction before with
  | nil => rfl
  | cons x before ih =>
      rw [List.cons_append, fillFirst, h x (by simp), if_neg Bool.false_ne_true,
        ih fun y hy => h y (by simp [hy]), List.cons_append]

theorem fillFirst_cons {x : Order} (h : x.fits side instrument price = true)
    (orders : List Order) :
    fillFirst side instrument price quantity (x :: orders) = x.filled quantity ++ orders := by
  rw [fillFirst, if_pos h]

end FillFirst

/-! ## One incoming order -/

/-- What an incoming order gets from a row of orders. -/
def takingsFrom (o : Incoming) (orders : List Order) (quantity : Int) : List (Order × Int) :=
  Market.takings { orders := orders } o quantity

section Incoming

variable (o : Incoming)

/-- An order on the other side of an incoming one. -/
def Incoming.meets (x : Order) : Bool := x.fits o.side.opposite o.instrument o.price

/-- An order on the same side as an incoming one. -/
def Incoming.joins (x : Order) : Bool := x.fits o.side o.instrument o.price

theorem takings_eq (m : Market) (quantity : Int) :
    m.takings o quantity = takingsFrom o m.orders quantity := rfl

theorem counterparties_eq (orders : List Order) :
    Market.counterparties { orders := orders } o = orders.filter o.meets := rfl

theorem takingsFrom_skip {x : Order} (h : o.meets x = false) (orders : List Order)
    (quantity : Int) : takingsFrom o (x :: orders) quantity = takingsFrom o orders quantity := by
  rw [takingsFrom, takingsFrom, Market.takings, Market.takings, counterparties_eq,
    counterparties_eq, List.filter_cons_of_neg (by simp [h])]

theorem takingsFrom_of_nonpos {quantity : Int} (h : quantity ≤ 0) (orders : List Order) :
    takingsFrom o orders quantity = [] := by
  rw [takingsFrom, Market.takings, Greedy.draw_of_nonpos h, List.zip_nil_right]

theorem takingsFrom_take {x : Order} (h : o.meets x = true) {quantity : Int} (hpos : 0 < quantity)
    (orders : List Order) :
    takingsFrom o (x :: orders) quantity =
      (x, min quantity x.quantity) ::
        takingsFrom o orders (quantity - min quantity x.quantity) := by
  rw [takingsFrom, takingsFrom, Market.takings, Market.takings, counterparties_eq,
    counterparties_eq, List.filter_cons_of_pos h, List.map_cons, Greedy.draw_cons hpos,
    List.zip_cons_cons]

theorem mem_takingsFrom {orders : List Order} {quantity : Int} {t : Order × Int}
    (h : t ∈ takingsFrom o orders quantity) : t.1 ∈ orders ∧ o.meets t.1 = true := by
  rw [takingsFrom, Market.takings, counterparties_eq] at h
  exact List.mem_filter.mp (List.of_mem_zip h).1

theorem joins_of_meets {x : Order} (h : o.meets x = true) : o.joins x = false := by
  have hside : x.side = o.side.opposite := by
    have := of_decide_eq_true h
    exact this.1
  rw [Incoming.joins, Order.fits, hside]
  exact decide_eq_false fun hsame => opposite_ne o.side hsame.1

/-- A reduced order is still where it was. -/
theorem mem_filled {x y : Order} {quantity : Int} (h : y ∈ x.filled quantity) :
    y.ownerFd = x.ownerFd ∧ ∀ side instrument price,
      y.fits side instrument price = x.fits side instrument price := by
  unfold Order.filled at h
  split at h
  · cases h
  · rw [List.mem_singleton.mp h]
    exact ⟨rfl, fun _ _ _ => rfl⟩

theorem ownedBy_filled_of_eq {fd : Int} {x : Order} (h : x.ownerFd = fd) (quantity : Int) :
    ownedBy fd (x.filled quantity) = x.filled quantity :=
  List.filter_eq_self.mpr fun _ hy => decide_eq_true ((mem_filled hy).1.trans h)

theorem ownedBy_filled_of_ne {fd : Int} {x : Order} (h : x.ownerFd ≠ fd) (quantity : Int) :
    ownedBy fd (x.filled quantity) = [] :=
  List.filter_eq_nil_iff.mpr fun _ hy => by simpa [(mem_filled hy).1] using h

section Fill

variable (fd : Int) {before orders : List Order} (traded : Int)

/-- The fill of the order that was met. -/
theorem fill_met {x : Order} (hmeets : o.meets x = true)
    (hbefore : ∀ y ∈ before, o.meets y = false) (after : List Order) :
    fillAs fd x.ownerFd o.side.opposite (o.fill x traded).execution
        (before ++ ownedBy fd (x :: orders) ++ after) =
      before ++ ownedBy fd (x.filled traded ++ orders) ++ after := by
  have hfill : ∀ held, fillAs fd x.ownerFd o.side.opposite (o.fill x traded).execution held =
      if fd = x.ownerFd then fillFirst o.side.opposite o.instrument o.price traded held
      else held := fun _ => rfl
  rw [hfill, ownedBy_append]
  by_cases hown : x.ownerFd = fd
  · have hhead : ownedBy fd (x :: orders) = x :: ownedBy fd orders :=
      List.filter_cons_of_pos (decide_eq_true hown)
    rw [if_pos hown.symm, hhead, List.append_assoc, fillFirst_append _ _ _ _ hbefore,
      List.cons_append, fillFirst_cons _ _ _ _ hmeets, ownedBy_filled_of_eq hown]
    simp only [List.append_assoc]
  · have hhead : ownedBy fd (x :: orders) = ownedBy fd orders :=
      List.filter_cons_of_neg (by simpa using hown)
    rw [if_neg fun heq => hown heq.symm, hhead, ownedBy_filled_of_ne hown, List.nil_append]

/-- The fill of the incoming order. -/
theorem fill_incoming (x : Order) (hbefore : ∀ y ∈ before, o.joins y = false) (remaining : Int) :
    fillAs fd o.ownerFd o.side (o.fill x traded).execution
        (before ++ ownedBy fd [o.rest remaining]) =
      before ++ ownedBy fd ((o.rest remaining).filled traded) := by
  have hfill : ∀ held, fillAs fd o.ownerFd o.side (o.fill x traded).execution held =
      if fd = (o.rest remaining).ownerFd then
        fillFirst o.side o.instrument o.price traded held
      else held := fun _ => rfl
  rw [hfill]
  by_cases hown : (o.rest remaining).ownerFd = fd
  · have hhead : ownedBy fd [o.rest remaining] = [o.rest remaining] :=
      List.filter_cons_of_pos (decide_eq_true hown)
    have hfits : (o.rest remaining).fits o.side o.instrument o.price = true :=
      decide_eq_true ⟨rfl, rfl, rfl⟩
    rw [if_pos hown.symm, hhead, fillFirst_append _ _ _ _ hbefore,
      fillFirst_cons _ _ _ _ hfits, ownedBy_filled_of_eq hown, List.append_nil]
  · have hhead : ownedBy fd [o.rest remaining] = [] :=
      List.filter_cons_of_neg (by simpa using hown)
    rw [if_neg fun heq => hown heq.symm, hhead, ownedBy_filled_of_ne hown]

/-- **A fill is put down to the right orders**, by whoever sent the incoming one and by
whoever it met. -/
theorem fillOwn_fill {x : Order} (hmeets : o.meets x = true)
    (hbefore : ∀ y ∈ before, o.meets y = false ∧ o.joins y = false)
    (horders : ∀ y ∈ orders, o.joins y = false) (remaining : Int) :
    fillOwn fd (before ++ ownedBy fd (x :: orders) ++ ownedBy fd [o.rest remaining])
        (o.fill x traded).execution =
      before ++ ownedBy fd (x.filled traded ++ orders) ++
        ownedBy fd ((o.rest remaining).filled traded) := by
  have hmet : ∀ after, fillAs fd x.ownerFd o.side.opposite (o.fill x traded).execution
      (before ++ ownedBy fd (x :: orders) ++ after) =
        before ++ ownedBy fd (x.filled traded ++ orders) ++ after :=
    fill_met o fd traded hmeets fun y hy => (hbefore y hy).1
  have hjoins := joins_of_meets o hmeets
  have hfirst : ∀ y ∈ before ++ ownedBy fd (x :: orders), o.joins y = false := by
    intro y hy
    rcases List.mem_append.mp hy with hy | hy
    · exact (hbefore y hy).2
    · rcases List.mem_cons.mp (mem_of_mem_ownedBy hy) with rfl | hy
      · exact hjoins
      · exact horders y hy
  have hlast : ∀ y ∈ before ++ ownedBy fd (x.filled traded ++ orders), o.joins y = false := by
    intro y hy
    rcases List.mem_append.mp hy with hy | hy
    · exact (hbefore y hy).2
    · rcases List.mem_append.mp (mem_of_mem_ownedBy hy) with hy | hy
      · exact ((mem_filled hy).2 _ _ _).trans hjoins
      · exact horders y hy
  -- the buyer's part is put down first
  cases hside : o.side with
  | buy =>
      have hparts : ∀ held, fillOwn fd held (o.fill x traded).execution =
          fillAs fd x.ownerFd o.side.opposite (o.fill x traded).execution
            (fillAs fd o.ownerFd o.side (o.fill x traded).execution held) := by
        intro held
        simp only [fillOwn, Incoming.fill, hside, Side.opposite]
      rw [hparts, fill_incoming o fd traded x hfirst, hmet]
  | sell =>
      have hparts : ∀ held, fillOwn fd held (o.fill x traded).execution =
          fillAs fd o.ownerFd o.side (o.fill x traded).execution
            (fillAs fd x.ownerFd o.side.opposite (o.fill x traded).execution held) := by
        intro held
        simp only [fillOwn, Incoming.fill, hside, Side.opposite]
      rw [hparts, hmet, fill_incoming o fd traded x hlast]

end Fill

/-! ### All its fills -/

/-- What is left of the incoming order after a fill. -/
theorem rest_filled {quantity traded : Int} (h : traded ≤ quantity) :
    (o.rest quantity).filled traded = restOrders o (quantity - traded) := by
  unfold Order.filled restOrders
  show (if quantity = traded then [] else [o.rest (quantity - traded)]) = _
  by_cases heq : quantity = traded
  · rw [if_pos heq, if_neg (by omega)]
  · rw [if_neg heq, if_pos (by omega)]

theorem less_cons_self {x : Order} {traded : Int} {takings : List (Order × Int)}
    (h : ∀ t ∈ takings, t.1.id ≠ x.id) :
    (x.less ((x, traded) :: takings)).toList = x.filled traded := by
  have htotal : filledOf x.id ((x, traded) :: takings) = traded := by
    rw [filledOf, if_pos rfl, filledOf_of_fresh h, Int.add_zero]
  rw [Order.less, htotal, Order.filled]
  split <;> rfl

theorem less_cons_other {x y : Order} {traded : Int} (h : x.id ≠ y.id)
    (takings : List (Order × Int)) : y.less ((x, traded) :: takings) = y.less takings := by
  rw [Order.less, Order.less, filledOf, if_neg h, Int.zero_add]

theorem filterMap_less_nil {orders : List Order} (hpos : ∀ x ∈ orders, 0 < x.quantity) :
    orders.filterMap (Order.less []) = orders := by
  have hkeep : ∀ x ∈ orders, x.less [] = some x := fun x hx => less_of_fresh rfl (hpos x hx)
  rw [List.filterMap_congr hkeep, List.filterMap_some]

/-- **Every fill is put down to the right order.**  What has been passed over is in
`before`. -/
theorem foldl_fillOwn (fd : Int) {orders : List Order}
    (hsorted : orders.Pairwise fun x y => x.id < y.id) (hpos : ∀ x ∈ orders, 0 < x.quantity)
    (hjoins : ∀ x ∈ orders, o.joins x = false) (before : List Order) {quantity : Int}
    (hquantity : 0 ≤ quantity)
    (hbefore : ∀ x ∈ before, o.joins x = false ∧ (0 < quantity → o.meets x = false)) :
    ((o.fillsOf (takingsFrom o orders quantity)).map Fill.execution).foldl (fillOwn fd)
        (before ++ ownedBy fd orders ++ ownedBy fd (restOrders o quantity)) =
      before ++ ownedBy fd (orders.filterMap (Order.less (takingsFrom o orders quantity))) ++
        ownedBy fd (restOrders o (quantity - takenTotal (takingsFrom o orders quantity))) := by
  induction orders generalizing before quantity with
  | nil =>
      have hnone : takingsFrom o [] quantity = [] := rfl
      rw [hnone]
      simp [takenTotal, Incoming.fillsOf]
  | cons x orders ih =>
      by_cases hdone : quantity ≤ 0
      · rw [takingsFrom_of_nonpos o hdone, filterMap_less_nil hpos]
        simp [takenTotal, Incoming.fillsOf]
      have hneeds : 0 < quantity := by omega
      obtain ⟨hfirst, hrest⟩ := List.pairwise_cons.mp hsorted
      have hpos' : ∀ y ∈ orders, 0 < y.quantity := fun y hy => hpos y (by simp [hy])
      have hjoins' : ∀ y ∈ orders, o.joins y = false := fun y hy => hjoins y (by simp [hy])
      have hfresh : ∀ quantity', ∀ t ∈ takingsFrom o orders quantity', t.1.id ≠ x.id := by
        intro quantity' t ht
        have hlt := hfirst t.1 (mem_takingsFrom o ht).1
        omega
      cases hmeets : o.meets x with
      | false =>
          have hless : x.less (takingsFrom o orders quantity) = some x :=
            less_of_fresh (filledOf_of_fresh (hfresh quantity)) (hpos x (by simp))
          have hsplit : ∀ l, ownedBy fd (x :: l) = ownedBy fd [x] ++ ownedBy fd l :=
            fun l => ownedBy_append fd [x] l
          rw [takingsFrom_skip o hmeets, List.filterMap_cons_some hless, hsplit orders,
            hsplit (orders.filterMap _), ← List.append_assoc, ← List.append_assoc]
          refine ih hrest hpos' hjoins' _ hquantity fun y hy => ?_
          rcases List.mem_append.mp hy with hy | hy
          · exact hbefore y hy
          · rw [List.mem_singleton.mp (mem_of_mem_ownedBy hy)]
            exact ⟨hjoins x (by simp), fun _ => hmeets⟩
      | true =>
          have hrow := takingsFrom_take o hmeets hneeds orders
          set traded := min quantity x.quantity
          have hle : traded ≤ quantity := min_le_left _ _
          have hless : (x :: orders).filterMap (Order.less (takingsFrom o (x :: orders) quantity)) =
              x.filled traded ++
                orders.filterMap (Order.less (takingsFrom o orders (quantity - traded))) := by
            have hothers : ∀ y ∈ orders,
                y.less ((x, traded) :: takingsFrom o orders (quantity - traded)) =
                  y.less (takingsFrom o orders (quantity - traded)) := by
              intro y hy
              have hlt := hfirst y hy
              exact less_cons_other (by omega) _
            rw [hrow, ← less_cons_self (hfresh (quantity - traded)), ← List.filterMap_congr hothers]
            cases hx : x.less ((x, traded) :: takingsFrom o orders (quantity - traded)) with
            | none => exact List.filterMap_cons_none hx
            | some y => exact List.filterMap_cons_some hx
          have htotal : quantity - takenTotal (takingsFrom o (x :: orders) quantity) =
              quantity - traded - takenTotal (takingsFrom o orders (quantity - traded)) := by
            rw [hrow, takenTotal, takenTotal, List.map_cons, List.sum_cons]
            omega
          have hincoming : restOrders o quantity = [o.rest quantity] := if_pos hneeds
          have hmore : ∀ y ∈ before, o.meets y = false ∧ o.joins y = false :=
            fun y hy => ⟨(hbefore y hy).2 hneeds, (hbefore y hy).1⟩
          have hexecutions :
              (o.fillsOf (takingsFrom o (x :: orders) quantity)).map Fill.execution =
                (o.fill x traded).execution ::
                  (o.fillsOf (takingsFrom o orders (quantity - traded))).map Fill.execution := by
            rw [hrow]
            rfl
          rw [hless, htotal, hexecutions, List.foldl_cons, hincoming,
            fillOwn_fill o fd traded hmeets hmore hjoins', rest_filled o hle, ownedBy_append,
            ownedBy_append, ← List.append_assoc, ← List.append_assoc]
          refine ih hrest hpos' hjoins' _ (by omega) fun y hy => ?_
          rcases List.mem_append.mp hy with hy | hy
          · exact ⟨(hbefore y hy).1, fun _ => (hbefore y hy).2 hneeds⟩
          · have hy := mem_of_mem_ownedBy hy
            refine ⟨((mem_filled hy).2 _ _ _).trans (hjoins x (by simp)), fun hstill => ?_⟩
            -- something is left of `x`, so the demand is met
            unfold Order.filled at hy
            split at hy
            · cases hy
            · omega

end Incoming

/-! ## The whole market -/

/-- A market as it is behind a book that is in order and not crossed. -/
def Market.Sound (m : Market) : Prop := ∃ b : Book, Represents b m ∧ b.Uncrossed

theorem sound_empty : Market.Sound {} :=
  ⟨Book.empty, represents_empty, bookAfter_uncrossed .stored []⟩

/-- An order is an old one, perhaps reduced, or what is left of the new one. -/
theorem Market.mem_addOrder {m : Market} {o : Incoming} {quantity : Int} {y : Order}
    (h : y ∈ (m.addOrder o quantity).orders) :
    (∃ z ∈ m.orders, y.id = z.id ∧ y.ownerFd = z.ownerFd) ∨
      (y.id = o.orderId ∧ y.ownerFd = o.ownerFd) := by
  rcases List.mem_append.mp h with h | h
  · obtain ⟨z, hz, hless⟩ := List.mem_filterMap.mp h
    refine Or.inl ⟨z, hz, ?_⟩
    unfold Order.less at hless
    split at hless
    · cases hless
    · rw [← Option.some.inj hless]
      exact ⟨rfl, rfl⟩
  · unfold restOrders at h
    split at h
    · rw [List.mem_singleton.mp h]
      exact Or.inr ⟨rfl, rfl⟩
    · cases h

section Sound

variable {m : Market} (h : m.Sound)

include h

theorem Market.Sound.addOrder (ownerFd : Int) (instrument : Bytes) (side : Side)
    (quantity price : Int) :
    (m.addOrder (m.incoming ownerFd instrument side price) quantity).Sound := by
  obtain ⟨b, hrep, huncrossed⟩ := h
  exact ⟨_, hrep.addOrder ownerFd instrument side quantity price,
    addOrder_uncrossed hrep.wf huncrossed ownerFd instrument side quantity price⟩

theorem Market.Sound.cancelOrder (orderId requesterFd : Int) :
    (m.step (.cancelOrder orderId requesterFd)).Sound := by
  obtain ⟨b, hrep, huncrossed⟩ := h
  exact ⟨_, hrep.cancelOrder orderId requesterFd,
    (cancelOrder_shrunk hrep.wf orderId requesterFd).uncrossed huncrossed⟩

theorem Market.Sound.removeOrdersOf (fd : Int) : (m.step (.removeOrdersOf fd)).Sound := by
  obtain ⟨b, hrep, huncrossed⟩ := h
  exact ⟨_, hrep.removeOrdersOf .stored fd,
    ((removeOrdersOf_kept .stored hrep.wf fd).shrunk hrep.wf).uncrossed huncrossed⟩

theorem Market.Sound.quantity_pos : ∀ x ∈ m.orders, 0 < x.quantity := by
  obtain ⟨b, hrep, _⟩ := h
  intro x hx
  obtain ⟨n, hn, rfl⟩ := hrep.mem.mp hx
  exact hrep.wf.quantity_pos _ n hn

theorem Market.Sound.sorted : m.orders.Pairwise fun x y => x.id < y.id := by
  obtain ⟨b, hrep, _⟩ := h
  exact hrep.sorted

theorem Market.Sound.id_lt : ∀ x ∈ m.orders, x.id < m.nextOrderId := by
  obtain ⟨b, hrep, _⟩ := h
  intro x hx
  obtain ⟨n, hn, rfl⟩ := hrep.mem.mp hx
  rw [← hrep.nextOrderId]
  exact hrep.wf.id_lt _ n hn

/-- Nobody waits beside an order that finds somebody to trade with. -/
theorem Market.Sound.alone {o : Incoming} {x : Order} (hx : x ∈ m.orders)
    (hmeets : o.meets x = true) : ∀ y ∈ m.orders, o.joins y = false := by
  obtain ⟨b, hrep, huncrossed⟩ := h
  intro y hy
  obtain ⟨hside, hinstrument, hprice⟩ := of_decide_eq_true hmeets
  refine decide_eq_false fun hfits => ?_
  obtain ⟨hside', hinstrument', hprice'⟩ := hfits
  obtain ⟨n, hn, rfl⟩ := hrep.mem.mp hx
  obtain ⟨k, hk, rfl⟩ := hrep.mem.mp hy
  rw [Order.queueId, hside, hinstrument] at hn
  rw [Order.queueId, hside', hinstrument'] at hk
  exact huncrossed o.side o.instrument k hk n hn (hprice'.trans hprice.symm)

/-- **The account of an owner is kept by its fills**, for the sender of an order, for
those it meets and for everybody else. -/
theorem Market.Sound.owned_addOrder (fd ownerFd : Int) (instrument : Bytes) (side : Side)
    {quantity : Int} (hpos : 0 < quantity) (price : Int) :
    let o := m.incoming ownerFd instrument side price
    ((o.fillsOf (m.takings o quantity)).map Fill.execution).foldl (fillOwn fd)
        (ownedBy fd m.orders ++ ownedBy fd [o.rest quantity]) =
      ownedBy fd (m.addOrder o quantity).orders := by
  intro o
  have hincoming : [o.rest quantity] = restOrders o quantity := (if_pos hpos).symm
  have horders : (m.addOrder o quantity).orders =
      m.orders.filterMap (Order.less (takingsFrom o m.orders quantity)) ++
        restOrders o (quantity - takenTotal (takingsFrom o m.orders quantity)) := rfl
  rw [takings_eq, horders, ownedBy_append, hincoming]
  by_cases hmeets : ∃ x ∈ m.orders, o.meets x = true
  · obtain ⟨x, hx, hmeets⟩ := hmeets
    have hall := foldl_fillOwn o fd h.sorted h.quantity_pos (h.alone hx hmeets) []
      (le_of_lt hpos) (by simp)
    simpa only [List.nil_append] using hall
  · have hnone : takingsFrom o m.orders quantity = [] := by
      refine List.eq_nil_iff_forall_not_mem.mpr fun t ht => hmeets ?_
      exact ⟨t.1, mem_takingsFrom o ht⟩
    rw [hnone, filterMap_less_nil h.quantity_pos]
    simp [takenTotal, Incoming.fillsOf]

end Sound

end SocketExchange.Trading.OrderBook
