import SocketExchange.Trading.Holdings

/-!
# An order that never trades

An order may rest in the book for a long time, be walked past by everybody and be
cancelled in the end.  Whether it was there makes no difference to anyone: without it the
same executions are made by the same calls, and the same orders rest in the same places.

What does differ is the numbering.  Every order submitted later has a smaller id, and a
cancel that named the order has nothing to name any more.  It is replaced by one for the
id 0, which no order ever has.

The reason is in the matching.  An incoming order that reaches the one in question trades
with it, so if that never happens, every demand is met by those before it.
-/

namespace SocketExchange.Trading.OrderBook

open SocketExchange.Lib
open SocketExchange.Lib.Bytes

/-! ## The numbering -/

/-- The id an order has if the order `k` is never submitted. -/
def renumber (k id : Int) : Int := if id = k then 0 else if k < id then id - 1 else id

def Order.renumber (k : Int) (x : Order) : Order := { x with id := OrderBook.renumber k x.id }

/-- A call as it is made if the order `k` is never submitted. -/
def Op.without (k : Int) : Op → Op
  | .cancelOrder orderId requesterFd => .cancelOrder (renumber k orderId) requesterFd
  | op => op

/-- The orders without `k`. -/
def without (k : Int) (orders : List Order) : List Order :=
  (orders.filter fun x => x.id ≠ k).map (Order.renumber k)

theorem renumber_inj {k a b : Int} (hk : 0 < k) (ha : 0 < a) (hne : a ≠ k) :
    renumber k a = renumber k b ↔ a = b := by
  unfold renumber
  rw [if_neg hne]
  constructor
  · intro h
    split at h <;> split at h <;> omega
  · rintro rfl
    rw [if_neg hne]

theorem renumber_lt {k id : Int} (h : id < k) : renumber k id = id := by
  unfold renumber
  rw [if_neg (by omega), if_neg (by omega)]

theorem without_append (k : Int) (a b : List Order) :
    without k (a ++ b) = without k a ++ without k b := by
  rw [without, List.filter_append, List.map_append]
  rfl

theorem without_cons_self {k : Int} {x : Order} (h : x.id = k) (orders : List Order) :
    without k (x :: orders) = without k orders := by
  rw [without, List.filter_cons_of_neg (by simpa using h)]
  rfl

theorem without_cons_other {k : Int} {x : Order} (h : x.id ≠ k) (orders : List Order) :
    without k (x :: orders) = x.renumber k :: without k orders := by
  rw [without, List.filter_cons_of_pos (by simpa using h), List.map_cons]
  rfl

/-- Older orders keep their ids. -/
theorem without_older {k : Int} {orders : List Order} (h : ∀ x ∈ orders, x.id < k) :
    without k orders = orders := by
  have hall : (orders.filter fun x => x.id ≠ k) = orders := by
    refine List.filter_eq_self.mpr fun x hx => ?_
    have hlt := h x hx
    simp only [decide_eq_true_eq]
    omega
  have hsame : ∀ x ∈ orders, x.renumber k = x := fun x hx =>
    congrArg (fun id => Order.mk id _ _ _ _ _) (renumber_lt (h x hx))
  rw [without, hall, List.map_congr_left hsame, List.map_id']

/-- What rests of the order itself is left out. -/
theorem without_restOrders (o : Incoming) (remaining : Int) :
    without o.orderId (restOrders o remaining) = [] := by
  unfold restOrders
  split
  · exact without_cons_self (rfl : (o.rest remaining).id = o.orderId) []
  · rfl

theorem without_filter (k : Int) (orders : List Order) (q : QueueId) :
    (without k orders).filter (fun x => x.queueId = q) =
      without k (orders.filter fun x => x.queueId = q) := by
  rw [without, without, List.filter_map, List.filter_comm]
  rfl

/-! ## Matching -/

/-- Two incoming orders that differ in their ids. -/
structure SameOrder (o o' : Incoming) : Prop where
  owner : o'.ownerFd = o.ownerFd
  instrument : o'.instrument = o.instrument
  side : o'.side = o.side
  price : o'.price = o.price

/-- Takings of renumbered orders. -/
def renumberTakings (k : Int) (takings : List (Order × Int)) : List (Order × Int) :=
  takings.map fun t => (t.1.renumber k, t.2)

section Matching

variable {o o' : Incoming} (h : SameOrder o o') {k : Int}

include h

theorem SameOrder.meets (x : Order) : o'.meets (x.renumber k) = o.meets x := by
  unfold Incoming.meets
  rw [h.side, h.instrument, h.price]
  rfl

/-- **Whoever is not traded with is not missed.** -/
theorem SameOrder.takings {orders : List Order} {quantity : Int}
    (hk : ∀ t ∈ takingsFrom o orders quantity, t.1.id ≠ k) :
    takingsFrom o' (without k orders) quantity =
      renumberTakings k (takingsFrom o orders quantity) := by
  induction orders generalizing quantity with
  | nil => rfl
  | cons x orders ih =>
      by_cases hdone : quantity ≤ 0
      · rw [takingsFrom_of_nonpos o hdone, takingsFrom_of_nonpos o' hdone]
        rfl
      have hneeds : 0 < quantity := by omega
      cases hmeets : o.meets x with
      | false =>
          rw [takingsFrom_skip o hmeets] at hk ⊢
          by_cases hx : x.id = k
          · rw [without_cons_self hx, ih hk]
          · have hmeets' : o'.meets (x.renumber k) = false := (h.meets x).trans hmeets
            rw [without_cons_other hx, takingsFrom_skip o' hmeets', ih hk]
      | true =>
          rw [takingsFrom_take o hmeets hneeds] at hk ⊢
          have hx : x.id ≠ k := hk _ List.mem_cons_self
          have hmeets' : o'.meets (x.renumber k) = true := (h.meets x).trans hmeets
          rw [without_cons_other hx, takingsFrom_take o' hmeets' hneeds]
          exact congrArg (_ :: ·) (ih fun t ht => hk t (List.mem_cons_of_mem _ ht))

theorem SameOrder.executions (takings : List (Order × Int)) :
    (o'.fillsOf (renumberTakings k takings)).map Fill.execution =
      (o.fillsOf takings).map Fill.execution := by
  rw [Incoming.fillsOf, Incoming.fillsOf, renumberTakings, List.map_map, List.map_map,
    List.map_map]
  refine List.map_congr_left fun t _ => ?_
  simp only [Function.comp_apply, Incoming.fill, h.side, h.owner, h.instrument, h.price]
  rfl

omit h in
/-- An order loses as much as it did under its other id. -/
theorem filledOf_renumber (hk : 0 < k) {takings : List (Order × Int)}
    (hids : ∀ t ∈ takings, 0 < t.1.id ∧ t.1.id ≠ k) (id : Int) :
    filledOf (renumber k id) (renumberTakings k takings) = filledOf id takings := by
  induction takings with
  | nil => rfl
  | cons t takings ih =>
      have hrest := ih fun t' ht' => hids t' (List.mem_cons_of_mem _ ht')
      obtain ⟨hpos, hne⟩ := hids t List.mem_cons_self
      have hsame : (renumber k t.1.id = renumber k id) ↔ t.1.id = id := renumber_inj hk hpos hne
      show (if renumber k t.1.id = renumber k id then t.2 else 0) +
        filledOf (renumber k id) (renumberTakings k takings) = _
      rw [hrest, filledOf]
      simp only [hsame]

omit h in
theorem less_renumber (hk : 0 < k) {takings : List (Order × Int)}
    (hids : ∀ t ∈ takings, 0 < t.1.id ∧ t.1.id ≠ k) (x : Order) :
    (x.renumber k).less (renumberTakings k takings) =
      (x.less takings).map (Order.renumber k) := by
  have hfilled := filledOf_renumber hk hids x.id
  unfold Order.less
  show (if x.quantity = filledOf (renumber k x.id) _ then none else some _) = _
  rw [hfilled]
  split
  · rfl
  · exact congrArg some (congrArg (fun q => Order.mk _ _ _ _ (x.quantity - q) _) hfilled)

omit h in
theorem without_filterMap_less (hk : 0 < k) {takings : List (Order × Int)}
    (hids : ∀ t ∈ takings, 0 < t.1.id ∧ t.1.id ≠ k) (orders : List Order) :
    without k (orders.filterMap (Order.less takings)) =
      (without k orders).filterMap (Order.less (renumberTakings k takings)) := by
  induction orders with
  | nil => rfl
  | cons x orders ih =>
      have hless := less_renumber hk hids x
      by_cases hx : x.id = k
      · rw [without_cons_self hx]
        cases hcase : x.less takings with
        | none => rw [List.filterMap_cons_none hcase, ih]
        | some y =>
            have hy : y.id = k := (less_queueId hcase).2.trans hx
            rw [List.filterMap_cons_some hcase, without_cons_self hy, ih]
      · rw [without_cons_other hx]
        cases hcase : x.less takings with
        | none =>
            rw [hcase] at hless
            rw [List.filterMap_cons_none hcase, List.filterMap_cons_none hless, ih]
        | some y =>
            have hy : y.id ≠ k := fun heq => hx ((less_queueId hcase).2.symm.trans heq)
            rw [hcase] at hless
            rw [List.filterMap_cons_some hcase, List.filterMap_cons_some hless,
              without_cons_other hy, ih]

theorem SameOrder.rest (hk : k < o.orderId) (hid : o'.orderId = o.orderId - 1) (remaining : Int) :
    without k (restOrders o remaining) = restOrders o' remaining := by
  unfold restOrders
  split
  · have hne : o.orderId ≠ k := by omega
    have hnew : renumber k o.orderId = o'.orderId := by
      unfold renumber
      rw [if_neg hne, if_pos hk, hid]
    rw [without_cons_other hne]
    show [Order.mk (renumber k o.orderId) _ _ _ _ _] = [Order.mk _ _ _ _ _ _]
    rw [hnew, h.owner, h.instrument, h.side, h.price]
    rfl
  · rfl

end Matching

/-! ## The two markets -/

/-- The market as it would be if the order `k` had never been submitted. -/
structure Lacks (k : Int) (m m' : Market) : Prop where
  pos : 0 < k
  issued : k < m.nextOrderId
  nextOrderId : m'.nextOrderId = m.nextOrderId - 1
  ids : ∀ x ∈ m.orders, 0 < x.id
  orders : m'.orders = without k m.orders

theorem sameOrder_incoming (m m' : Market) (ownerFd : Int) (instrument : Bytes) (side : Side)
    (price : Int) :
    SameOrder (m.incoming ownerFd instrument side price)
      (m'.incoming ownerFd instrument side price) := ⟨rfl, rfl, rfl, rfl⟩

section Lacks

variable {k : Int} {m m' : Market} (h : Lacks k m m')

include h

/-- Taking orders out. -/
theorem Lacks.keep {keep keep' : Order → Bool}
    (hkeep : ∀ x ∈ m.orders, x.id ≠ k → keep' (x.renumber k) = keep x) :
    Lacks k (m.keep keep) (m'.keep keep') where
  pos := h.pos
  issued := h.issued
  nextOrderId := h.nextOrderId
  ids := fun x hx => h.ids x (List.mem_of_mem_filter hx)
  orders := by
    show m'.orders.filter keep' = without k (m.orders.filter keep)
    have hcomm : (m.orders.filter keep).filter (fun x => x.id ≠ k) =
        (m.orders.filter fun x => x.id ≠ k).filter keep := List.filter_comm _ _ _
    rw [h.orders, without, without, hcomm, List.filter_map]
    congr 1
    refine List.filter_congr fun x hx => ?_
    obtain ⟨hmem, hne⟩ := List.mem_filter.mp hx
    exact hkeep x hmem (of_decide_eq_true hne)

theorem Lacks.removeOrdersOf (fd : Int) :
    Lacks k (m.step (.removeOrdersOf fd)) (m'.step (.removeOrdersOf fd)) :=
  h.keep fun _ _ _ => rfl

theorem Lacks.cancelOrder (orderId requesterFd : Int) :
    Lacks k (m.step (.cancelOrder orderId requesterFd))
      (m'.step (.cancelOrder (renumber k orderId) requesterFd)) := by
  refine h.keep fun x hx hne => ?_
  have hsame : (x.renumber k).id = renumber k orderId ↔ x.id = orderId :=
    renumber_inj h.pos (h.ids x hx) hne
  show (!decide ((x.renumber k).id = renumber k orderId ∧ x.ownerFd = requesterFd)) = _
  simp only [hsame]

section AddOrder

variable (ownerFd : Int) (instrument : Bytes) (side : Side) (quantity price : Int)
  (huntraded : ∀ t ∈ m.takings (m.incoming ownerFd instrument side price) quantity, t.1.id ≠ k)

include huntraded

theorem Lacks.takings :
    m'.takings (m'.incoming ownerFd instrument side price) quantity =
      renumberTakings k (m.takings (m.incoming ownerFd instrument side price) quantity) := by
  rw [takings_eq, takings_eq, h.orders]
  exact (sameOrder_incoming m m' ownerFd instrument side price).takings huntraded

theorem Lacks.addOrder :
    Lacks k (m.addOrder (m.incoming ownerFd instrument side price) quantity)
      (m'.addOrder (m'.incoming ownerFd instrument side price) quantity) where
  pos := h.pos
  issued := Int.lt_trans h.issued (Int.lt_succ _)
  nextOrderId := by
    have hnext := h.nextOrderId
    show m'.nextOrderId + 1 = m.nextOrderId + 1 - 1
    omega
  ids := by
    intro x hx
    rcases Market.mem_addOrder hx with ⟨y, hy, hid, _⟩ | ⟨hid, _⟩
    · rw [hid]
      exact h.ids y hy
    · rw [hid]
      exact Int.lt_trans h.pos h.issued
  orders := by
    have hsame := sameOrder_incoming m m' ownerFd instrument side price
    have hids : ∀ t ∈ m.takings (m.incoming ownerFd instrument side price) quantity,
        0 < t.1.id ∧ t.1.id ≠ k := fun t ht =>
      ⟨h.ids t.1 (mem_takingsFrom _ ht).1, huntraded t ht⟩
    have htotal : ∀ takings, takenTotal (renumberTakings k takings) = takenTotal takings := by
      intro takings
      rw [takenTotal, takenTotal, renumberTakings, List.map_map]
      rfl
    show m'.orders.filterMap (Order.less (m'.takings _ quantity)) ++
      restOrders _ (quantity - takenTotal (m'.takings _ quantity)) = without k (_ ++ _)
    rw [h.takings ownerFd instrument side quantity price huntraded, htotal, h.orders,
      without_append, without_filterMap_less h.pos hids, hsame.rest h.issued h.nextOrderId]

end AddOrder

end Lacks

/-! ## Runs -/

/-- The executions of a call. -/
def Entry.executions : Entry → List TradeExecution
  | .added _ _ fills => fills.map Fill.execution
  | _ => []

/-- The order `k` has a part in an execution of the call. -/
def Entry.Trades (k : Int) : Entry → Prop
  | .added _ _ fills => ∃ f ∈ fills, f.incomingId = k ∨ f.restingId = k
  | _ => False

instance (k : Int) (e : Entry) : Decidable (e.Trades k) := by
  cases e <;> unfold Entry.Trades <;> infer_instance

def Answer.executions : Answer → List TradeExecution
  | .accepted _ executions => executions
  | _ => []

theorem cancelAnswer_executions (m : Market) (orderId requesterFd : Int) :
    (m.cancelAnswer orderId requesterFd).executions = [] := by
  unfold Market.cancelAnswer
  split
  · rfl
  · split <;> rfl

theorem bookAfter_represents (order : HashOrder) (ops : List Op) :
    Represents (bookAfter order ops) (market.after ops) := by
  induction ops using List.reverseRecOn with
  | nil => exact represents_empty
  | append_singleton ops op ih =>
      have hafter : market.after (ops ++ [op]) = market.step (market.after ops) op :=
        Loop.run_concat _ _ _ _
      rw [bookAfter_concat, hafter]
      exact book_refines_market.step _ _ ⟨op, order⟩ trivial ih

/-- The executions of a call are those of the market. -/
theorem Represents.executions {b : Book} {m : Market} (h : Represents b m) (order : HashOrder)
    (op : Op) : (b.entry order op).executions = (m.answer op).executions := by
  cases op with
  | addOrder ownerFd instrument side quantity price =>
      exact congrArg Answer.executions (h.answer_addOrder ownerFd instrument side quantity price)
  | cancelOrder orderId requesterFd =>
      exact (cancelAnswer_executions m orderId requesterFd).symm
  | removeOrdersOf ownerFd => rfl

theorem historyFrom_executions {b : Book} {m : Market} (h : Represents b m) (order : HashOrder)
    (ops : List Op) :
    (b.historyFrom order ops).map Entry.executions =
      (market.answersFrom m ops).map Answer.executions := by
  induction ops generalizing b m with
  | nil => rfl
  | cons op ops ih =>
      have hstep : Represents (b.apply order op) (m.step op) :=
        book_refines_market.step _ _ ⟨op, order⟩ trivial h
      rw [Book.historyFrom, List.map_cons, ih hstep, h.executions order op]
      rfl

/-- The takings of a call that `k` has no part in. -/
theorem Represents.untraded {b : Book} {m : Market} (h : Represents b m) {order : HashOrder}
    {ownerFd : Int} {instrument : Bytes} {side : Side} {quantity price k : Int}
    (huntraded : ¬ (b.entry order (.addOrder ownerFd instrument side quantity price)).Trades k) :
    ∀ t ∈ m.takings (m.incoming ownerFd instrument side price) quantity,
      m.nextOrderId ≠ k ∧ t.1.id ≠ k := by
  intro t ht
  have hfill : (m.incoming ownerFd instrument side price).fill t.1 t.2 ∈
      (b.addOrder ownerFd instrument side quantity price).fills := by
    rw [addOrder_fills, ← h.takings ownerFd instrument side quantity price, ← h.incoming]
    exact List.mem_map_of_mem ht
  refine ⟨fun heq => huntraded ⟨_, hfill, Or.inl heq⟩, fun heq => huntraded ⟨_, hfill, Or.inr heq⟩⟩

/-- **The two runs go on alike.** -/
theorem Lacks.run {k : Int} {order : HashOrder} {b : Book} {m m' : Market} (h : Lacks k m m')
    (hrep : Represents b m) {ops : List Op}
    (huntraded : ∀ e ∈ b.historyFrom order ops, ¬ e.Trades k) :
    (market.answersFrom m ops).map Answer.executions =
        (market.answersFrom m' (ops.map (Op.without k))).map Answer.executions ∧
      Lacks k (Loop.run market.step m ops) (Loop.run market.step m' (ops.map (Op.without k))) := by
  induction ops generalizing b m m' with
  | nil => exact ⟨rfl, h⟩
  | cons op ops ih =>
      have hfirst := huntraded _ List.mem_cons_self
      have hstep : Represents (b.apply order op) (m.step op) :=
        book_refines_market.step _ _ ⟨op, order⟩ trivial hrep
      have hgoal : (m.answer op).executions = (m'.answer (op.without k)).executions ∧
          Lacks k (m.step op) (m'.step (op.without k)) := by
        cases op with
        | addOrder ownerFd instrument side quantity price =>
            have htakings := fun t ht => (hrep.untraded hfirst t ht).2
            refine ⟨?_, h.addOrder ownerFd instrument side quantity price htakings⟩
            show (Incoming.fillsOf _ _).map Fill.execution = (Incoming.fillsOf _ (m'.takings
              (m'.incoming ownerFd instrument side price) quantity)).map Fill.execution
            rw [h.takings ownerFd instrument side quantity price htakings]
            exact ((sameOrder_incoming m m' ownerFd instrument side price).executions _).symm
        | cancelOrder orderId requesterFd =>
            exact ⟨(cancelAnswer_executions m _ _).trans (cancelAnswer_executions m' _ _).symm,
              h.cancelOrder orderId requesterFd⟩
        | removeOrdersOf ownerFd => exact ⟨rfl, h.removeOrdersOf ownerFd⟩
      obtain ⟨hrest, hlast⟩ := ih hgoal.2 hstep fun e he => huntraded e (List.mem_cons_of_mem _ he)
      exact ⟨congrArg₂ List.cons hgoal.1 hrest, hlast⟩

/-- Ids are positive. -/
theorem market_ids_pos (ops : List Op) :
    0 < (market.after ops).nextOrderId ∧ ∀ x ∈ (market.after ops).orders, 0 < x.id := by
  refine Loop.run_invariant (I := fun m : Market => 0 < m.nextOrderId ∧ ∀ x ∈ m.orders, 0 < x.id)
    (P := fun _ => True) ?_ ⟨Int.one_pos, fun _ hx => by cases hx⟩ fun _ _ => trivial
  intro m op _ hm
  cases op with
  | addOrder ownerFd instrument side quantity price =>
      refine ⟨Int.lt_trans hm.1 (Int.lt_succ _), fun x hx => ?_⟩
      rcases Market.mem_addOrder hx with ⟨y, hy, hid, _⟩ | ⟨hid, _⟩
      · rw [hid]
        exact hm.2 y hy
      · rw [hid]
        exact hm.1
  | cancelOrder | removeOrdersOf => exact ⟨hm.1, fun x hx => hm.2 x (List.mem_of_mem_filter hx)⟩

/-- **The order is submitted and gets nothing.** -/
theorem lacks_start {b : Book} {m : Market} (hrep : Represents b m)
    (hids : 0 < m.nextOrderId ∧ ∀ x ∈ m.orders, 0 < x.id) {order : HashOrder} {ownerFd : Int}
    {instrument : Bytes} {side : Side} {quantity price : Int}
    (huntraded : ¬ (b.entry order (.addOrder ownerFd instrument side quantity price)).Trades
      m.nextOrderId) :
    Lacks m.nextOrderId (m.step (.addOrder ownerFd instrument side quantity price)) m := by
  have hnone : m.takings (m.incoming ownerFd instrument side price) quantity = [] :=
    List.eq_nil_iff_forall_not_mem.mpr fun t ht => (hrep.untraded huntraded t ht).1 rfl
  have hpos : ∀ x ∈ m.orders, 0 < x.quantity := by
    intro x hx
    obtain ⟨n, hn, rfl⟩ := hrep.mem.mp hx
    exact hrep.wf.quantity_pos _ n hn
  have hold : ∀ x ∈ m.orders, x.id < m.nextOrderId := by
    intro x hx
    obtain ⟨n, hn, rfl⟩ := hrep.mem.mp hx
    rw [← hrep.nextOrderId]
    exact hrep.wf.id_lt _ n hn
  refine ⟨hids.1, Int.lt_succ _, ?_, ?_, ?_⟩
  · show m.nextOrderId = m.nextOrderId + 1 - 1
    omega
  · intro x hx
    rcases Market.mem_addOrder hx with ⟨y, hy, hid, _⟩ | ⟨hid, _⟩
    · rw [hid]
      exact hids.2 y hy
    · rw [hid]
      exact hids.1
  · show m.orders = without m.nextOrderId (m.orders.filterMap (Order.less (m.takings _ quantity)) ++
      restOrders _ (quantity - takenTotal (m.takings _ quantity)))
    rw [hnone, filterMap_less_nil hpos, without_append, without_older hold]
    exact ((congrArg (m.orders ++ ·) (without_restOrders
      (m.incoming ownerFd instrument side price) _)).trans (List.append_nil _)).symm

/-- **An order that never trades makes no difference.**  Whatever calls are made, if the
order that one of them submits has no part in any execution, then without that call, and
with the later orders numbered accordingly, every other call makes the executions it made,
and every queue holds the same orders in the same places.  The walks over the index may
be others. -/
theorem untraded_order_unseen (order order' : HashOrder) (before after : List Op) (ownerFd : Int)
    (instrument : Bytes) (side : Side) (quantity price : Int)
    (huntraded : ∀ e ∈ history order
        (before ++ .addOrder ownerFd instrument side quantity price :: after),
      ¬ e.Trades (bookAfter order before).nextOrderId) :
    let k := (bookAfter order before).nextOrderId
    let ops := before ++ .addOrder ownerFd instrument side quantity price :: after
    let ops' := before ++ after.map (Op.without k)
    ((history order ops).map Entry.executions).eraseIdx before.length =
        (history order' ops').map Entry.executions ∧
      ∀ q, ((bookAfter order' ops').queue q).map Node.order =
        without k (((bookAfter order ops).queue q).map Node.order) := by
  intro k ops ops'
  have hrep := bookAfter_represents order before
  set m := market.after before
  set op := Op.addOrder ownerFd instrument side quantity price
  have hk : k = m.nextOrderId := hrep.nextOrderId
  have hentries : history order ops = history order before ++
      (bookAfter order before).historyFrom order (op :: after) :=
    historyFrom_append order Book.empty before _
  have hlater : ∀ e ∈ (bookAfter order before).historyFrom order (op :: after), ¬ e.Trades k :=
    fun e he => huntraded e (by rw [hentries]; exact List.mem_append_right _ he)
  have hfirst : ¬ ((bookAfter order before).entry order op).Trades m.nextOrderId := by
    rw [← hk]
    exact hlater _ List.mem_cons_self
  have hlacks : Lacks k (m.step op) m := by
    rw [hk]
    exact lacks_start hrep (market_ids_pos before) hfirst
  have hstep : Represents ((bookAfter order before).apply order op) (m.step op) :=
    book_refines_market.step _ _ ⟨op, order⟩ trivial hrep
  obtain ⟨hexecutions, hend⟩ := hlacks.run hstep fun e he => hlater e (List.mem_cons_of_mem _ he)
  have hafter : market.after ops = Loop.run market.step (m.step op) after := by
    rw [Refinement.Machine.after, Loop.run_append, Loop.run_cons]
    rfl
  have hafter' : market.after ops' = Loop.run market.step m (after.map (Op.without k)) := by
    rw [Refinement.Machine.after, Loop.run_append]
    rfl
  constructor
  · rw [history, historyFrom_executions represents_empty, history,
      historyFrom_executions represents_empty, Refinement.Machine.answersFrom_append,
      Refinement.Machine.answersFrom_append, List.map_append, List.map_append]
    have hlength : ((market.answersFrom {} before).map Answer.executions).length =
        before.length := by
      rw [List.length_map, Refinement.Machine.length_answersFrom]
    rw [List.eraseIdx_append_of_length_le (Nat.le_of_eq hlength), hlength, Nat.sub_self]
    exact congrArg (_ ++ ·) hexecutions
  · intro q
    rw [(bookAfter_represents order' ops').queue, (bookAfter_represents order ops).queue, hafter,
      hafter', hend.orders, without_filter]

/-- Two offers at one price.  A buyer takes part of the first, and the second, of which
nothing was sold, is cancelled before another buyer comes. -/
theorem untraded_order_unseen_second_offer :
    (history .stored
      [.addOrder 5 (ascii "JNST") .sell 10 100, .addOrder 7 (ascii "JNST") .buy 6 100,
        .cancelOrder 0 6, .addOrder 8 (ascii "JNST") .buy 9 100, .cancelOrder 3 8]).map
      Entry.executions =
    [[], [⟨7, 5, ascii "JNST", 6, 100⟩], [], [⟨8, 5, ascii "JNST", 4, 100⟩], []] :=
  (untraded_order_unseen .stored .stored [.addOrder 5 (ascii "JNST") .sell 10 100]
    [.addOrder 7 (ascii "JNST") .buy 6 100, .cancelOrder 2 6, .addOrder 8 (ascii "JNST") .buy 9 100,
      .cancelOrder 4 8] 6 (ascii "JNST") .sell 4 100 (by decide)).1.symm.trans (by decide)

end SocketExchange.Trading.OrderBook
