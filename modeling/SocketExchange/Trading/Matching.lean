import Mathlib.Algebra.Order.Ring.Int
import SocketExchange.Trading.BookInvariant

/-!
# What the matching loop does

The loop of `add_order` moves an iterator over a linked list, erasing, reducing
and skipping nodes.  `matchNodes` is its meaning as a function of the queue:
the queue it leaves, the quantity it leaves, and what it took from whom.
`matchLoop_spec` identifies the two, after which every statement about
`add_order` is an induction over a list.

`matchStep_shrunk` is the other half: *between any two passes* the book is well
formed, which is what lets priority be claimed right after each execution.
-/

namespace SocketExchange.Trading.OrderBook

open SocketExchange.Lib
open SocketExchange.Lib.Bytes

/-! ## The loop as a function of the queue -/

/-- Outcome of matching an incoming quantity against a queue. -/
structure Matched where
  queue : List Node
  remaining : Int
  taken : List (Order × Int)

/-- Exact-price, first-in-first-out, greedy matching. -/
def matchNodes (price : Int) : Int → List Node → Matched
  | remaining, [] => ⟨[], remaining, []⟩
  | remaining, n :: rest =>
      if remaining ≤ 0 then ⟨n :: rest, remaining, []⟩
      else if n.order.price ≠ price then
        let m := matchNodes price remaining rest
        ⟨n :: m.queue, m.remaining, m.taken⟩
      else
        let traded := min remaining n.order.quantity
        let m := matchNodes price (remaining - traded) rest
        if n.order.quantity - traded = 0 then
          ⟨m.queue, m.remaining, (n.order, traded) :: m.taken⟩
        else
          ⟨n.reduce traded :: m.queue, m.remaining, (n.order, traded) :: m.taken⟩

theorem matchNodes_of_nonpos {price remaining : Int} (h : remaining ≤ 0)
    (nodes : List Node) : matchNodes price remaining nodes = ⟨nodes, remaining, []⟩ := by
  cases nodes with
  | nil => rfl
  | cons n rest => rw [matchNodes, if_pos h]

/-- The fills of one call, in the order they are pushed. -/
def Incoming.fillsOf (o : Incoming) (taken : List (Order × Int)) : List Fill :=
  taken.map fun t => o.fill t.1 t.2

/-- A loop that is left at once. -/
private theorem matchStep_exit {o : Incoming} {σ : MatchState}
    (h : σ.remaining ≤ 0) : matchStep o σ = none := by
  unfold matchStep
  split
  · rfl
  · rw [if_neg (by omega)]

private theorem matchLoop_spec_aux (o : Incoming) :
    ∀ (ahead : List Node) (σ : MatchState), σ.ahead = ahead →
      let σ' := Loop.loop (matchStep o) ahead.length σ
      let m := matchNodes o.price σ.remaining ahead
      σ'.passed ++ σ'.ahead = σ.passed ++ m.queue ∧ σ'.remaining = m.remaining ∧
        σ'.fills = σ.fills ++ o.fillsOf m.taken := by
  intro ahead
  induction ahead with
  | nil =>
      intro σ hσ
      simp [Loop.loop, matchNodes, Incoming.fillsOf, hσ]
  | cons n rest ih =>
      intro σ hσ
      by_cases hrem : σ.remaining ≤ 0
      · rw [Loop.loop_of_none (matchStep_exit hrem), matchNodes_of_nonpos hrem]
        simp [Incoming.fillsOf, hσ]
      · have hstep : matchStep o σ = some (matchPass o σ n rest) := by
          simp only [matchStep, hσ]
          rw [if_pos (by omega)]
        rw [List.length_cons, Loop.loop_of_some hstep]
        have hahead : (matchPass o σ n rest).ahead = rest := by
          unfold matchPass
          split
          · rfl
          · dsimp only
            split <;> rfl
        obtain ⟨hq, hr, hf⟩ := ih (matchPass o σ n rest) hahead
        dsimp only
        rw [hq, hr, hf, matchNodes, if_neg hrem]
        by_cases hprice : n.order.price ≠ o.price
        · simp [matchPass, hprice]
        · by_cases hzero : n.order.quantity - min σ.remaining n.order.quantity = 0
          · simp [matchPass, hprice, hzero, Node.reduce, Incoming.fillsOf]
          · simp [matchPass, hprice, hzero, Node.reduce, Incoming.fillsOf]

/-- **The loop computes `matchNodes`.** -/
theorem matchLoop_spec (o : Incoming) (σ : MatchState) :
    (matchLoop o σ).passed ++ (matchLoop o σ).ahead =
        σ.passed ++ (matchNodes o.price σ.remaining σ.ahead).queue ∧
      (matchLoop o σ).remaining =
        (matchNodes o.price σ.remaining σ.ahead).remaining ∧
      (matchLoop o σ).fills =
        σ.fills ++ o.fillsOf (matchNodes o.price σ.remaining σ.ahead).taken :=
  matchLoop_spec_aux o σ.ahead σ rfl

/-! ## Facts about greedy matching -/

/-- What was taken from the order `id`. -/
def filledOf (id : Int) : List (Order × Int) → Int
  | [] => 0
  | t :: taken => (if t.1.id = id then t.2 else 0) + filledOf id taken

/-- Total quantity taken. -/
def takenTotal (taken : List (Order × Int)) : Int := (taken.map Prod.snd).sum

/-- Incoming quantity is traded or left over. -/
theorem matchNodes_total (price : Int) (nodes : List Node) (remaining : Int) :
    takenTotal (matchNodes price remaining nodes).taken +
      (matchNodes price remaining nodes).remaining = remaining := by
  fun_induction matchNodes price remaining nodes with
  | case1 remaining => simp [takenTotal]
  | case2 remaining n rest h => simp [takenTotal]
  | case3 remaining n rest h hprice m ih => exact ih
  | case4 remaining n rest h hprice traded m hzero ih
  | case5 remaining n rest h hprice traded m hzero ih =>
      have ih' : takenTotal m.taken + m.remaining = remaining - traded := ih
      simp only [takenTotal, List.map_cons, List.sum_cons] at ih' ⊢
      omega

theorem matchNodes_remaining_nonneg (price : Int) (nodes : List Node) (remaining : Int)
    (h : 0 ≤ remaining) : 0 ≤ (matchNodes price remaining nodes).remaining := by
  fun_induction matchNodes price remaining nodes with
  | case1 remaining => exact h
  | case2 remaining n rest _ => exact h
  | case3 remaining n rest _ _ m ih => exact ih h
  | case4 remaining n rest _ _ traded m _ ih => exact ih (by omega)
  | case5 remaining n rest _ _ traded m _ ih => exact ih (by omega)

/-- **The exit reason.**  A remainder is left only if no opposite order at that
price is. -/
theorem matchNodes_exhausted (price : Int) (nodes : List Node) (remaining : Int)
    (h : 0 < (matchNodes price remaining nodes).remaining) :
    ∀ n ∈ (matchNodes price remaining nodes).queue, n.order.price ≠ price := by
  fun_induction matchNodes price remaining nodes with
  | case1 remaining => simp
  | case2 remaining n rest hrem =>
      simp only at h
      omega
  | case3 remaining n rest hrem hprice m ih =>
      intro x hx
      rcases List.mem_cons.mp hx with rfl | hx
      · exact hprice
      · exact ih h x hx
  | case4 remaining n rest hrem hprice traded m hzero ih => exact ih h
  | case5 remaining n rest hrem hprice traded m hzero ih =>
      -- a partial fill uses the incoming order up
      have hle : remaining - traded ≤ 0 := by omega
      have hm : m = _ := matchNodes_of_nonpos hle rest
      rw [hm] at h
      simp only at h
      omega

/-- `t` is a positive part of one of the orders in `nodes`, at that price. -/
def TakenFrom (price : Int) (nodes : List Node) (t : Order × Int) : Prop :=
  0 < t.2 ∧ t.2 ≤ t.1.quantity ∧ t.1.price = price ∧ ∃ n ∈ nodes, n.order = t.1

theorem TakenFrom.cons {price : Int} {nodes : List Node} {t : Order × Int}
    (h : TakenFrom price nodes t) (n : Node) : TakenFrom price (n :: nodes) t := by
  obtain ⟨hpos, hle, hprice, x, hx, hxt⟩ := h
  exact ⟨hpos, hle, hprice, x, by simp [hx], hxt⟩

private theorem takenFrom_head {price remaining : Int} {n : Node} (rest : List Node)
    (hpos : 0 < n.order.quantity) (hrem : 0 < remaining) (hprice : n.order.price = price) :
    TakenFrom price (n :: rest) (n.order, min remaining n.order.quantity) := by
  refine ⟨?_, ?_, hprice, n, by simp, rfl⟩
  · show 0 < min remaining n.order.quantity
    omega
  · show min remaining n.order.quantity ≤ n.order.quantity
    omega

theorem matchNodes_taken (price : Int) (nodes : List Node) (remaining : Int)
    (hpos : ∀ n ∈ nodes, 0 < n.order.quantity) :
    ∀ t ∈ (matchNodes price remaining nodes).taken, TakenFrom price nodes t := by
  have htail : ∀ {n : Node} {rest : List Node} {taken : List (Order × Int)},
      ((∀ x ∈ rest, 0 < x.order.quantity) → ∀ t ∈ taken, TakenFrom price rest t) →
      (∀ x ∈ n :: rest, 0 < x.order.quantity) →
      ∀ t ∈ taken, TakenFrom price (n :: rest) t := by
    intro n rest taken ih hpos t ht
    exact (ih (fun x hx => hpos x (by simp [hx])) t ht).cons n
  fun_induction matchNodes price remaining nodes with
  | case1 remaining => simp
  | case2 remaining n rest h => simp
  | case3 remaining n rest h hprice m ih => exact htail ih hpos
  | case4 remaining n rest h hprice traded m hzero ih
  | case5 remaining n rest h hprice traded m hzero ih =>
      intro t ht
      rcases List.mem_cons.mp ht with rfl | ht
      · exact takenFrom_head rest (hpos n (by simp)) (by omega) (not_not.mp hprice)
      · exact htail ih hpos t ht

/-! ### What each resting order keeps -/

theorem filledOf_of_fresh {id : Int} {taken : List (Order × Int)}
    (h : ∀ t ∈ taken, t.1.id ≠ id) : filledOf id taken = 0 := by
  induction taken with
  | nil => rfl
  | cons t taken ih =>
      rw [filledOf, if_neg (h t (by simp)), ih (fun t ht => h t (by simp [ht])),
        Int.zero_add]

/-- A resting order after the fills of a call: reduced, or gone. -/
def settle (taken : List (Order × Int)) (n : Node) : Option Node :=
  if n.order.quantity = filledOf n.order.id taken then none
  else some (n.reduce (filledOf n.order.id taken))

theorem settle_of_fresh {taken : List (Order × Int)} {n : Node}
    (h : filledOf n.order.id taken = 0) (hpos : 0 < n.order.quantity) :
    settle taken n = some n := by
  rw [settle, h, if_neg (by omega)]
  simp [Node.reduce]

private theorem filterMap_settle_nil {nodes : List Node}
    (hpos : ∀ n ∈ nodes, 0 < n.order.quantity) : nodes.filterMap (settle []) = nodes := by
  induction nodes with
  | nil => rfl
  | cons n rest ih =>
      rw [List.filterMap_cons, settle_of_fresh rfl (hpos n (by simp)),
        ih fun x hx => hpos x (by simp [hx])]

/-- A fill of an older order does not concern the younger ones. -/
private theorem filterMap_settle_cons {n : Node} {rest : List Node}
    (hs : (n :: rest).Pairwise fun a c => a.order.id < c.order.id) (traded : Int)
    (taken : List (Order × Int)) :
    rest.filterMap (settle ((n.order, traded) :: taken)) = rest.filterMap (settle taken) := by
  refine List.filterMap_congr fun x hx => ?_
  have := (List.pairwise_cons.mp hs).1 x hx
  have hne : n.order.id ≠ x.order.id := by omega
  simp only [settle, filledOf, if_neg hne, Int.zero_add]

/-- The rest of the queue has no fill for its predecessor. -/
private theorem filledOf_head {price remaining : Int} {n : Node} {rest : List Node}
    (hpos : ∀ x ∈ n :: rest, 0 < x.order.quantity)
    (hs : (n :: rest).Pairwise fun a c => a.order.id < c.order.id) :
    filledOf n.order.id (matchNodes price remaining rest).taken = 0 := by
  refine filledOf_of_fresh fun t ht => ?_
  obtain ⟨_, _, _, x, hx, hxt⟩ :=
    matchNodes_taken price rest remaining (fun x hx => hpos x (by simp [hx])) t ht
  have := (List.pairwise_cons.mp hs).1 x hx
  rw [← hxt]
  omega

/-- **The queue left behind**: every order reduced by what was taken from it,
and the exhausted ones gone. -/
theorem matchNodes_queue (price : Int) (nodes : List Node) (remaining : Int)
    (hpos : ∀ n ∈ nodes, 0 < n.order.quantity)
    (hs : nodes.Pairwise fun m n => m.order.id < n.order.id) :
    (matchNodes price remaining nodes).queue =
      nodes.filterMap (settle (matchNodes price remaining nodes).taken) := by
  fun_induction matchNodes price remaining nodes with
  | case1 remaining => rfl
  | case2 remaining n rest h => exact (filterMap_settle_nil hpos).symm
  | case3 remaining n rest h hprice m ih =>
      have hn : settle m.taken n = some n :=
        settle_of_fresh (filledOf_head hpos hs) (hpos n (by simp))
      rw [List.filterMap_cons, hn]
      exact congrArg (n :: ·) (ih (fun x hx => hpos x (by simp [hx]))
        (List.pairwise_cons.mp hs).2)
  | case4 remaining n rest h hprice traded m hzero ih =>
      have hfilled : filledOf n.order.id ((n.order, traded) :: m.taken) = traded := by
        rw [filledOf, if_pos rfl, filledOf_head hpos hs, Int.add_zero]
      have hn : settle ((n.order, traded) :: m.taken) n = none := by
        rw [settle, hfilled, if_pos (by omega)]
      rw [List.filterMap_cons, hn, filterMap_settle_cons hs]
      exact ih (fun x hx => hpos x (by simp [hx])) (List.pairwise_cons.mp hs).2
  | case5 remaining n rest h hprice traded m hzero ih =>
      have hfilled : filledOf n.order.id ((n.order, traded) :: m.taken) = traded := by
        rw [filledOf, if_pos rfl, filledOf_head hpos hs, Int.add_zero]
      have hn : settle ((n.order, traded) :: m.taken) n = some (n.reduce traded) := by
        rw [settle, hfilled, if_neg (by omega)]
      rw [List.filterMap_cons, hn, filterMap_settle_cons hs]
      exact congrArg (n.reduce traded :: ·) (ih (fun x hx => hpos x (by simp [hx]))
        (List.pairwise_cons.mp hs).2)

/-- Nothing is taken twice: no order gives more than it has. -/
theorem filledOf_le (price : Int) (nodes : List Node) (remaining : Int)
    (hpos : ∀ n ∈ nodes, 0 < n.order.quantity)
    (hs : nodes.Pairwise fun m n => m.order.id < n.order.id) :
    ∀ n ∈ nodes, 0 ≤ filledOf n.order.id (matchNodes price remaining nodes).taken ∧
      filledOf n.order.id (matchNodes price remaining nodes).taken ≤ n.order.quantity := by
  fun_induction matchNodes price remaining nodes with
  | case1 remaining => simp
  | case2 remaining n rest h =>
      intro x hx
      exact ⟨Int.le_refl 0, Int.le_of_lt (hpos x hx)⟩
  | case3 remaining n rest h hprice m ih =>
      intro x hx
      rcases List.mem_cons.mp hx with rfl | hx
      · have hzero : filledOf x.order.id m.taken = 0 := filledOf_head hpos hs
        have := hpos x (by simp)
        show 0 ≤ filledOf x.order.id m.taken ∧ filledOf x.order.id m.taken ≤ _
        omega
      · exact ih (fun x hx => hpos x (by simp [hx])) (List.pairwise_cons.mp hs).2 x hx
  | case4 remaining n rest h hprice traded m hzero ih
  | case5 remaining n rest h hprice traded m hzero ih =>
      intro x hx
      rcases List.mem_cons.mp hx with rfl | hx
      · have hfilled : filledOf x.order.id ((x.order, traded) :: m.taken) = traded := by
          rw [filledOf, if_pos rfl, filledOf_head hpos hs, Int.add_zero]
        have := hpos x (by simp)
        show 0 ≤ filledOf x.order.id ((x.order, traded) :: m.taken) ∧
          filledOf x.order.id ((x.order, traded) :: m.taken) ≤ _
        omega
      · have hlt := (List.pairwise_cons.mp hs).1 x hx
        have hne : n.order.id ≠ x.order.id := by omega
        have ih' := ih (fun x hx => hpos x (by simp [hx])) (List.pairwise_cons.mp hs).2 x hx
        show 0 ≤ filledOf x.order.id ((n.order, traded) :: m.taken) ∧
          filledOf x.order.id ((n.order, traded) :: m.taken) ≤ _
        rw [filledOf, if_neg hne, Int.zero_add]
        exact ih'

/-! ## One pass keeps the book well formed -/

@[simp] theorem during_index (b : Book) (o : Incoming) (σ : MatchState) :
    (b.during o σ).index = σ.index := rfl

@[simp] theorem during_nextOrderId (b : Book) (o : Incoming) (σ : MatchState) :
    (b.during o σ).nextOrderId = b.nextOrderId := by simp [Book.during]

@[simp] theorem during_nextAddr (b : Book) (o : Incoming) (σ : MatchState) :
    (b.during o σ).nextAddr = b.nextAddr := by simp [Book.during]

theorem queue_during (b : Book) (o : Incoming) (σ : MatchState) (q : QueueId) :
    (b.during o σ).queue q =
      if q = o.oppositeQueue then σ.passed ++ σ.ahead else b.queue q := by
  simp only [Book.during, queue_withIndex, queue_setQueue]

/-- Before the first pass the book is the one the call started from. -/
theorem queue_during_start (b : Book) (o : Incoming) (quantity : Int) (q : QueueId) :
    (b.during o (b.matchStart o quantity)).queue q = b.queue q := by
  rw [queue_during]
  split
  · next h => subst h; rfl
  · rfl

/-- Books with the same queues, index and counters are well formed together. -/
theorem wf_congr {b b' : Book} (hq : ∀ q, b'.queue q = b.queue q)
    (hi : b'.index = b.index) (hid : b'.nextOrderId = b.nextOrderId)
    (ha : b'.nextAddr = b.nextAddr) (hb : b.WF) : b'.WF :=
  Shrunk.wf
    { keys := fun q => by rw [hq q]
      quantity_pos := fun q => by rw [hq q]; exact hb.quantity_pos q
      indexOk := fun id loc => by rw [hi, hq]; exact hb.indexOk id loc
      nextOrderId := hid
      nextAddr := ha } hb

theorem wf_during_start {b : Book} (hb : b.WF) (o : Incoming) (quantity : Int) :
    (b.during o (b.matchStart o quantity)).WF :=
  wf_congr (queue_during_start b o quantity) rfl (by simp) (by simp) hb

/-- A queue with the same immutable parts is indexed by the same locations. -/
private theorem indexOk_of_keys {b b' : Book} (hb : b.IndexOk)
    (hi : b'.index = b.index)
    (hk : ∀ q, (b'.queue q).map Node.key = (b.queue q).map Node.key) : b'.IndexOk := by
  intro id loc
  rw [hi, hb id loc]
  have hiff : ∀ c c' : Book, (c'.queue loc.queue).map Node.key =
      (c.queue loc.queue).map Node.key →
      (∃ n ∈ c.queue loc.queue, n.addr = loc.it ∧ n.order.id = id) →
      ∃ n ∈ c'.queue loc.queue, n.addr = loc.it ∧ n.order.id = id := by
    rintro c c' hkeys ⟨n, hn, ha, hid⟩
    have hmem : n.key ∈ (c'.queue loc.queue).map Node.key := by
      rw [hkeys]; exact List.mem_map_of_mem hn
    obtain ⟨m, hm, hmk⟩ := List.mem_map.mp hmem
    exact ⟨m, hm, (addr_of_key hmk).trans ha, (id_of_key hmk).trans hid⟩
  exact ⟨hiff b b' (hk _), hiff b' b (hk _).symm⟩

/-- Removing the node under the iterator is removing its id. -/
private theorem filter_id_append {passed rest : List Node} {n : Node}
    (hs : (passed ++ n :: rest).Pairwise fun a c => a.order.id < c.order.id) :
    passed ++ rest =
      (passed ++ n :: rest).filter fun m => decide (m.order.id ≠ n.order.id) := by
  rw [List.pairwise_append, List.pairwise_cons] at hs
  obtain ⟨_, ⟨hrest, _⟩, hcross⟩ := hs
  rw [List.filter_append, List.filter_cons_of_neg (by simp),
    List.filter_eq_self.mpr, List.filter_eq_self.mpr]
  · intro m hm
    have := hrest m hm
    simp only [decide_eq_true_eq]
    omega
  · intro m hm
    have := hcross m hm n (by simp)
    simp only [decide_eq_true_eq]
    omega

/-- **One pass.**  Whatever branch is taken, the book shrinks and stays
well formed. -/
theorem matchStep_shrunk {b : Book} {o : Incoming} {σ σ' : MatchState}
    (hwf : (b.during o σ).WF) (hstep : matchStep o σ = some σ') :
    Shrunk (b.during o σ) (b.during o σ') := by
  unfold matchStep at hstep
  split at hstep
  · cases hstep
  · next n rest hahead =>
    split at hstep
    · next hrem =>
      cases hstep
      have hqueue : (b.during o σ).queue o.oppositeQueue = σ.passed ++ n :: rest := by
        rw [queue_during, if_pos rfl, hahead]
      have hn : n ∈ (b.during o σ).queue o.oppositeQueue := by rw [hqueue]; simp
      have hpos := hwf.quantity_pos _ n hn
      unfold matchPass
      split
      · -- another price: the iterator moves on
        have hsame : b.during o { σ with passed := σ.passed ++ [n], ahead := rest } =
            b.during o σ := by
          simp only [Book.during, List.append_assoc, List.singleton_append, hahead]
        rw [hsame]
        exact Shrunk.refl hwf
      · dsimp only
        split
        · -- a full fill: the node and its index entry go together
          refine (kept_of_queue hwf hn ?_ (l := σ.passed ++ rest) ?_ ?_ ?_ ?_).shrunk hwf
          · rw [hqueue]
            exact filter_id_append (hqueue ▸ hwf.sorted o.oppositeQueue)
          · intro q
            rw [queue_during]
            split
            · rfl
            · next h => rw [queue_during, if_neg h]
          · rfl
          · simp
          · simp
        · -- a partial fill: same node, same place, less quantity
          next hne =>
          simp only [Node.reduce] at hne
          have hkeys : ∀ q, ((b.during o { σ with
              passed := σ.passed ++ [n.reduce (min σ.remaining n.order.quantity)]
              ahead := rest
              remaining := σ.remaining - min σ.remaining n.order.quantity
              fills := σ.fills ++
                [o.fill n.order (min σ.remaining n.order.quantity)] }).queue q).map
                Node.key = ((b.during o σ).queue q).map Node.key := by
            intro q
            rw [queue_during, queue_during]
            split
            · simp [hahead]
            · rfl
          refine
            { keys := fun q => by rw [hkeys q]
              quantity_pos := ?_
              indexOk := indexOk_of_keys hwf.indexOk rfl hkeys
              nextOrderId := by simp
              nextAddr := by simp }
          intro q m hm
          rw [queue_during] at hm
          split at hm
          · simp only [List.append_assoc, List.singleton_append, List.mem_append,
              List.mem_cons] at hm
            have hold : ∀ x, x ∈ σ.passed ∨ x ∈ rest → 0 < x.order.quantity := by
              intro x hx
              refine hwf.quantity_pos o.oppositeQueue x ?_
              rw [hqueue]
              rcases hx with hx | hx <;> simp [hx]
            rcases hm with hm | rfl | hm
            · exact hold m (Or.inl hm)
            · simp only [Node.reduce]
              omega
            · exact hold m (Or.inr hm)
          · next h =>
            refine hwf.quantity_pos q m ?_
            rw [queue_during, if_neg h]
            exact hm
    · cases hstep

/-- The book is well formed at every loop head. -/
theorem during_shrunk {b : Book} (hb : b.WF) {o : Incoming} {quantity : Int}
    {σ : MatchState} (hr : Loop.Reaches (matchStep o) (b.matchStart o quantity) σ) :
    Shrunk b (b.during o σ) := by
  have hstart : Shrunk b (b.during o (b.matchStart o quantity)) :=
    { keys := fun q => by rw [queue_during_start]
      quantity_pos := (wf_during_start hb o quantity).quantity_pos
      indexOk := (wf_during_start hb o quantity).indexOk
      nextOrderId := by simp
      nextAddr := by simp }
  refine hr.invariant (I := fun σ => Shrunk b (b.during o σ)) ?_ hstart
  intro σ σ' hstep h
  exact h.trans (matchStep_shrunk (h.wf hb) hstep)

/-! ## Resting the remainder -/

theorem queue_restRemainder (b : Book) (o : Incoming) (remaining : Int) (q : QueueId) :
    (b.restRemainder o remaining).queue q =
      if q = o.ownQueue then b.queue q ++ [⟨b.nextAddr, o.rest remaining⟩]
      else b.queue q := by
  unfold Book.restRemainder
  show (b.setQueue o.ownQueue _).queue q = _
  rw [queue_setQueue]
  split
  · next h => subst h; rfl
  · rfl

theorem mem_restRemainder {b : Book} {o : Incoming} {remaining : Int} {q : QueueId}
    {n : Node} :
    n ∈ (b.restRemainder o remaining).queue q ↔
      n ∈ b.queue q ∨ q = o.ownQueue ∧ n = ⟨b.nextAddr, o.rest remaining⟩ := by
  rw [queue_restRemainder]
  split
  · next h => simp [h]
  · next h => simp [h]

/-- The index learns the new order, and only that. -/
private theorem restRemainder_indexOk {b : Book} (hb : b.WF) {o : Incoming}
    {remaining : Int} (hfresh : ∀ q, ∀ n ∈ b.queue q, n.order.id < o.orderId) :
    (b.restRemainder o remaining).IndexOk := by
  intro id loc
  show (b.index.insert o.orderId ⟨o.ownQueue, b.nextAddr⟩).lookup id = some loc ↔ _
  by_cases hid : id = o.orderId
  · subst hid
    rw [AList.lookup_insert]
    constructor
    · intro h
      obtain rfl := Option.some.inj h
      exact ⟨⟨b.nextAddr, o.rest remaining⟩, mem_restRemainder.mpr (Or.inr ⟨rfl, rfl⟩),
        rfl, rfl⟩
    · rintro ⟨n, hn, ha, hnid⟩
      rcases mem_restRemainder.mp hn with hn | ⟨hq, rfl⟩
      · have := hfresh _ n hn
        omega
      · simp only at ha
        rw [← hq, ha]
  · rw [AList.lookup_insert_ne hid, hb.indexOk id loc]
    constructor
    · rintro ⟨n, hn, ha, hnid⟩
      exact ⟨n, mem_restRemainder.mpr (Or.inl hn), ha, hnid⟩
    · rintro ⟨n, hn, ha, hnid⟩
      rcases mem_restRemainder.mp hn with hn | ⟨_, rfl⟩
      · exact ⟨n, hn, ha, hnid⟩
      · exact absurd hnid.symm hid

/-- Pushing an order with a fresh id and a fresh node keeps the invariant. -/
theorem restRemainder_wf {b : Book} (hb : b.WF) {o : Incoming} {remaining : Int}
    (hpos : 0 < remaining) (hfresh : ∀ q, ∀ n ∈ b.queue q, n.order.id < o.orderId)
    (hnext : o.orderId < b.nextOrderId) : (b.restRemainder o remaining).WF where
  own := by
    intro q n hn
    rcases mem_restRemainder.mp hn with hn | ⟨rfl, rfl⟩
    · exact hb.own q n hn
    · exact ⟨rfl, rfl⟩
  quantity_pos := by
    intro q n hn
    rcases mem_restRemainder.mp hn with hn | ⟨rfl, rfl⟩
    · exact hb.quantity_pos q n hn
    · exact hpos
  id_lt := by
    intro q n hn
    show n.order.id < (b.setQueue _ _).nextOrderId
    rw [setQueue_nextOrderId]
    rcases mem_restRemainder.mp hn with hn | ⟨rfl, rfl⟩
    · exact hb.id_lt q n hn
    · exact hnext
  addr_lt := by
    intro q n hn
    show n.addr < b.nextAddr + 1
    rcases mem_restRemainder.mp hn with hn | ⟨rfl, rfl⟩
    · have := hb.addr_lt q n hn
      omega
    · exact Nat.lt_succ_self b.nextAddr
  sorted := by
    intro q
    rw [queue_restRemainder]
    split
    · rw [List.pairwise_append]
      refine ⟨hb.sorted q, List.pairwise_singleton _ _, ?_⟩
      intro m hm n hn
      rw [List.mem_singleton] at hn
      subst hn
      exact hfresh q m hm
    · exact hb.sorted q
  id_queue := by
    intro q q' m hm n hn hid
    rcases mem_restRemainder.mp hm with hm | ⟨rfl, rfl⟩ <;>
      rcases mem_restRemainder.mp hn with hn | ⟨rfl, rfl⟩
    · exact hb.id_queue q q' m hm n hn hid
    · have := hfresh q m hm
      simp only [Incoming.rest] at hid
      omega
    · have := hfresh q' n hn
      simp only [Incoming.rest] at hid
      omega
    · rfl
  addr_id := by
    intro q q' m hm n hn ha
    rcases mem_restRemainder.mp hm with hm | ⟨rfl, rfl⟩ <;>
      rcases mem_restRemainder.mp hn with hn | ⟨rfl, rfl⟩
    · exact hb.addr_id q q' m hm n hn ha
    · have := hb.addr_lt q m hm
      simp only at ha
      omega
    · have := hb.addr_lt q' n hn
      simp only at ha
      omega
    · rfl
  indexOk := restRemainder_indexOk hb hfresh

/-! ## `add_order` as a whole -/

/-- The incoming order of a call on `b`. -/
def Book.incoming (b : Book) (ownerFd : Int) (instrument : Bytes) (side : Side)
    (price : Int) : Incoming :=
  ⟨b.nextOrderId, ownerFd, instrument, side, price⟩

theorem opposite_ne (s : Side) : s.opposite ≠ s := by cases s <;> decide

theorem oppositeQueue_ne_ownQueue (o : Incoming) : o.oppositeQueue ≠ o.ownQueue := by
  intro h
  exact opposite_ne o.side (congrArg QueueId.side h)

/-- The remainder is pushed, or nothing is. -/
def restNodes (addr : Nat) (o : Incoming) (remaining : Int) : List Node :=
  if 0 < remaining then [⟨addr, o.rest remaining⟩] else []

section AddOrder

variable (b : Book) (ownerFd : Int) (instrument : Bytes) (side : Side)
  (quantity price : Int)

/-- The book once the id has been taken. -/
def Book.bumped : Book := { b with nextOrderId := b.nextOrderId + 1 }

/-- The loop's locals when it is left. -/
def Book.loopExit : MatchState :=
  matchLoop (b.incoming ownerFd instrument side price)
    (b.bumped.matchStart (b.incoming ownerFd instrument side price) quantity)

/-- The book in the middle of the call, when the loop's locals are `σ`. -/
def Book.addOrderDuring (σ : MatchState) : Book :=
  b.bumped.during (b.incoming ownerFd instrument side price) σ

theorem addOrder_book :
    (b.addOrder ownerFd instrument side quantity price).book =
      let σ := b.loopExit ownerFd instrument side quantity price
      if σ.remaining > 0 then
        (b.addOrderDuring ownerFd instrument side price σ).restRemainder
          (b.incoming ownerFd instrument side price) σ.remaining
      else b.addOrderDuring ownerFd instrument side price σ := rfl

/-- What matching does on behalf of this call. -/
def Book.matched : Matched :=
  matchNodes price quantity (b.queue ⟨side.opposite, instrument⟩)

theorem addOrder_fills :
    (b.addOrder ownerFd instrument side quantity price).fills =
      (b.incoming ownerFd instrument side price).fillsOf
        (b.matched instrument side quantity price).taken :=
  (matchLoop_spec _ _).2.2

theorem addOrder_nextOrderId :
    (b.addOrder ownerFd instrument side quantity price).book.nextOrderId =
      b.nextOrderId + 1 := by
  unfold Book.addOrder
  dsimp only
  split
  · simp [Book.restRemainder]
  · simp

/-- A node is allocated if something is left to rest. -/
theorem addOrder_nextAddr :
    (b.addOrder ownerFd instrument side quantity price).book.nextAddr =
      if 0 < (b.matched instrument side quantity price).remaining then b.nextAddr + 1
      else b.nextAddr := by
  have hrem : (b.loopExit ownerFd instrument side quantity price).remaining =
      (b.matched instrument side quantity price).remaining := (matchLoop_spec _ _).2.1
  rw [addOrder_book, ← hrem]
  dsimp only
  split
  · simp [Book.restRemainder, Book.addOrderDuring, Book.bumped]
  · simp [Book.addOrderDuring, Book.bumped]

/-- **The queues after `add_order`.** -/
theorem addOrder_queue (q : QueueId) :
    (b.addOrder ownerFd instrument side quantity price).book.queue q =
      if q = ⟨side.opposite, instrument⟩ then
        (b.matched instrument side quantity price).queue
      else if q = ⟨side, instrument⟩ then
        b.queue q ++ restNodes b.nextAddr (b.incoming ownerFd instrument side price)
          (b.matched instrument side quantity price).remaining
      else b.queue q := by
  set o := b.incoming ownerFd instrument side price
  set σ := b.loopExit ownerFd instrument side quantity price
  set m := b.matched instrument side quantity price
  obtain ⟨hqueue, hrem, _⟩ := matchLoop_spec o (b.bumped.matchStart o quantity)
  have hremaining : σ.remaining = m.remaining := hrem
  have hduring : ∀ q', (b.addOrderDuring ownerFd instrument side price σ).queue q' =
      if q' = ⟨side.opposite, instrument⟩ then m.queue else b.queue q' := by
    intro q'
    rw [Book.addOrderDuring, queue_during]
    exact congrArg (fun l => if q' = _ then l else b.queue q') hqueue
  have haddr : (b.addOrderDuring ownerFd instrument side price σ).nextAddr = b.nextAddr := by
    simp [Book.addOrderDuring, Book.bumped]
  have hne : (⟨side.opposite, instrument⟩ : QueueId) ≠ ⟨side, instrument⟩ :=
    oppositeQueue_ne_ownQueue o
  rw [addOrder_book]
  dsimp only
  by_cases hpos : σ.remaining > 0
  · rw [if_pos hpos, queue_restRemainder, hduring, haddr, ← hremaining, restNodes, if_pos hpos]
    by_cases hopp : q = ⟨side.opposite, instrument⟩
    · have hown : ¬ q = o.ownQueue := fun h => hne (hopp.symm.trans h)
      rw [if_neg hown, if_pos hopp, if_pos hopp]
    · rw [if_neg hopp, if_neg hopp]
      rfl
  · rw [if_neg hpos, hduring, ← hremaining, restNodes, if_neg hpos, List.append_nil, ite_self]

variable {b}

/-- Matching leaves a shrunk book. -/
theorem loopExit_shrunk (hb : b.WF) :
    Shrunk b.bumped (b.addOrderDuring ownerFd instrument side price
      (b.loopExit ownerFd instrument side quantity price)) :=
  during_shrunk hb.bump (Loop.reaches_loop _ _)

theorem addOrder_wf (hb : b.WF) :
    (b.addOrder ownerFd instrument side quantity price).book.WF := by
  have hs := loopExit_shrunk ownerFd instrument side quantity price hb
  have hwf := hs.wf hb.bump
  rw [addOrder_book]
  dsimp only
  split
  · next hpos =>
    refine restRemainder_wf hwf hpos ?_ ?_
    · -- every order in the book is older than the one that has just arrived
      intro q n hn
      obtain ⟨m, hm, hk⟩ := hs.origin hn
      rw [← id_of_key hk]
      exact hb.id_lt q m hm
    · rw [hs.nextOrderId]
      show b.nextOrderId < b.nextOrderId + 1
      omega
  · exact hwf

end AddOrder

end SocketExchange.Trading.OrderBook
