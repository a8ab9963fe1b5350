import SocketExchange.Lib.Greedy
import SocketExchange.Trading.Cancellation

/-!
# `add_order` is exact-price, first-in-first-out, greedy matching

What the call should do is said without its loop.  Take the opposite queue, keep the
orders at exactly the price, and let the incoming quantity draw on them from the front
(`Lib.Greedy`).  `GreedyMatch` is that, with what becomes of every order of every queue.

The second half splits an order in two.  The opposite side cannot tell: wherever the
split falls, inside a resting order, between two of them or beyond the last, the second
part goes on where the first one stopped.
-/

namespace SocketExchange.Trading.OrderBook

open SocketExchange.Lib
open SocketExchange.Lib.Bytes

/-- The orders of a queue at exactly one price, in queue order. -/
def levelOf (price : Int) (nodes : List Node) : List Node :=
  nodes.filter fun n => n.order.price = price

theorem levelOf_cons_of_eq {price : Int} {n : Node} (h : n.order.price = price)
    (nodes : List Node) : levelOf price (n :: nodes) = n :: levelOf price nodes :=
  List.filter_cons_of_pos (decide_eq_true h)

theorem levelOf_cons_of_ne {price : Int} {n : Node} (h : n.order.price ≠ price)
    (nodes : List Node) : levelOf price (n :: nodes) = levelOf price nodes :=
  List.filter_cons_of_neg (by simpa using h)

/-- What some fills took from the resting order `id`. -/
def tradedWith (id : Int) (fills : List Fill) : Int :=
  (fills.map fun f => if f.restingId = id then f.execution.quantity else 0).sum

theorem tradedWith_fillsOf (o : Incoming) (id : Int) (taken : List (Order × Int)) :
    tradedWith id (o.fillsOf taken) = filledOf id taken := by
  induction taken with
  | nil => rfl
  | cons t taken ih =>
      rw [filledOf, ← ih]
      simp [tradedWith, Incoming.fillsOf, Incoming.fill]

/-! ## Matching draws on the level -/

/-- **What is taken from whom.** -/
theorem matchNodes_taken_eq_draw (price remaining : Int) (nodes : List Node) :
    (matchNodes price remaining nodes).taken =
      ((levelOf price nodes).map Node.order).zip
        (Greedy.draw remaining ((levelOf price nodes).map fun n => n.order.quantity)) := by
  fun_induction matchNodes price remaining nodes with
  | case1 remaining => simp [levelOf]
  | case2 remaining n rest h => rw [Greedy.draw_of_nonpos h, List.zip_nil_right]
  | case3 remaining n rest h hprice m ih =>
      rw [levelOf_cons_of_ne hprice]
      exact ih
  | case4 remaining n rest h hprice traded m hzero ih
  | case5 remaining n rest h hprice traded m hzero ih =>
      rw [levelOf_cons_of_eq (not_not.mp hprice), List.map_cons, List.map_cons,
        Greedy.draw_cons (by omega), List.zip_cons_cons]
      exact congrArg ((n.order, traded) :: ·) ih

/-! ## The call as a whole -/

/-- The quantity of some executions. -/
def volume (executions : List TradeExecution) : Int :=
  (executions.map TradeExecution.quantity).sum

/-- What is left of a resting order by the fills of a call. -/
def Node.after (fills : List Fill) (n : Node) : Option Node :=
  if tradedWith n.order.id fills = n.order.quantity then none
  else some { n with order :=
    { n.order with quantity := n.order.quantity - tradedWith n.order.id fills } }

/-- `r` is what greedy matching at exactly the price makes of an order of `quantity`
units on the book `b`. -/
structure GreedyMatch (b : Book) (ownerFd : Int) (instrument : Bytes) (side : Side)
    (quantity price : Int) (r : AddResult) : Prop where
  orderId : r.orderId = b.nextOrderId
  /-- The fills meet the orders of the level from the front.  Each is for what the
  ones before it left, or for all of the resting order. -/
  fills : ∀ (k : Nat) (f : Fill), r.fills[k]? = some f →
    ∃ n : Node, (levelOf price (b.queue ⟨side.opposite, instrument⟩))[k]? = some n ∧
      f.restingId = n.order.id ∧
      f.execution =
        { buyerFd := if side = .buy then ownerFd else n.order.ownerFd
          sellerFd := if side = .buy then n.order.ownerFd else ownerFd
          instrument := instrument
          quantity := min (quantity - volume (r.executions.take k)) n.order.quantity
          price := price }
  positive : ∀ e ∈ r.executions, 0 < e.quantity
  /-- Only the last order touched can be left with something. -/
  filled : ∀ (k : Nat) (f : Fill) (n : Node), k + 1 < r.fills.length → r.fills[k]? = some f →
    (levelOf price (b.queue ⟨side.opposite, instrument⟩))[k]? = some n →
    f.execution.quantity = n.order.quantity
  total : volume r.executions = min quantity
    ((levelOf price (b.queue ⟨side.opposite, instrument⟩)).map fun n => n.order.quantity).sum
  /-- Everybody keeps their place, less what was traded with them. -/
  opposite : r.book.queue ⟨side.opposite, instrument⟩ =
    (b.queue ⟨side.opposite, instrument⟩).filterMap (Node.after r.fills)
  elsewhere : ∀ n ∈ b.queue ⟨side.opposite, instrument⟩, n.order.price ≠ price →
    tradedWith n.order.id r.fills = 0
  own : r.book.queue ⟨side, instrument⟩ = b.queue ⟨side, instrument⟩ ++
    if quantity - volume r.executions > 0 then
      [⟨b.nextAddr,
        { id := r.orderId
          ownerFd := ownerFd
          instrument := instrument
          side := side
          quantity := quantity - volume r.executions
          price := price }⟩]
    else []
  other : ∀ q, q ≠ ⟨side.opposite, instrument⟩ → q ≠ ⟨side, instrument⟩ →
    r.book.queue q = b.queue q

section AddOrder

variable (b : Book) (ownerFd : Int) (instrument : Bytes) (side : Side) (quantity price : Int)

/-- The quantities of the executions are drawn on the level. -/
theorem addOrder_quantities :
    (b.addOrder ownerFd instrument side quantity price).executions.map
        TradeExecution.quantity =
      Greedy.draw quantity ((levelOf price (b.queue ⟨side.opposite, instrument⟩)).map
        fun n => n.order.quantity) := by
  have hsnd : ∀ (o : Incoming) (taken : List (Order × Int)),
      ((o.fillsOf taken).map Fill.execution).map TradeExecution.quantity =
        taken.map Prod.snd := by
    intro o taken
    simp [Incoming.fillsOf, Incoming.fill, Function.comp_def]
  rw [AddResult.executions, addOrder_fills, hsnd, Book.matched, matchNodes_taken_eq_draw]
  refine List.map_snd_zip ?_
  rw [List.length_map]
  exact (Greedy.length_draw_le _ _).trans (Nat.le_of_eq (List.length_map _))

/-- The fill at a position, from the order of the level at that position. -/
theorem addOrder_fill_at {k : Nat} {f : Fill}
    (h : (b.addOrder ownerFd instrument side quantity price).fills[k]? = some f) :
    ∃ n given, (levelOf price (b.queue ⟨side.opposite, instrument⟩))[k]? = some n ∧
      (Greedy.draw quantity ((levelOf price (b.queue ⟨side.opposite, instrument⟩)).map
        fun n => n.order.quantity))[k]? = some given ∧
      f = (b.incoming ownerFd instrument side price).fill n.order given := by
  rw [addOrder_fills, Incoming.fillsOf, List.getElem?_map, Option.map_eq_some_iff] at h
  obtain ⟨⟨order, given⟩, htaken, rfl⟩ := h
  rw [Book.matched, matchNodes_taken_eq_draw, List.getElem?_zip_eq_some, List.getElem?_map,
    Option.map_eq_some_iff] at htaken
  obtain ⟨⟨n, hn, rfl⟩, hgiven⟩ := htaken
  exact ⟨n, given, hn, hgiven, rfl⟩

theorem volume_addOrder_take (k : Nat) :
    volume ((b.addOrder ownerFd instrument side quantity price).executions.take k) =
      ((Greedy.draw quantity ((levelOf price (b.queue ⟨side.opposite, instrument⟩)).map
        fun n => n.order.quantity)).take k).sum := by
  rw [volume, List.map_take, addOrder_quantities]

/-- What is not executed rests. -/
theorem matched_remaining_eq :
    (b.matched instrument side quantity price).remaining =
      quantity - volume (b.addOrder ownerFd instrument side quantity price).executions := by
  have htotal := matchNodes_total price (b.queue ⟨side.opposite, instrument⟩) quantity
  have hvolume : volume (b.addOrder ownerFd instrument side quantity price).executions =
      takenTotal (b.matched instrument side quantity price).taken := by
    rw [volume, AddResult.executions, addOrder_fills, takenTotal, Incoming.fillsOf,
      List.map_map, List.map_map]
    rfl
  rw [hvolume]
  simp only [Book.matched] at *
  omega

/-- The own side queues up the remainder, if there is one. -/
theorem addOrder_own_queue :
    (b.addOrder ownerFd instrument side quantity price).book.queue ⟨side, instrument⟩ =
      b.queue ⟨side, instrument⟩ ++
        restNodes b.nextAddr (b.incoming ownerFd instrument side price)
          (b.matched instrument side quantity price).remaining := by
  have hne : (⟨side, instrument⟩ : QueueId) ≠ ⟨side.opposite, instrument⟩ := fun h =>
    opposite_ne side (congrArg QueueId.side h).symm
  rw [addOrder_queue, if_neg hne, if_pos rfl]

theorem after_addOrder (n : Node) :
    n.after (b.addOrder ownerFd instrument side quantity price).fills =
      settle (b.matched instrument side quantity price).taken n := by
  rw [Node.after, addOrder_fills, tradedWith_fillsOf, settle]
  simp only [eq_comm, Node.reduce]

end AddOrder

/-- **`add_order` is greedy matching at exactly the price**, on every book the calls of
the class can lead to. -/
theorem add_order_greedy (calls : List Call) (ownerFd : Int) (instrument : Bytes) (side : Side)
    {quantity : Int} (price : Int) (hquantity : 0 < quantity) :
    GreedyMatch (bookReached calls) ownerFd instrument side quantity price
      ((bookReached calls).addOrder ownerFd instrument side quantity price) := by
  have hb := bookReached_wf calls
  set b := bookReached calls
  have hpos : ∀ x ∈ (levelOf price (b.queue ⟨side.opposite, instrument⟩)).map
      (fun n => n.order.quantity), 0 < x := by
    intro x hx
    obtain ⟨n, hn, rfl⟩ := List.mem_map.mp hx
    exact hb.quantity_pos _ n (List.mem_of_mem_filter hn)
  constructor
  case orderId => rfl
  case fills =>
      intro k f hf
      obtain ⟨n, given, hn, hgiven, rfl⟩ := addOrder_fill_at b ownerFd instrument side _ price hf
      obtain ⟨stock, hstock, hmin⟩ := Greedy.getElem?_draw hgiven
      rw [List.getElem?_map, hn] at hstock
      cases hstock
      refine ⟨n, hn, rfl, ?_⟩
      rw [volume_addOrder_take, ← hmin]
      cases side <;> rfl
  case positive =>
      intro e he
      have hmem := List.mem_map_of_mem (f := TradeExecution.quantity) he
      rw [addOrder_quantities] at hmem
      exact Greedy.draw_pos hpos e.quantity hmem
  case filled =>
      intro k f n hk hf hn
      obtain ⟨n', given, hn', hgiven, rfl⟩ :=
        addOrder_fill_at b ownerFd instrument side _ price hf
      rw [hn] at hn'
      cases hn'
      refine Greedy.draw_full ?_ hgiven (by rw [List.getElem?_map, hn]; rfl)
      rw [← addOrder_quantities b ownerFd instrument side quantity price, List.length_map,
        AddResult.executions, List.length_map]
      exact hk
  case total =>
      rw [volume, addOrder_quantities]
      exact Greedy.sum_draw (le_of_lt hquantity) fun x hx => le_of_lt (hpos x hx)
  case opposite =>
      rw [addOrder_queue, if_pos rfl, Book.matched,
        matchNodes_queue _ _ _ (hb.quantity_pos _) (hb.sorted _)]
      exact List.filterMap_congr fun n _ => (after_addOrder b _ _ _ _ _ n).symm
  case elsewhere =>
      intro n hn hprice
      rw [addOrder_fills, tradedWith_fillsOf]
      refine filledOf_of_fresh fun t ht hid => hprice ?_
      obtain ⟨_, _, htprice, m, hm, hmt⟩ := matchNodes_taken _ _ _ (hb.quantity_pos _) t ht
      rw [← hmt] at hid htprice
      rw [← hb.eq_of_id hm hn hid, htprice]
  case own =>
      rw [addOrder_own_queue, restNodes,
        matched_remaining_eq b ownerFd instrument side quantity price]
      rfl
  case other =>
      intro q hopp hown
      rw [addOrder_queue, if_neg hopp, if_neg hown]

/-- Two offers at 100 with one at 101 between them: a bid at 100 takes all of the first
and part of the last. -/
theorem add_order_greedy_sweep :
    ∃ b, b = bookReached [⟨.addOrder 5 (ascii "JNST") .sell 4 100, .stored⟩,
        ⟨.addOrder 6 (ascii "JNST") .sell 9 101, .stored⟩,
        ⟨.addOrder 7 (ascii "JNST") .sell 5 100, .stored⟩] ∧
      GreedyMatch b 8 (ascii "JNST") .buy 6 100 (b.addOrder 8 (ascii "JNST") .buy 6 100) ∧
      (b.addOrder 8 (ascii "JNST") .buy 6 100).executions.map TradeExecution.quantity =
        [4, 2] :=
  ⟨_, rfl, add_order_greedy _ 8 (ascii "JNST") .buy 100 (by decide), by decide⟩

/-! ## Splitting an order -/

/-- What two rounds of matching in a row come to is what one round for both comes to. -/
structure SplitMatch (first second whole : Matched) : Prop where
  queue : second.queue = whole.queue
  remaining : first.remaining + second.remaining = whole.remaining
  filled : ∀ id, filledOf id first.taken + filledOf id second.taken = filledOf id whole.taken

section Rounds

variable {price remaining : Int} {n : Node} (rest : List Node)

private theorem matchNodes_skip (hremaining : 0 < remaining) (hprice : n.order.price ≠ price) :
    matchNodes price remaining (n :: rest) =
      ⟨n :: (matchNodes price remaining rest).queue, (matchNodes price remaining rest).remaining,
        (matchNodes price remaining rest).taken⟩ := by
  rw [matchNodes, if_neg (Int.not_le.mpr hremaining), if_pos hprice]

private theorem matchNodes_fill (hprice : n.order.price = price) (hpos : 0 < n.order.quantity)
    (hle : n.order.quantity ≤ remaining) :
    matchNodes price remaining (n :: rest) =
      ⟨(matchNodes price (remaining - n.order.quantity) rest).queue,
        (matchNodes price (remaining - n.order.quantity) rest).remaining,
        (n.order, n.order.quantity) ::
          (matchNodes price (remaining - n.order.quantity) rest).taken⟩ := by
  rw [matchNodes, if_neg (by omega), if_neg (not_not.mpr hprice), Int.min_eq_right hle]
  dsimp only
  rw [if_pos (Int.sub_self _)]

private theorem matchNodes_part (hprice : n.order.price = price) (hremaining : 0 < remaining)
    (hlt : remaining < n.order.quantity) :
    matchNodes price remaining (n :: rest) =
      ⟨n.reduce remaining :: rest, 0, [(n.order, remaining)]⟩ := by
  rw [matchNodes, if_neg (by omega), if_neg (not_not.mpr hprice),
    Int.min_eq_left (Int.le_of_lt hlt)]
  dsimp only
  rw [if_neg (by omega), Int.sub_self, matchNodes_of_nonpos (Int.le_refl 0)]

end Rounds

/-- The split falls inside the resting order at the front. -/
private theorem splitMatch_inside {price first second : Int} {n : Node} (rest : List Node)
    (hprice : n.order.price = price) (hfirst : 0 < first) (hsecond : 0 < second)
    (hpart : first < n.order.quantity) :
    SplitMatch ⟨n.reduce first :: rest, 0, [(n.order, first)]⟩
      (matchNodes price second (n.reduce first :: rest))
      (matchNodes price (first + second) (n :: rest)) := by
  have hleft : (n.reduce first).order.quantity = n.order.quantity - first := rfl
  rcases lt_or_ge (first + second) n.order.quantity with hboth | hboth
  · -- neither round uses it up
    rw [matchNodes_part (n := n) rest hprice (by omega) hboth,
      matchNodes_part (n := n.reduce first) rest hprice hsecond (by omega)]
    refine ⟨?_, rfl, fun id => ?_⟩
    · simp [Node.reduce, Int.sub_sub]
    · simp only [filledOf, Node.reduce]
      split <;> omega
  · have hrest : second - (n.reduce first).order.quantity =
        first + second - n.order.quantity := by omega
    rw [matchNodes_fill (n := n) rest hprice (by omega) hboth,
      matchNodes_fill (n := n.reduce first) rest hprice (by omega) (by omega), hrest]
    refine ⟨rfl, Int.zero_add _, fun id => ?_⟩
    simp only [filledOf, Node.reduce]
    split <;> omega

/-- **The second round goes on where the first one stopped.** -/
theorem matchNodes_split (price : Int) {second : Int} (hsecond : 0 < second)
    (nodes : List Node) (hpos : ∀ n ∈ nodes, 0 < n.order.quantity) {first : Int}
    (hfirst : 0 ≤ first) :
    SplitMatch (matchNodes price first nodes)
      (matchNodes price second (matchNodes price first nodes).queue)
      (matchNodes price (first + second) nodes) := by
  induction nodes generalizing first with
  | nil => exact ⟨rfl, rfl, fun _ => rfl⟩
  | cons n rest ih =>
      have hn := hpos n (by simp)
      have hrest : ∀ x ∈ rest, 0 < x.order.quantity := fun x hx => hpos x (by simp [hx])
      rcases hfirst.eq_or_lt with rfl | hlt
      · rw [matchNodes_of_nonpos (Int.le_refl 0), Int.zero_add]
        exact ⟨rfl, Int.zero_add _, fun _ => Int.zero_add _⟩
      · by_cases hprice : n.order.price = price
        · rcases lt_or_ge first n.order.quantity with hpart | hle
          · rw [matchNodes_part rest hprice hlt hpart]
            exact splitMatch_inside rest hprice hlt hsecond hpart
          · -- used up by the first round
            have hsum : first + second - n.order.quantity =
                first - n.order.quantity + second := by omega
            obtain ⟨hqueue, hremaining, hfilled⟩ := ih hrest (Int.sub_nonneg.mpr hle)
            rw [matchNodes_fill rest hprice hn hle,
              matchNodes_fill rest hprice hn (by omega : n.order.quantity ≤ first + second),
              hsum]
            refine ⟨hqueue, hremaining, fun id => ?_⟩
            simp only [filledOf]
            rw [← hfilled id, Int.add_assoc]
        · -- passed over by both rounds
          obtain ⟨hqueue, hremaining, hfilled⟩ := ih hrest hfirst
          rw [matchNodes_skip rest hlt hprice, matchNodes_skip _ hsecond hprice,
            matchNodes_skip rest (by omega) hprice]
          exact ⟨congrArg (n :: ·) hqueue, hremaining, hfilled⟩

/-- The quantity of some resting orders. -/
def restingQuantity (nodes : List Node) : Int := (nodes.map fun n => n.order.quantity).sum

theorem restingQuantity_restNodes (addr : Nat) (o : Incoming) {remaining : Int}
    (h : 0 ≤ remaining) : restingQuantity (restNodes addr o remaining) = remaining := by
  unfold restNodes
  split
  · exact Int.add_zero remaining
  · next hzero => exact Int.le_antisymm h (Int.not_lt.mp hzero)

/-- **The other side cannot tell a split order from a whole one.**  It is left the same,
each of its orders has traded the same, and as much rests in the end. -/
theorem split_unnoticed (calls : List Call) (ownerFd : Int) (instrument : Bytes) (side : Side)
    (price : Int) {first second : Int} (hfirst : 0 < first) (hsecond : 0 < second) :
    let b := bookReached calls
    let r₁ := b.addOrder ownerFd instrument side first price
    let r₂ := r₁.book.addOrder ownerFd instrument side second price
    let r := b.addOrder ownerFd instrument side (first + second) price
    r₂.book.queue ⟨side.opposite, instrument⟩ = r.book.queue ⟨side.opposite, instrument⟩ ∧
      (∀ id, tradedWith id r₁.fills + tradedWith id r₂.fills = tradedWith id r.fills) ∧
      ∃ rested rested',
        r₂.book.queue ⟨side, instrument⟩ = b.queue ⟨side, instrument⟩ ++ rested ∧
        r.book.queue ⟨side, instrument⟩ = b.queue ⟨side, instrument⟩ ++ rested' ∧
        restingQuantity rested = restingQuantity rested' := by
  intro b r₁ r₂ r
  have hb : b.WF := bookReached_wf calls
  -- the second call finds the queue the first one left
  have hmatched₁ : r₁.book.queue ⟨side.opposite, instrument⟩ =
      (b.matched instrument side first price).queue := by
    rw [addOrder_queue, if_pos rfl]
  have hmatched₂ : r₁.book.matched instrument side second price =
      matchNodes price second (b.matched instrument side first price).queue := by
    rw [Book.matched, hmatched₁]
  have hsplit : SplitMatch (b.matched instrument side first price)
      (r₁.book.matched instrument side second price)
      (b.matched instrument side (first + second) price) := by
    rw [hmatched₂]
    exact matchNodes_split price hsecond _ (hb.quantity_pos _) (le_of_lt hfirst)
  refine ⟨?_, ?_, ?_⟩
  · rw [addOrder_queue, if_pos rfl, addOrder_queue, if_pos rfl]
    exact hsplit.queue
  · intro id
    show tradedWith id (b.addOrder ownerFd instrument side first price).fills +
      tradedWith id (r₁.book.addOrder ownerFd instrument side second price).fills =
        tradedWith id (b.addOrder ownerFd instrument side (first + second) price).fills
    rw [addOrder_fills, addOrder_fills, addOrder_fills, tradedWith_fillsOf, tradedWith_fillsOf,
      tradedWith_fillsOf]
    exact hsplit.filled id
  · have h₁ := matchNodes_remaining_nonneg price (b.queue ⟨side.opposite, instrument⟩) first
      (le_of_lt hfirst)
    have h₂ := matchNodes_remaining_nonneg price (r₁.book.queue ⟨side.opposite, instrument⟩)
      second (le_of_lt hsecond)
    have h := matchNodes_remaining_nonneg price (b.queue ⟨side.opposite, instrument⟩)
      (first + second) (by omega)
    refine ⟨_, _, (addOrder_own_queue _ _ _ _ _ _).trans ((congrArg (· ++ _)
      (addOrder_own_queue _ _ _ _ _ _)).trans (List.append_assoc _ _ _)),
      addOrder_own_queue _ _ _ _ _ _, ?_⟩
    rw [restingQuantity, List.map_append, List.sum_append]
    exact (congrArg₂ (· + ·) (restingQuantity_restNodes _ _ h₁)
      (restingQuantity_restNodes _ _ h₂)).trans
      (hsplit.remaining.trans (restingQuantity_restNodes _ _ h).symm)

/-- A bid for 7 in two parts, the first of which ends inside the second offer. -/
theorem split_unnoticed_inside :
    ∃ b, b = bookReached [⟨.addOrder 5 (ascii "IMCT") .sell 2 30, .stored⟩,
        ⟨.addOrder 6 (ascii "IMCT") .sell 3 30, .stored⟩] ∧
      ((b.addOrder 9 (ascii "IMCT") .buy 4 30).book.addOrder 9 (ascii "IMCT") .buy 3 30).book.queue
          ⟨.sell, ascii "IMCT"⟩ =
        (b.addOrder 9 (ascii "IMCT") .buy 7 30).book.queue ⟨.sell, ascii "IMCT"⟩ ∧
      (b.addOrder 9 (ascii "IMCT") .buy 7 30).executions.map TradeExecution.quantity = [2, 3] :=
  ⟨_, rfl, (split_unnoticed _ 9 (ascii "IMCT") .buy 30 (by decide : (0 : Int) < 4)
    (by decide : (0 : Int) < 3)).1, by decide⟩

end SocketExchange.Trading.OrderBook
