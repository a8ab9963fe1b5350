import SocketExchange.Lib.Log
import SocketExchange.Trading.History

/-!
# Time priority

An instrument's orders of one side share a single list whatever their price, so
priority *within* a price has to survive skips, erasures from the middle and
partial fills around it.

The loop invariant is `PriorityInv`: while quantity is left, no node already
passed is at the incoming price, and for every execution made so far no older
order at that level is left.  It holds at every loop head, hence right after
each execution and not only when the call returns.
-/

namespace SocketExchange.Trading.OrderBook

open SocketExchange.Lib
open SocketExchange.Lib.Bytes

/-- No order at the level of the execution, on that side, is older than the one
that received it. -/
def Book.NoOlder (b : Book) (side : Side) (f : Fill) : Prop :=
  ∀ x ∈ b.orders, x.side = side → x.instrument = f.execution.instrument →
    x.price = f.execution.price → ¬ x.id < f.restingId

theorem Shrunk.noOlder {b b' : Book} (h : Shrunk b b') {side : Side} {f : Fill}
    (hb : b.NoOlder side f) : b'.NoOlder side f := by
  intro x hx hside hinst hprice
  obtain ⟨q, n, hn, rfl⟩ := mem_orders.mp hx
  obtain ⟨m, hm, hk⟩ := h.origin hn
  rw [← id_of_key hk]
  exact hb m.order (mem_orders.mpr ⟨q, m, hm, rfl⟩) ((side_of_key hk).trans hside)
    ((instrument_of_key hk).trans hinst) ((price_of_key hk).trans hprice)

/-- Only the queue of that level matters. -/
theorem noOlder_iff_queue {b : Book} (hb : b.WF) {side : Side} {f : Fill} :
    b.NoOlder side f ↔ ∀ n ∈ b.queue ⟨side, f.execution.instrument⟩,
      n.order.price = f.execution.price → ¬ n.order.id < f.restingId := by
  constructor
  · intro h n hn hprice
    obtain ⟨hside, hinst⟩ := hb.own _ n hn
    exact h n.order (mem_orders.mpr ⟨_, n, hn, rfl⟩) hside hinst hprice
  · intro h x hx hside hinst hprice
    obtain ⟨q, n, hn, rfl⟩ := mem_orders.mp hx
    rw [hb.queue_eq hn, hside, hinst] at hn
    exact h n hn hprice

/-! ## The loop invariant -/

/-- What a loop head knows about the nodes behind the iterator and about the
executions made so far. -/
structure PriorityInv (b : Book) (o : Incoming) (σ : MatchState) : Prop where
  wf : (b.during o σ).WF
  passed : 0 < σ.remaining → ∀ n ∈ σ.passed, n.order.price ≠ o.price
  fills : ∀ f ∈ σ.fills, (b.during o σ).NoOlder o.side.opposite f

/-- What one pass pushes: nothing, or the fill of the node under the iterator. -/
theorem matchPass_fills (o : Incoming) (σ : MatchState) (n : Node) (rest : List Node) :
    (n.order.price ≠ o.price ∧ (matchPass o σ n rest).fills = σ.fills) ∨
      (n.order.price = o.price ∧ (matchPass o σ n rest).fills =
        σ.fills ++ [o.fill n.order (min σ.remaining n.order.quantity)]) := by
  unfold matchPass
  by_cases hprice : n.order.price = o.price
  · right
    rw [if_neg (not_not.mpr hprice)]
    dsimp only
    refine ⟨hprice, ?_⟩
    split <;> rfl
  · left
    rw [if_pos hprice]
    exact ⟨hprice, rfl⟩

/-- The nodes behind the iterator after one pass. -/
private theorem matchPass_passed {o : Incoming} {σ : MatchState} {n : Node}
    {rest : List Node} (hpassed : ∀ m ∈ σ.passed, m.order.price ≠ o.price)
    (h : 0 < (matchPass o σ n rest).remaining) :
    ∀ m ∈ (matchPass o σ n rest).passed, m.order.price ≠ o.price := by
  unfold matchPass at h ⊢
  split at h
  · next hprice =>
    rw [if_pos hprice]
    intro m hm
    rcases List.mem_append.mp hm with hm | hm
    · exact hpassed m hm
    · rw [List.mem_singleton] at hm
      subst hm
      exact hprice
  · next hprice =>
    rw [if_neg hprice]
    dsimp only at h ⊢
    split at h
    · next hzero =>
      rw [if_pos hzero]
      exact hpassed
    · -- a partial fill would have used the incoming order up
      next hzero =>
      simp only [Node.reduce] at hzero h
      omega

/-- The nodes of the queue after one pass, compared with the node visited. -/
private theorem matchPass_no_older {o : Incoming} {σ : MatchState} {n : Node}
    {rest : List Node} (hpassed : ∀ m ∈ σ.passed, m.order.price ≠ o.price)
    (hs : (σ.passed ++ n :: rest).Pairwise fun a c => a.order.id < c.order.id)
    (hprice : n.order.price = o.price) :
    ∀ m ∈ (matchPass o σ n rest).passed ++ (matchPass o σ n rest).ahead,
      m.order.price = o.price → ¬ m.order.id < n.order.id := by
  rw [List.pairwise_append, List.pairwise_cons] at hs
  obtain ⟨_, ⟨hrest, _⟩, _⟩ := hs
  have hold : ∀ m ∈ σ.passed, m.order.price = o.price → ¬ m.order.id < n.order.id :=
    fun m hm hp => absurd hp (hpassed m hm)
  have hnew : ∀ m ∈ rest, m.order.price = o.price → ¬ m.order.id < n.order.id := by
    intro m hm _
    have := hrest m hm
    omega
  unfold matchPass
  rw [if_neg (not_not.mpr hprice)]
  dsimp only
  intro m hm hp
  split at hm
  · rcases List.mem_append.mp hm with hm | hm
    · exact hold m hm hp
    · exact hnew m hm hp
  · simp only [List.append_assoc, List.singleton_append, List.mem_append, List.mem_cons] at hm
    rcases hm with hm | rfl | hm
    · exact hold m hm hp
    · simp [Node.reduce]
    · exact hnew m hm hp

/-- **One pass keeps priority.** -/
theorem PriorityInv.step {b : Book} {o : Incoming} {σ σ' : MatchState}
    (h : PriorityInv b o σ) (hstep : matchStep o σ = some σ') : PriorityInv b o σ' := by
  have hshrunk := matchStep_shrunk h.wf hstep
  have hwf := hshrunk.wf h.wf
  unfold matchStep at hstep
  split at hstep
  · cases hstep
  · next n rest hahead =>
    split at hstep
    · next hrem =>
      cases hstep
      have hqueue : (b.during o σ).queue o.oppositeQueue = σ.passed ++ n :: rest := by
        rw [queue_during, if_pos rfl, hahead]
      refine ⟨hwf, matchPass_passed (h.passed hrem), ?_⟩
      intro f hf
      rcases matchPass_fills o σ n rest with ⟨_, hfills⟩ | ⟨hprice, hfills⟩
      · rw [hfills] at hf
        exact hshrunk.noOlder (h.fills f hf)
      · rw [hfills, List.mem_append, List.mem_singleton] at hf
        rcases hf with hf | rfl
        · exact hshrunk.noOlder (h.fills f hf)
        · rw [noOlder_iff_queue hwf]
          intro m hm hp
          have hq : (⟨o.side.opposite, (o.fill n.order (min σ.remaining
              n.order.quantity)).execution.instrument⟩ : QueueId) = o.oppositeQueue := rfl
          rw [hq, queue_during, if_pos rfl] at hm
          exact matchPass_no_older (h.passed hrem) (hqueue ▸ h.wf.sorted o.oppositeQueue)
            hprice m hm hp
    · cases hstep

theorem priorityInv_of_reaches {b : Book} (hb : b.WF) {o : Incoming} {quantity : Int}
    {σ : MatchState} (hr : Loop.Reaches (matchStep o) (b.matchStart o quantity) σ) :
    PriorityInv b o σ := by
  refine hr.invariant (I := PriorityInv b o) (fun _ _ hstep h => h.step hstep) ?_
  exact
    { wf := wf_during_start hb o quantity
      passed := fun _ n hn => absurd hn List.not_mem_nil
      fills := fun f hf => absurd hf List.not_mem_nil }

/-! ## Every execution has its moment -/

private theorem matchStep_fills {o : Incoming} {σ σ' : MatchState}
    (hstep : matchStep o σ = some σ') :
    σ'.fills = σ.fills ∨ ∃ f, σ'.fills = σ.fills ++ [f] := by
  unfold matchStep at hstep
  split at hstep
  · cases hstep
  · next n rest _ =>
    split at hstep
    · cases hstep
      rcases matchPass_fills o σ n rest with ⟨_, h⟩ | ⟨_, h⟩
      · exact Or.inl h
      · exact Or.inr ⟨_, h⟩
    · cases hstep

/-- For each execution there is a loop head at which it is the latest. -/
theorem fill_moment {o : Incoming} {σ₀ σ : MatchState} (h₀ : σ₀.fills = [])
    (hr : Loop.Reaches (matchStep o) σ₀ σ) {before after : List Fill} {f : Fill}
    (hf : σ.fills = before ++ f :: after) :
    ∃ τ, Loop.Reaches (matchStep o) σ₀ τ ∧ τ.fills = before ++ [f] := by
  induction hr generalizing after with
  | refl =>
      rw [h₀] at hf
      simp at hf
  | @tail σ σ' hr hstep ih =>
      rcases matchStep_fills hstep with heq | ⟨g, heq⟩
      · exact ih (heq ▸ hf)
      · rcases Log.split_of_concat (heq ▸ hf) with ⟨_, _, rfl⟩ | ⟨after', _, hold⟩
        · exact ⟨σ', hr.tail hstep, hf⟩
        · exact ih hold

/-! ## Runs -/

theorem Shrunk.ids {b b' : Book} (h : Shrunk b b') (q : QueueId) :
    ((b'.queue q).map (·.order.id)).Sublist ((b.queue q).map (·.order.id)) := by
  have := (h.keys q).map (·.order.id)
  rwa [List.map_map, List.map_map] at this

/-- Orders keep their places; at most one new order joins, at the tail. -/
theorem apply_keeps_places (order : HashOrder) {b : Book} (hb : b.WF) (op : Op)
    (q : QueueId) :
    (((b.apply order op).queue q).map (·.order.id)).Sublist
      ((b.queue q).map (·.order.id) ++ [b.nextOrderId]) := by
  have hleft := List.sublist_append_left ((b.queue q).map (·.order.id)) [b.nextOrderId]
  cases op with
  | addOrder ownerFd instrument side quantity price =>
      have hids := (loopExit_shrunk ownerFd instrument side quantity price hb).ids q
      simp only [Book.apply, addOrder_book]
      split
      · rw [queue_restRemainder]
        split
        · rw [List.map_append]
          exact hids.append (List.Sublist.refl _)
        · exact hids.trans hleft
      · exact hids.trans hleft
  | cancelOrder orderId requesterFd =>
      exact ((cancelOrder_shrunk hb orderId requesterFd).ids q).trans hleft
  | removeOrdersOf ownerFd =>
      exact (((removeOrdersOf_kept order hb ownerFd).shrunk hb).ids q).trans hleft

/-- Resting a remainder does not add to the side it was matched against. -/
private theorem noOlder_restRemainder {b : Book} {o : Incoming} {f : Fill}
    (h : b.NoOlder o.side.opposite f) (remaining : Int) :
    (b.restRemainder o remaining).NoOlder o.side.opposite f := by
  intro x hx hside hinst hprice
  obtain ⟨q, n, hn, rfl⟩ := mem_orders.mp hx
  rcases mem_restRemainder.mp hn with hn | ⟨_, rfl⟩
  · exact h n.order (mem_orders.mpr ⟨q, n, hn, rfl⟩) hside hinst hprice
  · exact absurd hside.symm (opposite_ne o.side)

/-- The loop heads of a call. -/
def Book.AddOrderReaches (b : Book) (ownerFd : Int) (instrument : Bytes) (side : Side)
    (quantity price : Int) : MatchState → Prop :=
  Loop.Reaches (matchStep (b.incoming ownerFd instrument side price))
    (b.bumped.matchStart (b.incoming ownerFd instrument side price) quantity)

/-- **Time priority.**  In every reachable book the queues are in submission
order.  In every further call, at every point where an execution has been made,
no order older than the one that received it is left at its level; each
execution of the call has such a point right after it, and the same holds of
the book the call returns.  No call moves an order within its queue. -/
theorem time_priority (order : HashOrder) (ops : List Op) :
    let b := bookAfter order ops
    (∀ q, (b.queue q).Pairwise fun m n => m.order.id < n.order.id) ∧
    (∀ ownerFd instrument side quantity price,
      let r := b.addOrder ownerFd instrument side quantity price
      (∀ σ, b.AddOrderReaches ownerFd instrument side quantity price σ →
        ∀ f ∈ σ.fills, (b.addOrderDuring ownerFd instrument side price σ).NoOlder
          side.opposite f) ∧
      (∀ before f after, r.fills = before ++ f :: after →
        ∃ σ, b.AddOrderReaches ownerFd instrument side quantity price σ ∧
          σ.fills = before ++ [f]) ∧
      ∀ f ∈ r.fills, r.book.NoOlder side.opposite f) ∧
    ∀ op q, (((b.apply order op).queue q).map (·.order.id)).Sublist
      ((b.queue q).map (·.order.id) ++ [b.nextOrderId]) := by
  intro b
  have hb : b.WF := bookAfter_wf order ops
  refine ⟨hb.sorted, ?_, apply_keeps_places order hb⟩
  intro ownerFd instrument side quantity price
  have hexit : b.AddOrderReaches ownerFd instrument side quantity price
      (b.loopExit ownerFd instrument side quantity price) := Loop.reaches_loop _ _
  have hinv : ∀ σ, b.AddOrderReaches ownerFd instrument side quantity price σ →
      ∀ f ∈ σ.fills, (b.addOrderDuring ownerFd instrument side price σ).NoOlder
        side.opposite f := fun σ hr =>
    (priorityInv_of_reaches hb.bump hr).fills
  refine ⟨hinv, fun before f after hf => fill_moment rfl hexit hf, fun f hf => ?_⟩
  have hlast := hinv _ hexit f hf
  rw [addOrder_book]
  dsimp only
  split
  · exact noOlder_restRemainder hlast _
  · exact hlast

end SocketExchange.Trading.OrderBook
