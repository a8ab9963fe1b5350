import SocketExchange.Trading.Greedy

/-!
# Price levels do not interfere

All prices of an instrument share one list per side.  An order is matched by walking
that list past every other price, and cancels and removals reach into it through an
index shared by the whole book.

Still, each level lives a life of its own.  `project` keeps, of a sequence of calls, the
orders submitted at one level, the cancels that name one of them, and all removals.  A
book that is given only these calls has the same orders at the level, in the same order,
and has made the same executions there.  What differs is the numbering: an order that was
the `k`-th of its level is called `k` in the smaller run.

The two runs are compared level by level through `Node.alias`, which forgets where a node was
allocated and renames its order.
-/

namespace SocketExchange.Trading.OrderBook

open SocketExchange.Lib
open SocketExchange.Lib.Bytes

/-- A price of an instrument. -/
structure Level where
  instrument : Bytes
  price : Int
  deriving Repr, DecidableEq

/-! ## The calls that concern a level -/

/-- The new name of the order `id`, if `ids` are the orders of its level so far. -/
def rename (ids : List Int) (id : Int) : Int := ids.idxOf id + 1

/-- The calls that concern the level `l`.  `next` is the id the next order gets, and `ids`
are those that the orders of the level got. -/
def projectFrom (l : Level) (next : Int) (ids : List Int) : List Op → List Op
  | [] => []
  | .addOrder ownerFd instrument side quantity price :: ops =>
      if instrument = l.instrument ∧ price = l.price then
        .addOrder ownerFd instrument side quantity price ::
          projectFrom l (next + 1) (ids ++ [next]) ops
      else projectFrom l (next + 1) ids ops
  | .cancelOrder orderId requesterFd :: ops =>
      if orderId ∈ ids then
        .cancelOrder (rename ids orderId) requesterFd :: projectFrom l next ids ops
      else projectFrom l next ids ops
  | .removeOrdersOf ownerFd :: ops => .removeOrdersOf ownerFd :: projectFrom l next ids ops

/-- The calls of a run on a new book that concern the level `l`. -/
def project (l : Level) (ops : List Op) : List Op := projectFrom l 1 [] ops

/-- The ids given to the orders of a level. -/
def idsFrom (l : Level) (next : Int) (ids : List Int) : List Op → List Int
  | [] => ids
  | .addOrder _ instrument _ _ price :: ops =>
      if instrument = l.instrument ∧ price = l.price then
        idsFrom l (next + 1) (ids ++ [next]) ops
      else idsFrom l (next + 1) ids ops
  | .cancelOrder _ _ :: ops => idsFrom l next ids ops
  | .removeOrdersOf _ :: ops => idsFrom l next ids ops

def idsAt (l : Level) (ops : List Op) : List Int := idsFrom l 1 [] ops

example : project ⟨ascii "JNST", 7⟩
    [.addOrder 4 (ascii "JNST") .buy 1 8, .addOrder 5 (ascii "JNST") .buy 1 7,
      .cancelOrder 1 4, .cancelOrder 2 5, .removeOrdersOf 4] =
    [.addOrder 5 (ascii "JNST") .buy 1 7, .cancelOrder 1 5, .removeOrdersOf 4] := by decide

/-! ## Matching at one level -/

/-- Orders at another price are walked past and nothing else. -/
theorem matchNodes_levelOf (price remaining : Int) (nodes : List Node) :
    matchNodes price remaining (levelOf price nodes) =
      ⟨levelOf price (matchNodes price remaining nodes).queue,
        (matchNodes price remaining nodes).remaining,
        (matchNodes price remaining nodes).taken⟩ := by
  fun_induction matchNodes price remaining nodes with
  | case1 remaining => rfl
  | case2 remaining n rest h => exact matchNodes_of_nonpos h _
  | case3 remaining n rest h hprice m ih =>
      rw [levelOf_cons_of_ne hprice, ih, levelOf_cons_of_ne hprice]
  | case4 remaining n rest h hprice traded m hzero ih =>
      rw [levelOf_cons_of_eq (not_not.mp hprice), matchNodes, if_neg h, if_neg hprice]
      dsimp only
      rw [if_pos hzero, ih]
  | case5 remaining n rest h hprice traded m hzero ih =>
      have hreduced : (n.reduce traded).order.price = price := not_not.mp hprice
      rw [levelOf_cons_of_eq (not_not.mp hprice), levelOf_cons_of_eq hreduced, matchNodes,
        if_neg h, if_neg hprice]
      dsimp only
      rw [if_neg hzero, ih]

/-- Matching at a price leaves the other levels as they were. -/
theorem levelOf_matchNodes_ne {price price' : Int} (hne : price' ≠ price) (remaining : Int)
    (nodes : List Node) :
    levelOf price' (matchNodes price remaining nodes).queue = levelOf price' nodes := by
  fun_induction matchNodes price remaining nodes with
  | case1 remaining => rfl
  | case2 remaining n rest h => rfl
  | case3 remaining n rest h hprice m ih =>
      by_cases hn : n.order.price = price'
      · rw [levelOf_cons_of_eq hn, levelOf_cons_of_eq hn, ih]
      · rw [levelOf_cons_of_ne hn, levelOf_cons_of_ne hn, ih]
  | case4 remaining n rest h hprice traded m hzero ih =>
      have hn : n.order.price ≠ price' := fun heq => hne (heq.symm.trans (not_not.mp hprice))
      rw [levelOf_cons_of_ne hn]
      exact ih
  | case5 remaining n rest h hprice traded m hzero ih =>
      have hn : n.order.price ≠ price' := fun heq => hne (heq.symm.trans (not_not.mp hprice))
      have hreduced : (n.reduce traded).order.price ≠ price' := hn
      rw [levelOf_cons_of_ne hn, levelOf_cons_of_ne hreduced]
      exact ih

/-! ## Orders under another name -/

/-- The order under another name. -/
def Order.alias (r : Int → Int) (o : Order) : Order := { o with id := r o.id }

/-- The order of a node under another name, wherever it was allocated. -/
def Node.alias (r : Int → Int) (n : Node) : Node := ⟨0, n.order.alias r⟩

/-- Matching does not look at names. -/
theorem matchNodes_alias (r : Int → Int) (price remaining : Int) (nodes : List Node) :
    matchNodes price remaining (nodes.map (Node.alias r)) =
      ⟨(matchNodes price remaining nodes).queue.map (Node.alias r),
        (matchNodes price remaining nodes).remaining,
        (matchNodes price remaining nodes).taken.map fun t => (t.1.alias r, t.2)⟩ := by
  have hprice : ∀ n : Node, (n.alias r).order.price = n.order.price := fun _ => rfl
  have hquantity : ∀ n : Node, (n.alias r).order.quantity = n.order.quantity := fun _ => rfl
  fun_induction matchNodes price remaining nodes with
  | case1 remaining => rfl
  | case2 remaining n rest h => exact matchNodes_of_nonpos h _
  | case3 remaining n rest h hne m ih =>
      rw [List.map_cons, matchNodes, if_neg h, hprice, if_pos hne, ih]
      rfl
  | case4 remaining n rest h heq traded m hzero ih =>
      rw [List.map_cons, matchNodes, if_neg h, hprice, if_neg heq, hquantity]
      dsimp only
      rw [if_pos hzero, ih]
      rfl
  | case5 remaining n rest h heq traded m hzero ih =>
      rw [List.map_cons, matchNodes, if_neg h, hprice, if_neg heq, hquantity]
      dsimp only
      rw [if_neg hzero, ih]
      rfl

/-- The nodes of the book at a level, on one side. -/
def Book.level (b : Book) (l : Level) (side : Side) : List Node :=
  levelOf l.price (b.queue ⟨side, l.instrument⟩)

theorem mem_level {b : Book} (hb : b.WF) {l : Level} {n : Node} :
    (∃ side, n ∈ b.level l side) ↔
      (∃ q, n ∈ b.queue q) ∧ n.order.instrument = l.instrument ∧ n.order.price = l.price := by
  constructor
  · rintro ⟨side, hn⟩
    obtain ⟨hmem, hprice⟩ := List.mem_filter.mp hn
    exact ⟨⟨_, hmem⟩, (hb.own _ n hmem).2, of_decide_eq_true hprice⟩
  · rintro ⟨⟨q, hn⟩, hinstrument, hprice⟩
    refine ⟨n.order.side, List.mem_filter.mpr ⟨?_, decide_eq_true hprice⟩⟩
    rw [← hinstrument, ← hb.queue_eq hn]
    exact hn

section AddOrder

variable (b : Book) (ownerFd : Int) (l : Level) (side : Side) (quantity : Int)

/-- What matching does on behalf of an order at the level. -/
def Book.matchedAt : Matched := matchNodes l.price quantity (b.level l side.opposite)

theorem matched_eq_matchedAt :
    (b.matched l.instrument side quantity l.price).remaining =
        (b.matchedAt l side quantity).remaining ∧
      (b.matched l.instrument side quantity l.price).taken =
        (b.matchedAt l side quantity).taken := by
  rw [Book.matchedAt, Book.level, matchNodes_levelOf]
  exact ⟨rfl, rfl⟩

theorem level_addOrder_opposite :
    (b.addOrder ownerFd l.instrument side quantity l.price).book.level l side.opposite =
      (b.matchedAt l side quantity).queue := by
  rw [Book.matchedAt, Book.level, Book.level, addOrder_queue, if_pos rfl, matchNodes_levelOf]
  rfl

theorem level_addOrder_own :
    (b.addOrder ownerFd l.instrument side quantity l.price).book.level l side =
      b.level l side ++ restNodes b.nextAddr (b.incoming ownerFd l.instrument side l.price)
        (b.matchedAt l side quantity).remaining := by
  rw [Book.level, addOrder_own_queue, levelOf, List.filter_append,
    (matched_eq_matchedAt b l side quantity).1]
  congr 1
  rw [List.filter_eq_self]
  intro n hn
  unfold restNodes at hn
  split at hn
  · rw [List.mem_singleton.mp hn]
    exact decide_eq_true rfl
  · cases hn

/-- An order at another level. -/
theorem level_addOrder_elsewhere {instrument : Bytes} {price : Int}
    (hother : ¬ (instrument = l.instrument ∧ price = l.price)) (side' : Side) :
    (b.addOrder ownerFd instrument side quantity price).book.level l side' =
      b.level l side' := by
  rw [Book.level, Book.level, addOrder_queue]
  split
  · next hq =>
    obtain ⟨rfl, rfl⟩ := QueueId.mk.inj hq
    have hne : l.price ≠ price := fun heq => hother ⟨rfl, heq.symm⟩
    rw [Book.matched, levelOf_matchNodes_ne hne]
  · split
    · next hq =>
      obtain ⟨rfl, rfl⟩ := QueueId.mk.inj hq
      rw [levelOf, levelOf, List.filter_append, List.append_right_eq_self, List.filter_eq_nil_iff]
      intro n hn
      unfold restNodes at hn
      split at hn
      · rw [List.mem_singleton.mp hn]
        exact fun heq => hother ⟨rfl, of_decide_eq_true heq⟩
      · cases hn
    · rfl

end AddOrder

/-- An order that was listed before keeps its name. -/
private theorem rename_append_old {ids : List Int} {id : Int} (hid : id ∈ ids) (next : Int) :
    rename (ids ++ [next]) id = rename ids id := by
  rw [rename, rename, List.idxOf_append_of_mem hid]

private theorem rename_append_new {ids : List Int} {next : Int} (hnext : next ∉ ids) :
    rename (ids ++ [next]) next = ids.length + 1 := by
  rw [rename, List.idxOf_append_of_notMem hnext, List.idxOf_cons_self, Nat.add_zero]

/-- `b'` is the book of the level `l` of `b`, whose orders so far were `ids`. -/
structure Mirror (l : Level) (ids : List Int) (b b' : Book) : Prop where
  wf : b.WF
  wf' : b'.WF
  numbered : b'.nextOrderId = ids.length + 1
  past : ∀ id ∈ ids, id < b.nextOrderId
  /-- The orders at the level are the ones listed. -/
  listed : ∀ q, ∀ n ∈ b.queue q, n.order.id ∈ ids ↔
    n.order.instrument = l.instrument ∧ n.order.price = l.price
  alone : ∀ q, ∀ n ∈ b'.queue q, n.order.instrument = l.instrument ∧ n.order.price = l.price
  level : ∀ side, (b'.level l side).map (Node.alias id) =
    (b.level l side).map (Node.alias (rename ids))

section Mirror

variable {l : Level} {ids : List Int} {b b' : Book} (h : Mirror l ids b b')

include h

theorem Mirror.mem_ids {side : Side} {n : Node} (hn : n ∈ b.level l side) : n.order.id ∈ ids := by
  obtain ⟨⟨q, hq⟩, hhere⟩ := (mem_level h.wf).mp ⟨side, hn⟩
  exact (h.listed q n hq).mpr hhere

/-- Each order of the level has its counterpart. -/
theorem Mirror.counterpart {side : Side} {n : Node} (hn : n ∈ b.level l side) :
    ∃ n' ∈ b'.level l side, n'.order = n.order.alias (rename ids) := by
  have hmem := List.mem_map_of_mem (f := Node.alias (rename ids)) hn
  rw [← h.level side] at hmem
  obtain ⟨n', hn', heq⟩ := List.mem_map.mp hmem
  exact ⟨n', hn', congrArg Node.order heq⟩

theorem Mirror.original {side : Side} {n' : Node} (hn' : n' ∈ b'.level l side) :
    ∃ n ∈ b.level l side, n'.order = n.order.alias (rename ids) := by
  have hmem := List.mem_map_of_mem (f := Node.alias id) hn'
  rw [h.level side] at hmem
  obtain ⟨n, hn, heq⟩ := List.mem_map.mp hmem
  exact ⟨n, hn, (congrArg Node.order heq).symm⟩

/-- Erasing orders from both, under the names they have there. -/
theorem Mirror.kept {keep keep' : Order → Bool} {c c' : Book} (hk : Kept keep b c)
    (hk' : Kept keep' b' c')
    (hsame : ∀ side, ∀ n ∈ b.level l side,
      keep' (n.order.alias (rename ids)) = keep n.order) : Mirror l ids c c' where
  wf := (hk.shrunk h.wf).wf h.wf
  wf' := (hk'.shrunk h.wf').wf h.wf'
  numbered := hk'.nextOrderId.trans h.numbered
  past := fun id hid => by
    rw [hk.nextOrderId]
    exact h.past id hid
  listed := fun q n hn => h.listed q n (hk.mem.mp hn).1
  alone := fun q n hn => h.alone q n (hk'.mem.mp hn).1
  level := by
    intro side
    have hlevel : ∀ {keep : Order → Bool} {b c : Book}, Kept keep b c →
        c.level l side = (b.level l side).filter fun n => keep n.order := by
      intro keep b c hk
      rw [Book.level, Book.level, hk.queue, levelOf, levelOf, List.filter_filter,
        List.filter_filter]
      simp only [Bool.and_comm]
    have hid : (fun n : Node => keep' n.order) = (fun n => keep' n.order) ∘ Node.alias id := rfl
    calc (c'.level l side).map (Node.alias id)
        = ((b'.level l side).map (Node.alias id)).filter fun n => keep' n.order := by
          rw [hlevel hk', List.filter_map, ← hid]
      _ = ((b.level l side).map (Node.alias (rename ids))).filter fun n => keep' n.order := by
          rw [h.level side]
      _ = (c.level l side).map (Node.alias (rename ids)) := by
          rw [List.filter_map, hlevel hk]
          exact congrArg _ (List.filter_congr fun n hn => hsame side n hn)

theorem Mirror.removeOrdersOf (order order' : HashOrder) (fd : Int) :
    Mirror l ids (b.removeOrdersOf order fd) (b'.removeOrdersOf order' fd) :=
  h.kept (removeOrdersOf_kept order h.wf fd) (removeOrdersOf_kept order' h.wf' fd)
    fun _ _ _ => rfl

/-- A cancel that does not name an order of the level. -/
theorem Mirror.cancelElsewhere {orderId : Int} (hother : orderId ∉ ids) (fd : Int) :
    Mirror l ids (b.cancelOrder orderId fd).book b' := by
  rcases cancelOrder_cases h.wf orderId fd with ⟨_, hbook, _⟩ | ⟨_, _, hk⟩
  · rw [hbook]
    exact h
  · refine h.kept hk (kept_refl h.wf') fun side n hn => ?_
    have hne : n.order.id ≠ orderId := fun heq => hother (heq ▸ h.mem_ids hn)
    rw [decide_eq_true hne]

/-- A name stands for one order of the level. -/
theorem Mirror.rename_inj {side : Side} {n : Node} (hn : n ∈ b.level l side) {id : Int} :
    rename ids n.order.id = rename ids id ↔ n.order.id = id := by
  constructor
  · intro heq
    rw [rename, rename, add_left_inj, Nat.cast_inj] at heq
    exact (List.idxOf_inj (h.mem_ids hn)).mp heq
  · intro heq
    rw [heq]

/-- The two books agree on whether a cancel is granted. -/
theorem Mirror.cancellable {orderId : Int} (hid : orderId ∈ ids) (fd : Int) :
    (∃ q, ∃ n ∈ b.queue q, n.order.id = orderId ∧ n.order.ownerFd = fd) ↔
      ∃ q, ∃ n ∈ b'.queue q, n.order.id = rename ids orderId ∧ n.order.ownerFd = fd := by
  constructor
  · rintro ⟨q, n, hn, rfl, howner⟩
    obtain ⟨side, hlevel⟩ := (mem_level h.wf).mpr ⟨⟨q, hn⟩, (h.listed q n hn).mp hid⟩
    obtain ⟨n', hn', hsame⟩ := h.counterpart hlevel
    refine ⟨_, n', List.mem_of_mem_filter hn', ?_, ?_⟩
    · rw [hsame]
      rfl
    · rw [hsame]
      exact howner
  · rintro ⟨q, n', hn', hname, howner⟩
    obtain ⟨side, hlevel⟩ := (mem_level h.wf').mpr ⟨⟨q, hn'⟩, h.alone q n' hn'⟩
    obtain ⟨n, hn, hsame⟩ := h.original hlevel
    rw [hsame] at hname howner
    exact ⟨_, n, List.mem_of_mem_filter hn, (h.rename_inj hn).mp hname, howner⟩

theorem Mirror.cancelOrder {orderId : Int} (hid : orderId ∈ ids) (fd : Int) :
    Mirror l ids (b.cancelOrder orderId fd).book (b'.cancelOrder (rename ids orderId) fd).book := by
  rcases cancelOrder_cases h.wf orderId fd with ⟨_, hbook, hno⟩ | ⟨_, hyes, hk⟩
  · rcases cancelOrder_cases h.wf' (rename ids orderId) fd with ⟨_, hbook', _⟩ | ⟨_, hyes', _⟩
    · rw [hbook, hbook']
      exact h
    · obtain ⟨q, n, hn, hname, howner⟩ := (h.cancellable hid fd).mpr hyes'
      exact absurd howner (hno q n hn hname)
  · rcases cancelOrder_cases h.wf' (rename ids orderId) fd with ⟨_, _, hno'⟩ | ⟨_, _, hk'⟩
    · obtain ⟨q, n, hn, hname, howner⟩ := (h.cancellable hid fd).mp hyes
      exact absurd howner (hno' q n hn hname)
    · refine h.kept hk hk' fun side n hn => ?_
      rw [decide_eq_decide]
      exact not_congr (h.rename_inj hn)

/-- An order at another level: the book of this one does not hear of it. -/
theorem Mirror.addElsewhere (ownerFd : Int) {instrument : Bytes} (side : Side) (quantity : Int)
    {price : Int} (hother : ¬ (instrument = l.instrument ∧ price = l.price)) :
    Mirror l ids (b.addOrder ownerFd instrument side quantity price).book b' where
  wf := addOrder_wf ownerFd instrument side quantity price h.wf
  wf' := h.wf'
  numbered := h.numbered
  past := fun id hid => by
    rw [addOrder_nextOrderId]
    have := h.past id hid
    omega
  listed := by
    intro q n hn
    rcases (mem_addOrder h.wf ownerFd instrument side quantity price).mp hn with
      ⟨m, hm, _, rfl⟩ | ⟨_, _, rfl⟩
    · exact h.listed q m hm
    · exact iff_of_false (fun hid => Int.lt_irrefl _ (h.past _ hid)) hother
  alone := h.alone
  level := fun side' => by
    rw [level_addOrder_elsewhere b ownerFd l side quantity hother, h.level side']

/-- The two books make the same of an order at the level. -/
theorem Mirror.matchedAt (side : Side) (quantity : Int) :
    (b'.matchedAt l side quantity).queue.map (Node.alias id) =
        (b.matchedAt l side quantity).queue.map (Node.alias (rename ids)) ∧
      (b'.matchedAt l side quantity).remaining = (b.matchedAt l side quantity).remaining ∧
      (b'.matchedAt l side quantity).taken.map (fun t => (t.1.alias id, t.2)) =
        (b.matchedAt l side quantity).taken.map fun t => (t.1.alias (rename ids), t.2) := by
  have hsame : matchNodes l.price quantity ((b'.level l side.opposite).map (Node.alias id)) =
      matchNodes l.price quantity
        ((b.level l side.opposite).map (Node.alias (rename ids))) := by
    rw [h.level side.opposite]
  rw [matchNodes_alias, matchNodes_alias, Matched.mk.injEq] at hsame
  exact hsame

theorem Mirror.executions (ownerFd : Int) (side : Side) (quantity : Int) :
    (b'.addOrder ownerFd l.instrument side quantity l.price).executions =
      (b.addOrder ownerFd l.instrument side quantity l.price).executions := by
  have hexecutions : ∀ (c : Book) (r : Int → Int),
      (c.addOrder ownerFd l.instrument side quantity l.price).executions =
        ((c.matchedAt l side quantity).taken.map fun t => (t.1.alias r, t.2)).map fun t =>
          ((Incoming.mk 0 ownerFd l.instrument side l.price).fill t.1 t.2).execution := by
    intro c r
    rw [AddResult.executions, addOrder_fills, (matched_eq_matchedAt c l side quantity).2,
      Incoming.fillsOf, List.map_map, List.map_map]
    rfl
  rw [hexecutions b' id, (h.matchedAt side quantity).2.2, ← hexecutions]

/-- The remainder of an order at the level, under the name it gets. -/
private theorem Mirror.restNodes (ownerFd : Int) (side : Side) (addr addr' : Nat)
    (remaining : Int) :
    (restNodes addr' (b'.incoming ownerFd l.instrument side l.price) remaining).map
        (Node.alias id) =
      (restNodes addr (b.incoming ownerFd l.instrument side l.price) remaining).map
        (Node.alias (rename (ids ++ [b.nextOrderId]))) := by
  have hnew : b.nextOrderId ∉ ids := fun hid => Int.lt_irrefl _ (h.past _ hid)
  have hname : b'.nextOrderId = rename (ids ++ [b.nextOrderId]) b.nextOrderId := by
    rw [rename_append_new hnew, h.numbered]
  unfold OrderBook.restNodes
  split
  · simp only [List.map_cons, List.map_nil, Node.alias, Order.alias, Incoming.rest,
      Book.incoming, id_eq, hname]
  · rfl

/-- The orders that are left by matching were listed before. -/
private theorem Mirror.mem_ids_matchedAt {side : Side} {quantity : Int} {n : Node}
    (hn : n ∈ (b.matchedAt l side quantity).queue) : n.order.id ∈ ids := by
  have hmem : ∀ m ∈ b.level l side.opposite, m ∈ b.queue ⟨side.opposite, l.instrument⟩ :=
    fun m hm => List.mem_of_mem_filter hm
  obtain ⟨m, hm, hkey⟩ := matchNodes_origin
    (fun m hm => h.wf.quantity_pos _ m (hmem m hm)) ((h.wf.sorted _).filter _) hn
  rw [← id_of_key hkey]
  exact h.mem_ids hm

/-- **An order at the level** is the next one in both books. -/
theorem Mirror.addOrder (ownerFd : Int) (side : Side) (quantity : Int) :
    Mirror l (ids ++ [b.nextOrderId])
      (b.addOrder ownerFd l.instrument side quantity l.price).book
      (b'.addOrder ownerFd l.instrument side quantity l.price).book where
  wf := addOrder_wf ownerFd l.instrument side quantity l.price h.wf
  wf' := addOrder_wf ownerFd l.instrument side quantity l.price h.wf'
  numbered := by
    rw [addOrder_nextOrderId, h.numbered, List.length_append]
    push_cast
    rfl
  past := by
    intro id hid
    rw [addOrder_nextOrderId]
    rcases List.mem_append.mp hid with hid | hid
    · have := h.past id hid
      omega
    · rw [List.mem_singleton.mp hid]
      omega
  listed := by
    intro q n hn
    rw [List.mem_append, List.mem_singleton]
    rcases (mem_addOrder h.wf ownerFd l.instrument side quantity l.price).mp hn with
      ⟨m, hm, _, rfl⟩ | ⟨_, _, rfl⟩
    · have hold := h.wf.id_lt q m hm
      rw [or_iff_left (fun heq => Int.lt_irrefl _ (heq ▸ hold))]
      exact h.listed q m hm
    · exact iff_of_true (Or.inr rfl) ⟨rfl, rfl⟩
  alone := by
    intro q n hn
    rcases (mem_addOrder h.wf' ownerFd l.instrument side quantity l.price).mp hn with
      ⟨m, hm, _, rfl⟩ | ⟨_, _, rfl⟩
    · exact h.alone q m hm
    · exact ⟨rfl, rfl⟩
  level := by
    intro side'
    have hlisted : ∀ nodes : List Node, (∀ n ∈ nodes, n.order.id ∈ ids) →
        nodes.map (Node.alias (rename ids)) =
          nodes.map (Node.alias (rename (ids ++ [b.nextOrderId]))) := by
      intro nodes hnodes
      refine List.map_congr_left fun n hn => ?_
      rw [Node.alias, Node.alias, Order.alias, Order.alias, rename_append_old (hnodes n hn)]
    by_cases hside : side' = side
    · subst hside
      rw [level_addOrder_own, level_addOrder_own, List.map_append, List.map_append, h.level,
        (h.matchedAt side' quantity).2.1, hlisted _ fun n hn => h.mem_ids hn]
      exact congrArg _ (h.restNodes ownerFd side' _ _ _)
    · have hopposite : side' = side.opposite := by
        revert hside
        cases side' <;> cases side <;> decide
      subst hopposite
      rw [level_addOrder_opposite, level_addOrder_opposite, (h.matchedAt side quantity).1]
      exact hlisted _ fun n hn => h.mem_ids_matchedAt hn

end Mirror

/-! ## Runs -/

/-- The executions of one call. -/
def Book.executionsBy (b : Book) : Op → List TradeExecution
  | .addOrder ownerFd instrument side quantity price =>
      (b.addOrder ownerFd instrument side quantity price).executions
  | _ => []

/-- The executions of a sequence of calls, in the order they are made. -/
def Book.executionsFrom (b : Book) : List Call → List TradeExecution
  | [] => []
  | c :: calls => b.executionsBy c.op ++ (b.call c).executionsFrom calls

/-- The executions of a sequence of calls on a new book. -/
def executionsIn (calls : List Call) : List TradeExecution := Book.empty.executionsFrom calls

def Level.has (l : Level) (e : TradeExecution) : Bool :=
  e.instrument = l.instrument ∧ e.price = l.price

/-- The executions of an order at some level are at that level. -/
theorem executions_level (b : Book) (ownerFd : Int) (instrument : Bytes) (side : Side)
    (quantity price : Int) :
    ∀ e ∈ (b.addOrder ownerFd instrument side quantity price).executions,
      e.instrument = instrument ∧ e.price = price := by
  intro e he
  rw [AddResult.executions, addOrder_fills, Incoming.fillsOf, List.map_map] at he
  obtain ⟨t, _, rfl⟩ := List.mem_map.mp he
  exact ⟨rfl, rfl⟩

theorem filter_executions_at (b : Book) (ownerFd : Int) (l : Level) (side : Side)
    (quantity : Int) :
    (b.addOrder ownerFd l.instrument side quantity l.price).executions.filter l.has =
      (b.addOrder ownerFd l.instrument side quantity l.price).executions := by
  rw [List.filter_eq_self]
  intro e he
  exact decide_eq_true (executions_level b ownerFd l.instrument side quantity l.price e he)

theorem filter_executions_elsewhere (b : Book) (ownerFd : Int) {l : Level} {instrument : Bytes}
    (side : Side) (quantity : Int) {price : Int}
    (hother : ¬ (instrument = l.instrument ∧ price = l.price)) :
    (b.addOrder ownerFd instrument side quantity price).executions.filter l.has = [] := by
  rw [List.filter_eq_nil_iff]
  intro e he hhas
  obtain ⟨hinstrument, hprice⟩ := executions_level b ownerFd instrument side quantity price e he
  have hat : e.instrument = l.instrument ∧ e.price = l.price := of_decide_eq_true hhas
  rw [hinstrument, hprice] at hat
  exact hother hat

/-- **The run lemma.**  The small book follows the level through every run. -/
theorem Mirror.run {l : Level} {ids : List Int} {b b' : Book} (h : Mirror l ids b b')
    {calls calls' : List Call}
    (hproject : calls'.map Call.op = projectFrom l b.nextOrderId ids (calls.map Call.op)) :
    (b.executionsFrom calls).filter l.has = b'.executionsFrom calls' ∧
      Mirror l (idsFrom l b.nextOrderId ids (calls.map Call.op)) (Loop.run Book.call b calls)
        (Loop.run Book.call b' calls') := by
  induction calls generalizing ids b b' calls' with
  | nil =>
      rw [List.map_nil, projectFrom, List.map_eq_nil_iff] at hproject
      subst hproject
      exact ⟨rfl, h⟩
  | cons c calls ih =>
      obtain ⟨op, order⟩ := c
      rw [List.map_cons] at hproject ⊢
      cases op with
      | addOrder ownerFd instrument side quantity price =>
          have hnext := addOrder_nextOrderId b ownerFd instrument side quantity price
          rw [projectFrom, ← hnext] at hproject
          rw [idsFrom, ← hnext]
          by_cases hhere : instrument = l.instrument ∧ price = l.price
          · rw [if_pos hhere] at hproject ⊢
            obtain ⟨rfl, rfl⟩ := hhere
            obtain ⟨⟨op', order'⟩, rest', rfl, hop, hrest⟩ := List.map_eq_cons_iff.mp hproject
            obtain rfl : op' = _ := hop
            obtain ⟨hexecutions, hmirror⟩ := ih (h.addOrder ownerFd side quantity) hrest
            refine ⟨?_, hmirror⟩
            rw [Book.executionsFrom, Book.executionsFrom, List.filter_append]
            refine congrArg₂ (· ++ ·) ?_ hexecutions
            exact (filter_executions_at b ownerFd l side quantity).trans
              (h.executions ownerFd side quantity).symm
          · rw [if_neg hhere] at hproject ⊢
            obtain ⟨hexecutions, hmirror⟩ :=
              ih (h.addElsewhere ownerFd side quantity hhere) hproject
            refine ⟨?_, hmirror⟩
            rw [Book.executionsFrom, List.filter_append]
            exact congrArg₂ (· ++ ·)
              (filter_executions_elsewhere b ownerFd side quantity hhere) hexecutions
      | cancelOrder orderId requesterFd =>
          have hnext := (cancelOrder_shrunk h.wf orderId requesterFd).nextOrderId
          rw [projectFrom, ← hnext] at hproject
          rw [idsFrom, ← hnext]
          by_cases hhere : orderId ∈ ids
          · rw [if_pos hhere] at hproject
            obtain ⟨⟨op', order'⟩, rest', rfl, hop, hrest⟩ := List.map_eq_cons_iff.mp hproject
            obtain rfl : op' = _ := hop
            exact ih (h.cancelOrder hhere requesterFd) hrest
          · rw [if_neg hhere] at hproject
            exact ih (h.cancelElsewhere hhere requesterFd) hproject
      | removeOrdersOf ownerFd =>
          have hnext := (removeOrdersOf_kept order h.wf ownerFd).nextOrderId
          rw [projectFrom, ← hnext] at hproject
          rw [idsFrom, ← hnext]
          obtain ⟨⟨op', order'⟩, rest', rfl, hop, hrest⟩ := List.map_eq_cons_iff.mp hproject
          obtain rfl : op' = _ := hop
          exact ih (h.removeOrdersOf order order' ownerFd) hrest

/-- The resting orders of a level, in queue order. -/
def Book.restingAt (b : Book) (l : Level) (side : Side) : List Order :=
  (b.level l side).map Node.order

theorem mirror_empty (l : Level) : Mirror l [] Book.empty Book.empty where
  wf := wf_empty
  wf' := wf_empty
  numbered := rfl
  past := fun _ h => absurd h List.not_mem_nil
  listed := fun q n hn => by
    rw [queue_empty] at hn
    cases hn
  alone := fun q n hn => by
    rw [queue_empty] at hn
    cases hn
  level := fun side => by
    rw [Book.level, queue_empty]
    rfl

/-- **Price levels do not interfere.**  A book that is given only the calls concerning a
level makes the same executions there and is left with the same orders there, under the
names `rename` gives them.  Neither run's walks of the index matter. -/
theorem levels_do_not_interfere (l : Level) {calls calls' : List Call}
    (hproject : calls'.map Call.op = project l (calls.map Call.op)) :
    (executionsIn calls).filter l.has = executionsIn calls' ∧
      ∀ side, (bookReached calls').restingAt l side =
        ((bookReached calls).restingAt l side).map
          (Order.alias (rename (idsAt l (calls.map Call.op)))) := by
  obtain ⟨hexecutions, hmirror⟩ := (mirror_empty l).run hproject
  refine ⟨hexecutions, fun side => ?_⟩
  have hlevel := congrArg (List.map Node.order) (hmirror.level side)
  rw [List.map_map, List.map_map] at hlevel
  rw [Book.restingAt, Book.restingAt, List.map_map]
  exact hlevel

/-- Two offers at 50 with one at 51 between them; the first is cancelled, and a bid at 50
meets the other one. -/
theorem levels_do_not_interfere_interleaved :
    ∃ calls calls' : List Call,
      calls.map Call.op = [.addOrder 4 (ascii "IMCT") .sell 2 50,
        .addOrder 5 (ascii "IMCT") .sell 3 51, .addOrder 6 (ascii "IMCT") .sell 4 50,
        .cancelOrder 2 5, .cancelOrder 1 4, .addOrder 7 (ascii "IMCT") .buy 3 50,
        .cancelOrder 3 6] ∧
      calls'.map Call.op = [.addOrder 4 (ascii "IMCT") .sell 2 50,
        .addOrder 6 (ascii "IMCT") .sell 4 50, .cancelOrder 1 4,
        .addOrder 7 (ascii "IMCT") .buy 3 50, .cancelOrder 2 6] ∧
      (executionsIn calls).filter (Level.has ⟨ascii "IMCT", 50⟩) = executionsIn calls' ∧
      executionsIn calls' = [⟨7, 6, ascii "IMCT", 3, 50⟩] := by
  let ops : List Op := [.addOrder 4 (ascii "IMCT") .sell 2 50,
    .addOrder 5 (ascii "IMCT") .sell 3 51, .addOrder 6 (ascii "IMCT") .sell 4 50,
    .cancelOrder 2 5, .cancelOrder 1 4, .addOrder 7 (ascii "IMCT") .buy 3 50, .cancelOrder 3 6]
  let calls : List Op → List Call := List.map fun op => ⟨op, .stored⟩
  have hop : ∀ ops, (calls ops).map Call.op = ops := fun ops => by
    rw [List.map_map]
    exact List.map_id ops
  have hproject : (calls (project ⟨ascii "IMCT", 50⟩ ops)).map Call.op =
      project ⟨ascii "IMCT", 50⟩ ((calls ops).map Call.op) := by rw [hop, hop]
  exact ⟨calls ops, calls (project ⟨ascii "IMCT", 50⟩ ops), hop ops, by decide,
    (levels_do_not_interfere ⟨ascii "IMCT", 50⟩ hproject).1, by decide⟩

end SocketExchange.Trading.OrderBook
