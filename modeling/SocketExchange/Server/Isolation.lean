import SocketExchange.Server.Registry

/-!
# What one client can do to the others

Serving one connection may run any handler any number of times, write to every
socket and drop sessions on the way.  `Isolated` says what is left of everybody
else after it: a frame condition on the sessions, and one on the resting orders,
whose only exceptions are executions and the drop of the owner.

It is a relation between two states and composes (`Isolated.trans`), so it is
checked once per kind of step and then holds across a whole event, however many
lines arrive in one read.
-/

namespace SocketExchange.Server

open SocketExchange.Lib
open SocketExchange.Lib.Bytes
open SocketExchange.Network
open SocketExchange.Protocol
open SocketExchange.Trading.OrderBook
open ExchangeServer

/-! ## Reading the executions off a trace -/

/-- The fills made by an order, with the order. -/
def Obs.fills : Obs → List (Incoming × Fill)
  | .submitted o _ fills => fills.map fun f => (o, f)
  | _ => []

/-- The fills made in a piece of the trace. -/
def fillsIn (new : List Obs) : List (Incoming × Fill) := new.flatMap Obs.fills

/-- How much these fills took from the resting order `id`. -/
def takenFrom (id : Int) (fs : List (Incoming × Fill)) : Int :=
  (fs.map fun p => if p.2.restingId = id then p.2.execution.quantity else 0).sum

theorem fillsIn_append (new new' : List Obs) :
    fillsIn (new ++ new') = fillsIn new ++ fillsIn new' :=
  List.flatMap_append

theorem takenFrom_append (id : Int) (fs fs' : List (Incoming × Fill)) :
    takenFrom id (fs ++ fs') = takenFrom id fs + takenFrom id fs' := by
  simp [takenFrom]

theorem takenFrom_eq_zero {id : Int} {fs : List (Incoming × Fill)}
    (h : ∀ p ∈ fs, p.2.restingId ≠ id) : takenFrom id fs = 0 := by
  refine List.sum_eq_zero fun x hx => ?_
  obtain ⟨p, hp, rfl⟩ := List.mem_map.mp hx
  exact if_neg (h p hp)

/-- The fills of one call take from a resting order what matching took from it. -/
private theorem takenFrom_fillsOf (o : Incoming) (id quantity : Int)
    (taken : List (Order × Int)) :
    takenFrom id (fillsIn [.submitted o quantity (o.fillsOf taken)]) = filledOf id taken := by
  induction taken with
  | nil => rfl
  | cons t taken ih =>
      simp only [takenFrom, fillsIn, Obs.fills, Incoming.fillsOf, filledOf, List.flatMap_cons,
        List.flatMap_nil, List.append_nil, List.map_cons, List.sum_cons] at ih ⊢
      rw [ih]
      rfl

/-! ## The relation -/

/-- No order of the book has this id. -/
def Absent (b : Book) (id : Int) : Prop := ∀ q, ∀ n ∈ b.queue q, n.order.id ≠ id

/-- What became of the order of `n`, which rested in `q`: its owner was dropped, or it
was executed in full, or it rests where it was with what the executions left of it. -/
def Fate (q : QueueId) (n : Node) (new : List Obs) (b : Book) : Prop :=
  0 ≤ takenFrom n.order.id (fillsIn new) ∧
    takenFrom n.order.id (fillsIn new) ≤ n.order.quantity ∧
    (((∃ reason, .dropped n.order.ownerFd reason ∈ new) ∧ Absent b n.order.id) ∨
      (takenFrom n.order.id (fillsIn new) = n.order.quantity ∧ Absent b n.order.id) ∨
      (takenFrom n.order.id (fillsIn new) < n.order.quantity ∧
        n.reduce (takenFrom n.order.id (fillsIn new)) ∈ b.queue q))

/-- The fill is made by an order of `fd`, on the other side of the order of `n`, at its
instrument and its price. -/
def Against (fd : Int) (n : Node) (p : Incoming × Fill) : Prop :=
  p.1.ownerFd = fd ∧ p.1.side = n.order.side.opposite ∧
    p.2.execution.instrument = n.order.instrument ∧ p.2.execution.price = n.order.price

/-- The parts of a session that only its own client changes. -/
def SameClient (x y : ClientSession) : Prop :=
  y.role = x.role ∧ y.username = x.username ∧ y.loggedIn = x.loggedIn ∧
    y.subscriptions = x.subscriptions ∧ y.inbuf = x.inbuf ∧ y.closing = x.closing

/-- **Isolation.**  What serving `fd` from `s` to `s'` leaves of the others. -/
structure Isolated (fd : Int) (s s' : ExchangeServer) (new : List Obs) : Prop where
  trace : s'.trace = s.trace ++ new
  sessions : ∀ fd' y, fd' ≠ fd → s'.sessions.lookup fd' = some y →
    ∃ x, s.sessions.lookup fd' = some x ∧ SameClient x y
  fate : ∀ q, ∀ n ∈ s.book.queue q, n.order.ownerFd ≠ fd → Fate q n new s'.book
  against : ∀ q, ∀ n ∈ s.book.queue q, n.order.ownerFd ≠ fd →
    ∀ p ∈ fillsIn new, p.2.restingId = n.order.id → Against fd n p
  /-- No order appears under the name of another client. -/
  origin : ∀ q, ∀ n ∈ s'.book.queue q, n.order.ownerFd ≠ fd →
    ∃ m ∈ s.book.queue q, m.key = n.key
  /-- What is gone stays gone. -/
  gone : ∀ id < s.book.nextOrderId, Absent s.book id →
    Absent s'.book id ∧ ∀ p ∈ fillsIn new, p.2.restingId ≠ id
  counter : s.book.nextOrderId ≤ s'.book.nextOrderId

theorem sameClient_of_client {x y : ClientSession} (h : y.client = x.client) :
    SameClient x y :=
  ⟨role_of_client h, username_of_client h, loggedIn_of_client h, subscriptions_of_client h,
    inbuf_of_client h, closing_of_client h⟩

theorem SameClient.refl (x : ClientSession) : SameClient x x := ⟨rfl, rfl, rfl, rfl, rfl, rfl⟩

theorem SameClient.trans {x y z : ClientSession} (h : SameClient x y) (h' : SameClient y z) :
    SameClient x z :=
  ⟨h'.1.trans h.1, h'.2.1.trans h.2.1, h'.2.2.1.trans h.2.2.1, h'.2.2.2.1.trans h.2.2.2.1,
    h'.2.2.2.2.1.trans h.2.2.2.2.1, h'.2.2.2.2.2.trans h.2.2.2.2.2⟩

private theorem reduce_reduce (n : Node) (a b : Int) :
    (n.reduce a).reduce b = n.reduce (a + b) := by
  simp [Node.reduce, Int.sub_sub]

/-- An order that is not in the book any more has met its fate. -/
private theorem Fate.gone {q : QueueId} {n : Node} {new new' : List Obs} {b b' : Book}
    (h : Fate q n new b) (habsent : Absent b n.order.id) (habsent' : Absent b' n.order.id)
    (hfills : ∀ p ∈ fillsIn new', p.2.restingId ≠ n.order.id) : Fate q n (new ++ new') b' := by
  obtain ⟨hpos, hle, hfate⟩ := h
  unfold Fate
  rw [fillsIn_append, takenFrom_append, takenFrom_eq_zero hfills, Int.add_zero]
  refine ⟨hpos, hle, ?_⟩
  rcases hfate with ⟨⟨reason, hdrop⟩, _⟩ | ⟨hfull, _⟩ | ⟨_, hrest⟩
  · exact Or.inl ⟨⟨reason, by simp [hdrop]⟩, habsent'⟩
  · exact Or.inr (Or.inl ⟨hfull, habsent'⟩)
  · exact (habsent q _ hrest rfl).elim

/-- An order that still rests goes on from what is left of it. -/
private theorem Fate.trans {q : QueueId} {n : Node} {new new' : List Obs} {b : Book}
    (hpos : 0 ≤ takenFrom n.order.id (fillsIn new))
    (h : Fate q (n.reduce (takenFrom n.order.id (fillsIn new))) new' b) :
    Fate q n (new ++ new') b := by
  obtain ⟨hpos', hle, hfate⟩ := h
  have hid : (n.reduce (takenFrom n.order.id (fillsIn new))).order.id = n.order.id := rfl
  have hquantity : (n.reduce (takenFrom n.order.id (fillsIn new))).order.quantity =
      n.order.quantity - takenFrom n.order.id (fillsIn new) := rfl
  have howner : (n.reduce (takenFrom n.order.id (fillsIn new))).order.ownerFd =
      n.order.ownerFd := rfl
  rw [hid, howner, hquantity, reduce_reduce] at hfate
  rw [hid] at hpos' hle
  rw [hquantity] at hle
  unfold Fate
  rw [fillsIn_append, takenFrom_append]
  refine ⟨by omega, by omega, ?_⟩
  rcases hfate with ⟨⟨reason, hdrop⟩, habsent⟩ | ⟨hfull, habsent⟩ | ⟨hpart, hrest⟩
  · exact Or.inl ⟨⟨reason, by simp [hdrop]⟩, habsent⟩
  · exact Or.inr (Or.inl ⟨by omega, habsent⟩)
  · exact Or.inr (Or.inr ⟨by omega, hrest⟩)

/-- **Isolation composes.** -/
theorem Isolated.trans {fd : Int} {s t u : ExchangeServer} {new new' : List Obs}
    (hwf : s.book.WF) (h : Isolated fd s t new) (h' : Isolated fd t u new') :
    Isolated fd s u (new ++ new') where
  trace := by rw [h'.trace, h.trace, List.append_assoc]
  sessions := by
    intro fd' z hne hz
    obtain ⟨y, hy, hsame'⟩ := h'.sessions fd' z hne hz
    obtain ⟨x, hx, hsame⟩ := h.sessions fd' y hne hy
    exact ⟨x, hx, hsame.trans hsame'⟩
  fate := by
    intro q n hn howner
    have hfate := h.fate q n hn howner
    have hlt : n.order.id < t.book.nextOrderId :=
      Int.lt_of_lt_of_le (hwf.id_lt q n hn) h.counter
    have hgone : Absent t.book n.order.id → Fate q n (new ++ new') u.book := fun habsent =>
      hfate.gone habsent (h'.gone _ hlt habsent).1 (h'.gone _ hlt habsent).2
    rcases hfate.2.2 with ⟨_, habsent⟩ | ⟨_, habsent⟩ | ⟨_, hrest⟩
    · exact hgone habsent
    · exact hgone habsent
    · exact Fate.trans hfate.1 (h'.fate q _ hrest howner)
  against := by
    intro q n hn howner p hp hid
    rw [fillsIn_append, List.mem_append] at hp
    rcases hp with hp | hp
    · exact h.against q n hn howner p hp hid
    · have hlt : n.order.id < t.book.nextOrderId :=
        Int.lt_of_lt_of_le (hwf.id_lt q n hn) h.counter
      rcases (h.fate q n hn howner).2.2 with ⟨_, habsent⟩ | ⟨_, habsent⟩ | ⟨_, hrest⟩
      · exact absurd hid ((h'.gone _ hlt habsent).2 p hp)
      · exact absurd hid ((h'.gone _ hlt habsent).2 p hp)
      · exact h'.against q _ hrest howner p hp hid
  origin := by
    intro q n hn howner
    obtain ⟨m, hm, hkey⟩ := h'.origin q n hn howner
    obtain ⟨l, hl, hkey'⟩ := h.origin q m hm (by rw [owner_of_key hkey]; exact howner)
    exact ⟨l, hl, hkey'.trans hkey⟩
  gone := by
    intro id hid habsent
    obtain ⟨habsent', hfills⟩ := h.gone id hid habsent
    obtain ⟨habsent'', hfills'⟩ := h'.gone id (Int.lt_of_lt_of_le hid h.counter) habsent'
    refine ⟨habsent'', fun p hp => ?_⟩
    rw [fillsIn_append, List.mem_append] at hp
    rcases hp with hp | hp
    · exact hfills p hp
    · exact hfills' p hp
  counter := Int.le_trans h.counter h'.counter

/-! ## Single steps -/

/-- A step that submits nothing and erases orders: those it erases belong to the client
that is served, or their owner is dropped. -/
private theorem Isolated.erase {fd : Int} {s s' : ExchangeServer} {new : List Obs}
    (hr : Registry s) {keep : Order → Bool} (hkept : Kept keep s.book s'.book)
    (hcause : ∀ q, ∀ n ∈ s.book.queue q, n.order.ownerFd ≠ fd → keep n.order = false →
      ∃ reason, .dropped n.order.ownerFd reason ∈ new)
    (htrace : s'.trace = s.trace ++ new) (hfills : fillsIn new = [])
    (hsessions : ∀ fd' y, fd' ≠ fd → s'.sessions.lookup fd' = some y →
      ∃ x, s.sessions.lookup fd' = some x ∧ SameClient x y) : Isolated fd s s' new where
  trace := htrace
  sessions := hsessions
  fate := by
    intro q n hn howner
    have hpos := hr.book.quantity_pos q n hn
    have hzero : takenFrom n.order.id (fillsIn new) = 0 := by rw [hfills]; rfl
    unfold Fate
    rw [hzero]
    refine ⟨Int.le_refl 0, Int.le_of_lt hpos, ?_⟩
    cases hkeep : keep n.order with
    | true =>
        refine Or.inr (Or.inr ⟨hpos, ?_⟩)
        have hsame : n.reduce 0 = n := by simp [Node.reduce]
        rw [hsame]
        exact hkept.mem.mpr ⟨hn, hkeep⟩
    | false =>
        refine Or.inl ⟨hcause q n hn howner hkeep, fun q' m hm hid => ?_⟩
        obtain ⟨hm, hkeep'⟩ := hkept.mem.mp hm
        rw [hr.book.eq_of_id hm hn hid, hkeep] at hkeep'
        cases hkeep'
  against := by
    intro q n hn howner p hp
    rw [hfills] at hp
    cases hp
  origin := fun q n hn _ => ⟨n, (hkept.mem.mp hn).1, rfl⟩
  gone := by
    intro id _ habsent
    refine ⟨fun q n hn => habsent q n (hkept.mem.mp hn).1, fun p hp => ?_⟩
    rw [hfills] at hp
    cases hp
  counter := Int.le_of_eq hkept.nextOrderId.symm

/-- A step that leaves the book alone. -/
private theorem Isolated.quiet {fd : Int} {s s' : ExchangeServer} {new : List Obs}
    (hr : Registry s) (hbook : s'.book = s.book)
    (htrace : s'.trace = s.trace ++ new) (hfills : fillsIn new = [])
    (hsessions : ∀ fd' y, fd' ≠ fd → s'.sessions.lookup fd' = some y →
      ∃ x, s.sessions.lookup fd' = some x ∧ SameClient x y) : Isolated fd s s' new := by
  have hkept : Kept (fun _ => true) s.book s'.book := by
    rw [hbook]
    exact kept_refl hr.book
  refine Isolated.erase hr hkept ?_ htrace hfills hsessions
  intro q n _ _ hkeep
  cases hkeep

/-- One session is rewritten; if it is somebody else's, then in its output only. -/
private theorem sessions_of_put {fd dest : Int} {s s' : ExchangeServer}
    {session session' : ClientSession} (h : s.sessions.lookup dest = some session)
    (hs : s'.sessions = s.sessions.insert dest session')
    (hsame : dest ≠ fd → session'.client = session.client) :
    ∀ fd' y, fd' ≠ fd → s'.sessions.lookup fd' = some y →
      ∃ x, s.sessions.lookup fd' = some x ∧ SameClient x y := by
  intro fd' y hne hy
  rw [hs, lookup_insert] at hy
  split at hy
  · next heq =>
    cases hy
    subst heq
    exact ⟨session, h, sameClient_of_client (hsame hne)⟩
  · exact ⟨y, hy, SameClient.refl y⟩

/-- No session is written. -/
private theorem sessions_of_eq {fd : Int} {s s' : ExchangeServer}
    (hs : s'.sessions = s.sessions) :
    ∀ fd' y, fd' ≠ fd → s'.sessions.lookup fd' = some y →
      ∃ x, s.sessions.lookup fd' = some x ∧ SameClient x y := by
  intro fd' y _ hy
  rw [hs] at hy
  exact ⟨y, hy, SameClient.refl y⟩

private theorem drop_isolated {fd : Int} {s : ExchangeServer} (hr : Registry s) (dest : Int)
    (reason : DropReason) : ∃ new, Isolated fd s (s.drop dest reason) new := by
  cases h : s.sessions.lookup dest with
  | none =>
      rw [drop_of_lookup_none h]
      exact ⟨[], Isolated.quiet hr rfl (List.append_nil _).symm rfl (sessions_of_eq rfl)⟩
  | some session =>
      have hbook : (s.drop dest reason).book = s.book.removeOrdersOf s.kernel.order dest := by
        simp only [ExchangeServer.drop, h]
      have hkept := removeOrdersOf_kept s.kernel.order hr.book dest
      rw [← hbook] at hkept
      refine ⟨_, Isolated.erase hr hkept ?_ (drop_trace h reason) rfl ?_⟩
      · intro q n _ _ hkeep
        have howner : n.order.ownerFd = dest := by simpa using hkeep
        rw [howner]
        exact ⟨reason, by simp⟩
      · intro fd' y _ hy
        exact ⟨y, (lookup_of_drop hy).2, SameClient.refl y⟩

private theorem cancel_isolated {fd : Int} {s : ExchangeServer} (hr : Registry s)
    (orderId : Int) : ∃ new, Isolated fd s
      ({ s with book := (s.book.cancelOrder orderId fd).book }.observe
        (.cancelled fd orderId)) new := by
  rcases cancelOrder_cases hr.book orderId fd with
    ⟨_, hbook, _⟩ | ⟨_, ⟨q, n, hn, hid, howner⟩, hkept⟩
  · exact ⟨_, Isolated.quiet hr hbook rfl rfl (sessions_of_eq rfl)⟩
  · refine ⟨_, Isolated.erase hr hkept ?_ rfl rfl (sessions_of_eq rfl)⟩
    -- the order that is erased is the requester's own
    intro q' m hm hother hkeep
    have hmid : m.order.id = orderId := by simpa using hkeep
    rw [hr.book.eq_of_id hm hn (hmid.trans hid.symm)] at hother
    exact absurd howner hother

section Submit

variable {s : ExchangeServer} (hr : Registry s) (fd : Int) (cmd : ParsedCommand)

/-- What matching takes on behalf of a command. -/
private def takenBy (s : ExchangeServer) (cmd : ParsedCommand) : List (Order × Int) :=
  (s.book.matched cmd.instrument (sideOf cmd.type) cmd.quantity cmd.price).taken

/-- The record a command leaves in the trace. -/
private def submission (s : ExchangeServer) (fd : Int) (cmd : ParsedCommand) : Obs :=
  .submitted (s.book.incoming fd cmd.instrument (sideOf cmd.type) cmd.price) cmd.quantity
    ((s.book.incoming fd cmd.instrument (sideOf cmd.type) cmd.price).fillsOf (takenBy s cmd))

private theorem submit_trace : (s.submit fd cmd).trace = s.trace ++ [submission s fd cmd] := by
  simp only [submission, takenBy, ← addOrder_fills]
  rfl

include hr

/-- A fill of the command takes from an order on the other side. -/
private theorem submission_fills {p : Incoming × Fill}
    (hp : p ∈ fillsIn [submission s fd cmd]) :
    ∃ n ∈ s.book.queue ⟨(sideOf cmd.type).opposite, cmd.instrument⟩,
      p.2.restingId = n.order.id ∧ Against fd n p := by
  simp only [fillsIn, submission, Obs.fills, Incoming.fillsOf, List.flatMap_cons,
    List.flatMap_nil, List.append_nil, List.map_map, List.mem_map, Function.comp] at hp
  obtain ⟨t, ht, rfl⟩ := hp
  obtain ⟨_, _, hprice, n, hn, horder⟩ := matched_taken hr.book _ _ _ _ t ht
  obtain ⟨hside, hinstrument⟩ := hr.book.own _ n hn
  refine ⟨n, hn, ?_, rfl, ?_, hinstrument.symm, ?_⟩
  · rw [horder]
    rfl
  · rw [hside, opposite_opposite]
    rfl
  · rw [horder, hprice]
    rfl

private theorem submit_fate {q : QueueId} {n : Node} (hn : n ∈ s.book.queue q) :
    Fate q n [submission s fd cmd] (s.submit fd cmd).book := by
  unfold Fate
  rw [submission, takenFrom_fillsOf]
  have hmem := fun q' m => mem_addOrder hr.book fd cmd.instrument (sideOf cmd.type)
    cmd.quantity cmd.price (q := q') (n := m)
  have hle : 0 ≤ filledOf n.order.id (takenBy s cmd) ∧
      filledOf n.order.id (takenBy s cmd) ≤ n.order.quantity := by
    by_cases hq : q = ⟨(sideOf cmd.type).opposite, cmd.instrument⟩
    · subst hq
      exact filledOf_le cmd.price _ cmd.quantity (hr.book.quantity_pos _) (hr.book.sorted _) n hn
    · have hzero : filledOf n.order.id (takenBy s cmd) = 0 :=
        matched_filledOf_eq_zero hr.book _ _ _ _ fun m hm hid =>
          hq (hr.book.id_queue _ _ n hn m hm hid.symm)
      rw [hzero]
      exact ⟨Int.le_refl 0, Int.le_of_lt (hr.book.quantity_pos q n hn)⟩
  refine ⟨hle.1, hle.2, Or.inr ?_⟩
  by_cases hfull : filledOf n.order.id (takenBy s cmd) = n.order.quantity
  · refine Or.inl ⟨hfull, fun q' m hm hid => ?_⟩
    rcases (hmem q' m).mp hm with ⟨l, hl, hlt, rfl⟩ | ⟨_, _, rfl⟩
    · have heq : l = n := hr.book.eq_of_id hl hn hid
      rw [heq] at hlt
      exact absurd hfull (Int.ne_of_lt hlt)
    · have hlt := hr.book.id_lt q n hn
      rw [← hid] at hlt
      exact absurd hlt (Int.lt_irrefl _)
  · have hlt : filledOf n.order.id (takenBy s cmd) < n.order.quantity := by omega
    exact Or.inr ⟨hlt, (hmem q _).mpr (Or.inl ⟨n, hn, hlt, rfl⟩)⟩

private theorem submit_isolated : Isolated fd s (s.submit fd cmd) [submission s fd cmd] where
  trace := submit_trace fd cmd
  sessions := sessions_of_eq rfl
  fate := fun q n hn _ => submit_fate hr fd cmd hn
  against := by
    intro q n hn _ p hp hid
    obtain ⟨m, hm, hid', hagainst⟩ := submission_fills hr fd cmd hp
    rw [hr.book.eq_of_id hn hm (hid.symm.trans hid')]
    exact hagainst
  origin := by
    intro q n hn howner
    rcases (mem_addOrder hr.book fd cmd.instrument (sideOf cmd.type) cmd.quantity
      cmd.price).mp hn with ⟨m, hm, _, rfl⟩ | ⟨_, _, rfl⟩
    · exact ⟨m, hm, rfl⟩
    · exact absurd rfl howner
  gone := by
    intro id hid habsent
    refine ⟨fun q n hn => ?_, fun p hp heq => ?_⟩
    · rcases (mem_addOrder hr.book fd cmd.instrument (sideOf cmd.type) cmd.quantity
        cmd.price).mp hn with ⟨m, hm, _, rfl⟩ | ⟨_, _, rfl⟩
      · exact habsent q m hm
      · exact (Int.ne_of_lt hid).symm
    · obtain ⟨n, hn, hid', _⟩ := submission_fills hr fd cmd hp
      exact habsent _ n hn (hid'.symm.trans heq)
  counter := by
    have hnext := addOrder_nextOrderId s.book fd cmd.instrument (sideOf cmd.type) cmd.quantity
      cmd.price
    show s.book.nextOrderId ≤ (s.book.addOrder _ _ _ _ _).book.nextOrderId
    omega

end Submit

private theorem Act.isolated {fd : Int} {s s' : ExchangeServer} (hact : Act fd s s')
    (hr : Registry s) : ∃ new, Isolated fd s s' new := by
  cases hact with
  | queue dest session message h howed =>
      exact ⟨_, Isolated.quiet hr rfl rfl rfl (sessions_of_put h rfl fun _ => append_client _ _)⟩
  | write dest session h =>
      exact ⟨_, Isolated.quiet hr rfl rfl rfl (sessions_of_put h rfl fun _ => flush_client _ _)⟩
  | drop dest reason h => exact drop_isolated hr dest reason
  | relist loop =>
      exact ⟨[], Isolated.quiet hr rfl (List.append_nil _).symm rfl (sessions_of_eq rfl)⟩
  | interest session wantRead wantWrite h =>
      exact ⟨[], Isolated.quiet hr rfl (List.append_nil _).symm rfl
        (sessions_of_put h rfl fun hne => absurd rfl hne)⟩
  | leave session reason h | login session username h | subscribe session instrument h
  | unsubscribe session instrument h =>
      exact ⟨_, Isolated.quiet hr rfl rfl rfl (sessions_of_put h rfl fun hne => absurd rfl hne)⟩
  | submit session cmd h hrole hin hcmd => exact ⟨_, submit_isolated hr fd cmd⟩
  | cancel session orderId h hin hok => exact cancel_isolated hr orderId

private theorem Serve.isolated {fd : Int} {s s' : ExchangeServer} (hserve : Serve fd s s')
    (hr : Registry s) : ∃ new, Isolated fd s s' new := by
  cases hserve with
  | act hact => exact hact.isolated hr
  | receive session bytes h hopen | take session line tail h hline =>
      exact ⟨_, Isolated.quiet hr rfl rfl rfl (sessions_of_put h rfl fun hne => absurd rfl hne)⟩
  | handled line => exact ⟨_, Isolated.quiet hr rfl rfl rfl (sessions_of_eq rfl)⟩

/-- **The run lemma.**  Isolation holds across any number of steps. -/
theorem Serves.isolated {fd : Int} {s s' : ExchangeServer} (hserves : Serves fd s s')
    (hr : Registry s) : Registry s' ∧ ∃ new, Isolated fd s s' new := by
  induction hserves with
  | refl =>
      exact ⟨hr, [], Isolated.quiet hr rfl (List.append_nil _).symm rfl (sessions_of_eq rfl)⟩
  | tail _ hserve ih =>
      obtain ⟨hr', new, hisolated⟩ := ih
      obtain ⟨new', hisolated'⟩ := hserve.isolated hr'
      exact ⟨(Move.serve _ hserve).registry hr', _, hisolated.trans hr.book hisolated'⟩

/-! ## The theorem -/

/-- **Clients are isolated from one another.**  Whatever is received from the client
`e.fd`, and whatever the sockets do: a session that is still there is the client it was,
and an order of somebody else has changed only by executions against orders of `e.fd`, or
has gone with its owner. -/
theorem clients_isolated (c : Setup) (s : ExchangeServer) (hs : Reachable c s) (e : Event)
    (he : e.fd ≠ s.listenerFd) (a : Answers) :
    ∃ new, Isolated e.fd s (s.turn { input := .event e, answers := a }) new := by
  have hload : Isolated e.fd s (s.load a) [] :=
    Isolated.quiet hs.registry rfl (List.append_nil _).symm rfl (sessions_of_eq rfl)
  have hbase : Base (s.load a) := (Env.load s a).base hs.base
  have hr : Registry (s.load a) := (Env.load s a).registry hs.registry
  obtain ⟨_, new, hnew⟩ := (onEvent_serves hbase (s := s.load a) he a).isolated hr
  exact ⟨_, hload.trans hs.registry.book hnew⟩

/-- Client 5 offers eight units; client 6 has logged in. -/
private def oneOffer : List Turn :=
  [{ input := .event { fd := 3, readable := true }
     answers := { accepts := [.connection 5 [] true, .connection 6 [] true] } },
   { input := .event { fd := 5, readable := true }
     answers := { recvs :=
       [.data ⟨ascii "LOGIN a\nSELL JNST 8 100\n", by decide, by decide⟩] } },
   { input := .event { fd := 6, readable := true }
     answers := { recvs := [.data ⟨ascii "LOGIN b\n", by decide, by decide⟩] } }]

/-- Client 6 buys three of the eight units, in the same read as a line that is refused. -/
private def partialBuy : Turn where
  input := .event { fd := 6, readable := true }
  answers := { recvs := [.data ⟨ascii "BUY JNST 3 100\nCANCEL 1\n", by decide, by decide⟩] }

theorem clients_isolated_partial_buy :
    ((run {} oneOffer).turn partialBuy).book.orders =
        [⟨1, 5, ascii "JNST", .sell, 5, 100⟩] ∧
      ∃ new, Isolated 6 (run {} oneOffer) ((run {} oneOffer).turn partialBuy) new :=
  ⟨by decide +kernel,
    clients_isolated {} (run {} oneOffer) (run_reachable {} oneOffer)
      { fd := 6, readable := true } (by decide +kernel) partialBuy.answers⟩

end SocketExchange.Server
