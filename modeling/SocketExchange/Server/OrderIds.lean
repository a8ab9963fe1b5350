import SocketExchange.Server.Holdings

/-!
# Order ids on the wire

An order is known to its owner by the id in ORDER_ACCEPTED, and the id comes back in a
CANCEL and in ORDER_CANCELLED.  The ids in the book are another matter: what counts for
the clients is the ids they have been told.

Over a whole run, and over all connections together, the ids told are 1, 2, 3 and so on
without a gap.  A cancel is acknowledged for an id at most once, and only on the
connection on which the order was acknowledged.
-/

namespace SocketExchange.Server

open SocketExchange.Lib
open SocketExchange.Lib.Bytes
open SocketExchange.Protocol
open SocketExchange.Trading.OrderBook
open ExchangeServer

/-! ## What is told of orders -/

/-- The id of an order that is acknowledged. -/
def acceptedId : Response → List Int
  | .orderAccepted orderId => [orderId]
  | _ => []

/-- The ids in the ORDER_ACCEPTED messages of a piece of the trace, to whomever. -/
def acceptedIds (trace : List Obs) : List Int :=
  (trace.flatMap Obs.reply).flatMap fun r => acceptedId r.2

theorem acceptedIds_append (a b : List Obs) :
    acceptedIds (a ++ b) = acceptedIds a ++ acceptedIds b := by
  rw [acceptedIds, List.flatMap_append, List.flatMap_append]
  rfl

/-- The first `n` ids. -/
def firstIds (n : Nat) : List Int := (List.range n).map fun k => (k : Int) + 1

theorem firstIds_succ (n : Nat) : firstIds (n + 1) = firstIds n ++ [(n : Int) + 1] := by
  simp [firstIds, List.range_succ]

/-- The id was acknowledged on the present connection of `fd`. -/
def KnownId (trace : List Obs) (fd orderId : Int) : Prop :=
  .queued fd (.orderAccepted orderId) ∈ sinceAccept fd trace

/-- A cancel that is acknowledged is the first of its id, and of an order that was
acknowledged on the same connection. -/
def CancelInOrder (before : List Obs) : Obs → Prop
  | .queued fd (.orderCancelled orderId) =>
      KnownId before fd orderId ∧
        ∀ fd', .queued fd' (.orderCancelled orderId) ∉ before
  | _ => True

/-- The ids so far, and what is in the market of them. -/
structure IdsTold (trace : List Obs) : Prop where
  handed : ∃ n : Nat, (replay trace).market.nextOrderId = n + 1 ∧ acceptedIds trace = firstIds n
  resting : ∀ y ∈ (replay trace).market.orders, KnownId trace y.ownerFd y.id
  spent : ∀ fd orderId, .queued fd (.orderCancelled orderId) ∈ trace →
    orderId < (replay trace).market.nextOrderId ∧
      ∀ y ∈ (replay trace).market.orders, y.id ≠ orderId
  cancels : Log.Each CancelInOrder trace

/-! ## A line at the exchange -/

section Line

variable {x : Exchange} (h : InOrder x) {fd : Int} {line : Bytes} {v : Verdict}
  (hv : Outcome x fd line v)

include hv

/-- An id is handed out and told, or none is. -/
theorem Outcome.handed :
    (v.exchange.market.nextOrderId = x.market.nextOrderId ∧
        v.reply.toList.flatMap acceptedId = []) ∨
      (v.exchange.market.nextOrderId = x.market.nextOrderId + 1 ∧
        v.reply.toList.flatMap acceptedId = [x.market.nextOrderId]) := by
  cases hv with
  | silent | refused | enrolled | cancelled => exact Or.inl ⟨rfl, rfl⟩
  | ordered => exact Or.inr ⟨rfl, rfl⟩

/-- An order was there before, or its owner is just told its id. -/
theorem Outcome.orders {y : Order} (hy : y ∈ v.exchange.market.orders) :
    (∃ z ∈ x.market.orders, y.id = z.id ∧ y.ownerFd = z.ownerFd) ∨
      (y.ownerFd = fd ∧ y.id = x.market.nextOrderId ∧ v.reply = some (.orderAccepted y.id)) := by
  cases hv with
  | silent | refused | enrolled => exact Or.inl ⟨y, hy, rfl, rfl⟩
  | cancelled => exact Or.inl ⟨y, List.mem_of_mem_filter hy, rfl, rfl⟩
  | ordered =>
      rcases Market.mem_addOrder hy with hold | ⟨hid, howner⟩
      · exact Or.inl hold
      · refine Or.inr ⟨howner, hid, ?_⟩
        rw [hid]
        rfl

include h

/-- A cancel that succeeds is of an order of the sender, which is gone after it. -/
theorem Outcome.cancel {orderId : Int} (hreply : v.reply = some (.orderCancelled orderId)) :
    (∃ z ∈ x.market.orders, z.id = orderId ∧ z.ownerFd = fd) ∧
      ∀ y ∈ v.exchange.market.orders, y.id ≠ orderId := by
  cases hv with
  | silent | refused | enrolled | ordered => cases hreply
  | cancelled hquit hcancelled =>
      obtain rfl : (parse line).orderId = orderId :=
        Response.orderCancelled.inj (Option.some.inj hreply)
      unfold Market.cancelAnswer at hcancelled
      split at hcancelled
      · cases hcancelled
      · next z hfind =>
        have hz := List.mem_of_find?_eq_some hfind
        have hid : z.id = (parse line).orderId := by simpa using List.find?_some hfind
        have howner : z.ownerFd = fd := by
          by_contra hother
          rw [if_pos hother] at hcancelled
          cases hcancelled
        refine ⟨⟨z, hz, hid, howner⟩, fun y hy heq => ?_⟩
        obtain ⟨hy, hkeep⟩ := List.mem_filter.mp hy
        obtain ⟨b, hrep, _⟩ := h.sound
        obtain rfl : y = z := hrep.eq_of_id hy hz (heq.trans hid.symm)
        simp [hid, howner] at hkeep

end Line

/-! ## Traces -/

/-- What is dropped while a line is handled takes orders out, and that is all. -/
theorem market_within (trace : List Obs) {body : List Obs} (hbody : ∀ o ∈ body, o.within = true) :
    (replay (trace ++ body)).market.nextOrderId = (replay trace).market.nextOrderId ∧
      ∀ y ∈ (replay (trace ++ body)).market.orders, y ∈ (replay trace).market.orders := by
  induction body using List.reverseRecOn with
  | nil =>
      rw [List.append_nil]
      exact ⟨rfl, fun _ hy => hy⟩
  | append_singleton body o ih =>
      obtain ⟨hnext, horders⟩ := ih fun o' ho' => hbody o' (List.mem_append_left _ ho')
      have ho : o.within = true := hbody o (by simp)
      rw [← List.append_assoc]
      cases o with
      | dropped fd reason =>
          rw [replay_concat _ (rfl : (Obs.dropped fd reason).happening = some (.leaves fd))]
          exact ⟨hnext, fun y hy => horders y (List.mem_of_mem_filter hy)⟩
      | accepted | refused | handling => cases ho
      | _ =>
          rw [replay_append_silent (by simp [Obs.happening])]
          exact ⟨hnext, horders⟩

/-- Nothing between two lines is told of an id. -/
theorem aside_untold {o : Obs} (ho : o.between = true) :
    acceptedIds [o] = [] ∧ ∀ fd orderId, o ≠ .queued fd (.orderCancelled orderId) := by
  cases o with
  | queued fd message =>
      obtain rfl : message = oversizedMessage := of_decide_eq_true ho
      exact ⟨rfl, by simp [oversizedMessage]⟩
  | _ => exact ⟨rfl, by simp⟩

/-- What is acknowledged stays so until the descriptor is accepted anew. -/
theorem KnownId.append {trace : List Obs} {fd orderId : Int}
    (h : KnownId trace fd orderId) {new : List Obs} (hnew : ∀ o ∈ new, o ≠ .accepted fd) :
    KnownId (trace ++ new) fd orderId := by
  rw [KnownId, sinceAccept_append hnew]
  exact List.mem_append_left _ h

theorem cancelInOrder_of_ne {o : Obs} (h : ∀ fd orderId, o ≠ .queued fd (.orderCancelled orderId))
    (before : List Obs) : CancelInOrder before o := by
  unfold CancelInOrder
  split
  · next fd orderId => exact absurd rfl (h fd orderId)
  · trivial

section Told

variable {trace : List Obs} (h : IdsTold trace)

include h

/-- An observation that tells no id and adds no order. -/
theorem IdsTold.quiet {o : Obs} (hids : acceptedIds [o] = [])
    (hcancel : ∀ fd orderId, o ≠ .queued fd (.orderCancelled orderId))
    (hnext : (replay (trace ++ [o])).market.nextOrderId = (replay trace).market.nextOrderId)
    (horders : ∀ y ∈ (replay (trace ++ [o])).market.orders,
      y ∈ (replay trace).market.orders ∧ o ≠ .accepted y.ownerFd) :
    IdsTold (trace ++ [o]) where
  handed := by
    obtain ⟨n, hn, hall⟩ := h.handed
    refine ⟨n, hnext.trans hn, ?_⟩
    rw [acceptedIds_append, hids, List.append_nil, hall]
  resting := by
    intro y hy
    obtain ⟨hold, hne⟩ := horders y hy
    exact (h.resting y hold).append (by simpa using hne)
  spent := by
    intro fd orderId hmem
    have hbefore : .queued fd (.orderCancelled orderId) ∈ trace := by
      rcases List.mem_append.mp hmem with hmem | hmem
      · exact hmem
      · exact absurd (List.mem_singleton.mp hmem).symm (hcancel fd orderId)
    obtain ⟨hlt, hgone⟩ := h.spent fd orderId hbefore
    exact ⟨hnext ▸ hlt, fun y hy => hgone y (horders y hy).1⟩
  cancels := h.cancels.concat (cancelInOrder_of_ne hcancel trace)

theorem IdsTold.arrival {fd : Int} (hnone : (replay trace).members.lookup fd = none) :
    IdsTold (trace ++ [.accepted fd]) := by
  have hjoins : replay (trace ++ [.accepted fd]) = (replay trace).enrol fd .guest :=
    replay_concat trace (rfl : (Obs.accepted fd).happening = some (.joins fd))
  refine h.quiet rfl (by simp) (by rw [hjoins]; rfl) fun y hy => ?_
  rw [hjoins] at hy
  refine ⟨hy, fun heq => ?_⟩
  -- whoever comes has no orders
  have howner := (replay_inOrder trace).owners y hy
  rw [← Obs.accepted.inj heq] at howner
  exact howner hnone

theorem IdsTold.aside {o : Obs} (ho : o.between = true) : IdsTold (trace ++ [o]) := by
  obtain ⟨hids, hcancel⟩ := aside_untold ho
  have hmarket : (replay (trace ++ [o])).market.nextOrderId = (replay trace).market.nextOrderId ∧
      ∀ y ∈ (replay (trace ++ [o])).market.orders, y ∈ (replay trace).market.orders := by
    have hleaves : ∀ fd, o.happening = some (.leaves fd) →
        (replay (trace ++ [o])).market.nextOrderId = (replay trace).market.nextOrderId ∧
          ∀ y ∈ (replay (trace ++ [o])).market.orders, y ∈ (replay trace).market.orders := by
      intro fd hfd
      rw [replay_concat _ hfd]
      exact ⟨rfl, fun y hy => List.mem_of_mem_filter hy⟩
    cases o with
    | refused fd => exact hleaves fd rfl
    | dropped fd reason => exact hleaves fd rfl
    | accepted | handling => cases ho
    | _ =>
        rw [replay_append_silent (by simp [Obs.happening])]
        exact ⟨rfl, fun _ hy => hy⟩
  exact h.quiet hids hcancel hmarket.1 fun y hy =>
    ⟨hmarket.2 y hy, between_ne_accepted ho y.ownerFd⟩

end Told

/-! ## The stretch of a line -/

/-- What a list of replies is read off is in it. -/
theorem mem_reply {trace : List Obs} {fd : Int} {message : Response} (h : message.direct = true) :
    .queued fd message ∈ trace ↔ (fd, message) ∈ trace.flatMap Obs.reply := by
  rw [List.mem_flatMap]
  constructor
  · intro hmem
    exact ⟨_, hmem, by simp [Obs.reply, h]⟩
  · rintro ⟨o, hmem, ho⟩
    cases o with
    | queued dest message' =>
        rw [Obs.reply] at ho
        split at ho
        · obtain ⟨rfl, rfl⟩ := Prod.mk.inj (List.mem_singleton.mp ho)
          exact hmem
        · cases ho
    | _ => cases ho

/-- The exchange after the stretch of a line, up to orders of clients that were dropped. -/
theorem market_stretch (trace : List Obs) (fd : Int) (line : Bytes) {body : List Obs}
    (outcome : LineOutcome) (hbody : ∀ o ∈ body, o.within = true) :
    (replay (trace ++ stretch fd line body outcome)).market.nextOrderId =
        ((replay trace).verdict fd line).exchange.market.nextOrderId ∧
      ∀ y ∈ (replay (trace ++ stretch fd line body outcome)).market.orders,
        y ∈ ((replay trace).verdict fd line).exchange.market.orders := by
  have hspeaks : ((replay trace).verdict fd line).exchange = replay (trace ++ [.handling fd line]) :=
    (replay_handling trace fd line).symm
  rw [replay_stretch, hspeaks]
  exact market_within _ hbody

section Stretch

variable {trace body : List Obs} {fd : Int} {line : Bytes} {outcome : LineOutcome}
  (h : IdsTold trace) (hbody : ∀ o ∈ body, o.within = true)
  (hspoken : Spoken (replay trace) fd line body)

include hspoken

theorem stretch_reply (outcome : LineOutcome) :
    (stretch fd line body outcome).flatMap Obs.reply =
      ((replay trace).verdict fd line).reply.toList.map fun reply => (fd, reply) := by
  rw [← hspoken.replied]
  simp [stretch, Obs.reply]

/-- A direct message in the stretch of a line is the reply to it. -/
theorem reply_of_mem_stretch {dest : Int} {message : Response} (hdirect : message.direct = true)
    (hmem : .queued dest message ∈ stretch fd line body outcome) :
    dest = fd ∧ ((replay trace).verdict fd line).reply = some message := by
  rw [mem_reply hdirect, stretch_reply hspoken outcome, List.mem_map] at hmem
  obtain ⟨reply, hreply, heq⟩ := hmem
  obtain ⟨rfl, rfl⟩ := Prod.mk.inj heq
  exact ⟨rfl, Option.mem_toList.mp hreply⟩

/-- There is one of them at most. -/
theorem not_mem_of_reply {before after : List Obs} {dest : Int} {message : Response}
    (hdirect : message.direct = true)
    (hsplit : stretch fd line body outcome = before ++ .queued dest message :: after) (dest' : Int) :
    .queued dest' message ∉ before := by
  intro hmem
  have hreplies := stretch_reply hspoken outcome
  have hbefore : 0 < (before.flatMap Obs.reply).length :=
    List.length_pos_of_mem ((mem_reply hdirect).mp hmem)
  have hthis : (Obs.queued dest message).reply.length = 1 := by simp [Obs.reply, hdirect]
  have hone : (((replay trace).verdict fd line).reply.toList.map fun reply => (fd, reply)).length
      ≤ 1 := by
    rw [List.length_map]
    exact Option.length_toList_le
  rw [← hreplies, hsplit, List.flatMap_append, List.flatMap_cons, List.length_append,
    List.length_append, hthis] at hone
  omega

theorem acceptedIds_stretch (outcome : LineOutcome) :
    acceptedIds (stretch fd line body outcome) =
      ((replay trace).verdict fd line).reply.toList.flatMap acceptedId := by
  rw [acceptedIds, stretch_reply hspoken, List.flatMap_map]

/-- A cancel that is acknowledged is of an order that was there. -/
theorem cancelled_there {dest orderId : Int}
    (hmem : .queued dest (.orderCancelled orderId) ∈ stretch fd line body outcome) :
    dest = fd ∧ (∃ z ∈ (replay trace).market.orders, z.id = orderId ∧ z.ownerFd = fd) ∧
      ∀ y ∈ ((replay trace).verdict fd line).exchange.market.orders, y.id ≠ orderId := by
  obtain ⟨hdest, hreply⟩ := reply_of_mem_stretch hspoken rfl hmem
  exact ⟨hdest, (verdict_outcome _ fd line).cancel (replay_inOrder trace) hreply⟩

include h hbody

/-- **A line and its answer.** -/
theorem IdsTold.speaks : IdsTold (trace ++ stretch fd line body outcome) := by
  have hv := verdict_outcome (replay trace) fd line
  obtain ⟨hnext, hsub⟩ := market_stretch trace fd line outcome hbody
  have hgrows : (replay trace).market.nextOrderId ≤
      (replay (trace ++ stretch fd line body outcome)).market.nextOrderId := by
    rw [hnext]
    rcases hv.handed with ⟨heq, _⟩ | ⟨heq, _⟩ <;> omega
  refine ⟨?_, ?_, ?_, ?_⟩
  · obtain ⟨n, hn, hall⟩ := h.handed
    rw [hnext, acceptedIds_append, acceptedIds_stretch hspoken, hall]
    rcases hv.handed with ⟨heq, hids⟩ | ⟨heq, hids⟩
    · exact ⟨n, by omega, by rw [hids, List.append_nil]⟩
    · refine ⟨n + 1, by push_cast; omega, ?_⟩
      rw [hids, hn, firstIds_succ]
  · intro y hy
    rcases hv.orders (hsub y hy) with ⟨z, hz, hid, howner⟩ | ⟨howner, _, hreply⟩
    · rw [hid, howner]
      exact (h.resting z hz).append (stretch_not_accepted hbody _)
    · rw [KnownId, sinceAccept_append (stretch_not_accepted hbody _)]
      refine List.mem_append_right _ ((mem_reply rfl).mpr ?_)
      rw [stretch_reply hspoken, hreply, howner]
      simp
  · intro dest orderId hmem
    rcases List.mem_append.mp hmem with hmem | hmem
    · obtain ⟨hlt, hgone⟩ := h.spent dest orderId hmem
      refine ⟨by omega, fun y hy => ?_⟩
      rcases hv.orders (hsub y hy) with ⟨z, hz, hid, _⟩ | ⟨_, hid, _⟩
      · rw [hid]
        exact hgone z hz
      · omega
    · obtain ⟨_, ⟨z, hz, hid, _⟩, hgone⟩ := cancelled_there hspoken hmem
      have hlt := (replay_inOrder trace).sound.id_lt z hz
      exact ⟨by omega, fun y hy => hgone y (hsub y hy)⟩
  · refine Log.each_append.mpr ⟨h.cancels, ?_⟩
    intro before o after hsplit
    unfold CancelInOrder
    split
    · next dest orderId =>
      have hmem : .queued dest (.orderCancelled orderId) ∈ stretch fd line body outcome := by
        rw [hsplit]
        simp
      obtain ⟨rfl, ⟨z, hz, hid, howner⟩, _⟩ := cancelled_there hspoken hmem
      have hearlier : ∀ o ∈ before, o ≠ .accepted dest := fun o ho =>
        stretch_not_accepted hbody dest o (by rw [hsplit]; simp [ho])
      refine ⟨?_, fun dest' hagain => ?_⟩
      · have hresting := h.resting z hz
        rw [hid, howner] at hresting
        exact hresting.append hearlier
      · rcases List.mem_append.mp hagain with hagain | hagain
        · exact (h.spent dest' orderId hagain).2 z hz hid
        · exact not_mem_of_reply hspoken rfl hsplit dest' hagain
    · trivial

end Stretch

/-! ## Whole runs -/

theorem Conversation.idsTold {trace : List Obs} (h : Conversation trace) : IdsTold trace := by
  induction h with
  | start =>
      refine ⟨⟨0, rfl, rfl⟩, fun y hy => ?_, fun fd orderId hmem => ?_, Log.each_nil⟩
      · cases hy
      · cases hmem
  | arrival fd h hnone ih => exact ih.arrival hnone
  | aside o h ho ih => exact ih.aside ho
  | line fd line outcome h hspeaker hbody hspoken houtcome ih => exact ih.speaks hbody hspoken

/-- **Ids are handed out in order and taken back once.**  In every run:

* the ids in all ORDER_ACCEPTED messages, to all connections, are 1, 2, 3 and so on up to
  the last one the book has used, also if the sender is lost while it is told;
* every order in the book was acknowledged, with its id, on the present connection of its
  owner;
* every ORDER_CANCELLED is the first of its id on any connection, and goes to the
  connection on which that id was acknowledged. -/
theorem order_ids_handed_out (c : Setup) (turns : List Turn) :
    (∃ n : Nat, (run c turns).book.nextOrderId = n + 1 ∧
      acceptedIds (run c turns).trace = firstIds n) ∧
    (∀ q, ∀ node ∈ (run c turns).book.queue q,
      KnownId (run c turns).trace node.order.ownerFd node.order.id) ∧
    Log.Each CancelInOrder (run c turns).trace := by
  have h : IdsTold (run c turns).trace := (run_conversation c turns).idsTold
  have hmarket : Represents (run c turns).book (replay (run c turns).trace).market :=
    (run_replayed c turns).market
  refine ⟨?_, fun q node hnode => h.resting _ (hmarket.mem_node hnode).1, h.cancels⟩
  obtain ⟨n, hn, hall⟩ := h.handed
  exact ⟨n, hmarket.nextOrderId.trans hn, hall⟩

end SocketExchange.Server
