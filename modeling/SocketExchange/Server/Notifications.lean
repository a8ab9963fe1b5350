import Mathlib.Data.List.Flatten
import SocketExchange.Server.Stretches

/-!
# Notices and executions

BOUGHT, SOLD and TRADE are sent to descriptors, found by lookup while the sends
themselves may drop sessions.  What a client makes of its notices is a statement
about executions: this one was mine, that one was in my instrument.

`duesOf` reads off the trace what the executions made so far mean for a client, with
the subscriptions it had when each was made.  The notices queued to the client are a
sublist of it (`Reachable.noticed`): nothing invented, nothing twice, nothing out of
order.  Notices may be missing, when a session or the submitter is lost on the way.
-/

namespace SocketExchange.Server

open SocketExchange.Lib
open SocketExchange.Lib.Bytes
open SocketExchange.Network
open SocketExchange.Protocol
open SocketExchange.Trading.OrderBook
open ExchangeServer

/-! ## What executions mean for a client -/

/-- The executions an observation records. -/
def Obs.executions : Obs → List TradeExecution
  | .submitted _ _ fills => fills.map Fill.execution
  | _ => []

/-- The executions made since `fd` was last accepted. -/
def executionsIn (fd : Int) (trace : List Obs) : List TradeExecution :=
  (sinceAccept fd trace).flatMap Obs.executions

/-- The executions of instruments `fd` was subscribed to, from a point where it was
subscribed to `subscriptions`. -/
def watched (fd : Int) : List Bytes → List Obs → List TradeExecution
  | _, [] => []
  | subscriptions, o :: rest =>
      (o.executions.filter fun e => subscriptions.contains e.instrument) ++
        watched fd (o.resubscribe fd subscriptions) rest

/-- The executions since `fd` was last accepted of instruments it was then subscribed
to. -/
def watchedIn (fd : Int) (trace : List Obs) : List TradeExecution :=
  watched fd [] (sinceAccept fd trace)

def boughtOf (e : TradeExecution) : Response := .bought e.instrument e.quantity e.price

def soldOf (e : TradeExecution) : Response := .sold e.instrument e.quantity e.price

def tradeOf (e : TradeExecution) : Response := .trade e.instrument e.quantity e.price

def isBought : Response → Bool
  | .bought _ _ _ => true
  | _ => false

def isSold : Response → Bool
  | .sold _ _ _ => true
  | _ => false

def isTrade : Response → Bool
  | .trade _ _ _ => true
  | _ => false

/-- What one execution means for `fd`. -/
def duesFor (fd : Int) (subscriptions : List Bytes) (e : TradeExecution) : List Response :=
  (if e.buyerFd = fd then [boughtOf e] else []) ++
  (if e.sellerFd = fd then [soldOf e] else []) ++
  (if subscriptions.contains e.instrument then [tradeOf e] else [])

/-- What the executions of a piece of the trace mean for `fd`. -/
def dues (fd : Int) : List Bytes → List Obs → List Response
  | _, [] => []
  | subscriptions, o :: rest =>
      o.executions.flatMap (duesFor fd subscriptions) ++
        dues fd (o.resubscribe fd subscriptions) rest

/-- What the executions since `fd` was last accepted mean for it. -/
def duesOf (fd : Int) (trace : List Obs) : List Response := dues fd [] (sinceAccept fd trace)

theorem dues_append (fd : Int) (subscriptions : List Bytes) (a b : List Obs) :
    dues fd subscriptions (a ++ b) =
      dues fd subscriptions a ++ dues fd (Loop.run (Obs.resubscribe fd) subscriptions a) b := by
  induction a generalizing subscriptions with
  | nil => rfl
  | cons o a ih =>
      rw [List.cons_append, dues, dues, ih, Loop.run_cons, List.append_assoc]

theorem duesOf_append {fd : Int} {trace new : List Obs} (h : ∀ o ∈ new, o ≠ .accepted fd) :
    duesOf fd (trace ++ new) = duesOf fd trace ++ dues fd (subscriptionsIn fd trace) new := by
  rw [duesOf, sinceAccept_append h, dues_append]
  rfl

section Kinds

variable (fd : Int) (subscriptions : List Bytes)

/-- One kind of message, picked from the dues of a list of executions. -/
private theorem filter_flatMap_eq {es : List TradeExecution} {kind : Response → Bool}
    {dues : TradeExecution → List Response} {p : TradeExecution → Prop} [DecidablePred p]
    {f : TradeExecution → Response}
    (h : ∀ e, (dues e).filter kind = if p e then [f e] else []) :
    (es.flatMap dues).filter kind = (es.filter fun e => p e).map f := by
  induction es with
  | nil => rfl
  | cons e es ih =>
      rw [List.flatMap_cons, List.filter_append, ih, h e, List.filter_cons]
      by_cases hp : p e
      · simp [hp]
      · simp [hp]

private theorem duesFor_isBought (e : TradeExecution) :
    (duesFor fd subscriptions e).filter isBought =
      if e.buyerFd = fd then [boughtOf e] else [] := by
  rw [duesFor]
  split <;> split <;> split <;> rfl

private theorem duesFor_isSold (e : TradeExecution) :
    (duesFor fd subscriptions e).filter isSold =
      if e.sellerFd = fd then [soldOf e] else [] := by
  rw [duesFor]
  split <;> split <;> split <;> rfl

private theorem duesFor_isTrade (e : TradeExecution) :
    (duesFor fd subscriptions e).filter isTrade =
      if subscriptions.contains e.instrument then [tradeOf e] else [] := by
  rw [duesFor]
  split <;> split <;> split <;> rfl

theorem dues_isBought (new : List Obs) :
    (dues fd subscriptions new).filter isBought =
      ((new.flatMap Obs.executions).filter fun e => e.buyerFd = fd).map boughtOf := by
  induction new generalizing subscriptions with
  | nil => rfl
  | cons o new ih =>
      rw [dues, List.filter_append, ih, List.flatMap_cons, List.filter_append, List.map_append,
        filter_flatMap_eq (duesFor_isBought fd subscriptions)]

theorem dues_isSold (new : List Obs) :
    (dues fd subscriptions new).filter isSold =
      ((new.flatMap Obs.executions).filter fun e => e.sellerFd = fd).map soldOf := by
  induction new generalizing subscriptions with
  | nil => rfl
  | cons o new ih =>
      rw [dues, List.filter_append, ih, List.flatMap_cons, List.filter_append, List.map_append,
        filter_flatMap_eq (duesFor_isSold fd subscriptions)]

theorem dues_isTrade (new : List Obs) :
    (dues fd subscriptions new).filter isTrade = (watched fd subscriptions new).map tradeOf := by
  induction new generalizing subscriptions with
  | nil => rfl
  | cons o new ih =>
      rw [dues, List.filter_append, ih, watched, List.map_append,
        filter_flatMap_eq (duesFor_isTrade fd subscriptions)]
      simp only [Bool.decide_eq_true]

end Kinds

/-! ## The invariant -/

/-- The notices queued to the present connection of `fd`. -/
def noticesOf (fd : Int) (trace : List Obs) : List Response :=
  (messagesTo fd trace).filter fun message => !message.direct

/-- The notices of `fd` are due to it, in this order. -/
def Noticed (fd : Int) (trace : List Obs) : Prop :=
  (noticesOf fd trace).Sublist (duesOf fd trace)

/-- An answer is no notice. -/
theorem filter_direct {message : Response} (h : message.direct = true) {fd dest : Int} :
    (Obs.messageTo fd (.queued dest message)).filter (fun message => !message.direct) = [] := by
  simp only [Obs.messageTo]
  split
  · simp [h]
  · rfl

/-- A piece of the trace whose notices are due. -/
private theorem Noticed.append {fd : Int} {trace new : List Obs} (h : Noticed fd trace)
    (hne : ∀ o ∈ new, o ≠ .accepted fd)
    (hnew : ((new.flatMap (Obs.messageTo fd)).filter fun message => !message.direct).Sublist
      (dues fd (subscriptionsIn fd trace) new)) : Noticed fd (trace ++ new) := by
  unfold Noticed noticesOf
  rw [messagesTo_append hne, List.filter_append, duesOf_append hne]
  exact List.Sublist.append h hnew

/-- Subscribers are the sessions that say so. -/
theorem mem_subscriptionsIn {c : Setup} {s : ExchangeServer} (hreach : Reachable c s) {fd : Int}
    {instrument : Bytes} (h : fd ∈ subscribersOf s.subscribers instrument) :
    instrument ∈ subscriptionsIn fd s.trace := by
  obtain ⟨session, hsession, hmem⟩ := (hreach.registry.subscriber_iff fd instrument).mp h
  rw [← (hreach.epoch hsession).subscriptions]
  exact hmem

private theorem noticesTo_sublist_duesFor {c : Setup} {s : ExchangeServer}
    (hreach : Reachable c s) (fd : Int) (e : TradeExecution) :
    (s.noticesTo fd e).Sublist (duesFor fd (subscriptionsIn fd s.trace) e) := by
  unfold noticesTo duesFor
  refine List.Sublist.append (List.Sublist.append ?_ ?_) ?_
  · simp only [eq_comm (a := fd)]
    exact List.Sublist.refl _
  · simp only [eq_comm (a := fd)]
    exact List.Sublist.refl _
  · by_cases hsub : fd ∈ subscribersOf s.subscribers e.instrument
    · rw [if_pos hsub, if_pos (List.contains_iff_mem.mpr (mem_subscriptionsIn hreach hsub))]
      exact List.Sublist.refl _
    · rw [if_neg hsub]
      exact List.nil_sublist _

/-- The notices of a line are due on account of what it submitted. -/
private theorem Prelude.due {c : Setup} {s : ExchangeServer} (hreach : Reachable c s)
    {fd dest : Int} {line : Bytes} {pre notices : List Obs} {reply : Response}
    {es : List TradeExecution} (hpre : Prelude fd pre reply es) :
    (es.flatMap (s.noticesTo dest)).Sublist (dues dest (subscriptionsIn dest s.trace)
      (.handling fd line :: pre ++ .queued fd reply :: notices)) := by
  cases hpre with
  | answer h => exact List.nil_sublist _
  | note ho h => exact List.nil_sublist _
  | submit o quantity fills howner hpos =>
      have hdues : ((fills.map Fill.execution).flatMap (s.noticesTo dest)).Sublist
          ((fills.map Fill.execution).flatMap
            (duesFor dest (subscriptionsIn dest s.trace))) :=
        List.Sublist.flatMap_right _ fun e _ => noticesTo_sublist_duesFor hreach dest e
      exact hdues.trans (List.sublist_append_left _ _)

theorem Stretch.noticed {c : Setup} {s : ExchangeServer} {new : List Obs}
    (hreach : Reachable c s) (hnew : Stretch s new) {fd : Int} (hi : Noticed fd s.trace) :
    Noticed fd (s.trace ++ new) := by
  have hcalm : ∀ {new : List Obs}, (∀ o ∈ new, o.calm = true) →
      ∀ o ∈ new, o ≠ .accepted fd := fun h o ho => ne_accepted_of_calm (h o ho) fd
  cases hnew with
  | calm h =>
      refine hi.append (hcalm h) ?_
      rw [flatMap_messageTo_of_calm h]
      exact List.nil_sublist _
  | @accept fd' new hnone h =>
      by_cases hfd : fd' = fd
      · subst hfd
        unfold Noticed noticesOf
        rw [messagesTo_accept (hcalm h), flatMap_messageTo_of_calm h]
        exact List.nil_sublist _
      · refine hi.append ?_ ?_
        · intro o ho
          rcases List.mem_cons.mp ho with rfl | ho
          · simpa using hfd
          · exact hcalm h o ho
        · have hnone : Obs.messageTo fd (.accepted fd') = [] := rfl
          rw [List.flatMap_cons, flatMap_messageTo_of_calm h, hnone]
          exact List.nil_sublist _
  | @line fd' session line pre notices reply es h hopen hquit hpre hnotices =>
      refine hi.append (hpre.stretch_ne line hnotices fd) ?_
      refine List.Sublist.trans ?_ (hpre.due hreach)
      refine List.Sublist.trans ?_ (hnotices.due fd)
      rw [hpre.stretch_messages, List.filter_append, filter_direct hpre.direct,
        List.nil_append]
      exact List.filter_sublist
  | @quit fd' session line new h hopen hquit hnew =>
      refine hi.append ?_ ?_
      · intro o ho
        rcases List.mem_cons.mp ho with rfl | ho
        · simp
        · exact hcalm hnew o ho
      · have hnone : Obs.messageTo fd (.handling fd' line) = [] := rfl
        rw [List.flatMap_cons, flatMap_messageTo_of_calm hnew, hnone]
        exact List.nil_sublist _
  | @oversized fd' session new h hopen hnew hleft =>
      refine hi.append ?_ ?_
      · intro o ho
        rcases List.mem_cons.mp ho with rfl | ho
        · simp
        · exact hcalm hnew o ho
      · rw [List.flatMap_cons, flatMap_messageTo_of_calm hnew, List.append_nil,
          filter_direct rfl]
        exact List.nil_sublist _

theorem run_noticed (c : Setup) (turns : List Turn) (fd : Int) :
    Noticed fd (run c turns).trace :=
  run_trace_invariant (T := Noticed fd) c (List.Sublist.refl _)
    (fun _ _ _ hreach _ _ hnew hi => hnew.noticed hreach hi) turns

/-! ## Subscribed when told -/

/-- A TRADE is queued to a client that is subscribed to its instrument at that moment. -/
def Obs.Subscribed (before : List Obs) (o : Obs) : Prop :=
  ∀ fd instrument quantity price, o = .queued fd (.trade instrument quantity price) →
    instrument ∈ subscriptionsIn fd before

/-- What is written while a line is handled leaves the subscriptions of a client alone that
is not dropped. -/
private theorem resubscribe_of_notices {fd : Int} {o : Obs}
    (ho : o.calm = true ∨ o.notice = true) (hdrop : ∀ reason, o ≠ .dropped fd reason)
    (subscriptions : List Bytes) : o.resubscribe fd subscriptions = subscriptions := by
  cases o with
  | dropped dest reason =>
      refine if_neg ?_
      rintro rfl
      exact hdrop reason rfl
  | subscribed | unsubscribed => rcases ho with ho | ho <;> cases ho
  | _ => rfl

private theorem run_resubscribe_of_notices {fd : Int} {new : List Obs}
    (hnew : ∀ o ∈ new, o.calm = true ∨ o.notice = true)
    (hdrop : ∀ reason, .dropped fd reason ∉ new) (subscriptions : List Bytes) :
    Loop.run (Obs.resubscribe fd) subscriptions new = subscriptions := by
  induction new generalizing subscriptions with
  | nil => rfl
  | cons o new ih =>
      have hhead : ∀ reason, o ≠ .dropped fd reason := by
        rintro reason rfl
        exact hdrop reason (by simp)
      rw [Loop.run_cons, resubscribe_of_notices (hnew o (by simp)) hhead]
      exact ih (fun x hx => hnew x (by simp [hx])) (fun reason hx => hdrop reason (by simp [hx])) _

/-- The TRADE notices of a line find their clients subscribed. -/
private theorem Prelude.subscribed {c : Setup} {s : ExchangeServer} (hreach : Reachable c s)
    {fd dest : Int} {line : Bytes} {pre notices before after : List Obs} {reply : Response}
    {es : List TradeExecution} (hpre : Prelude fd pre reply es) (hnotices : Notices s es notices)
    {instrument : Bytes} {quantity price : Int}
    (hsplit : notices = before ++ .queued dest (.trade instrument quantity price) :: after) :
    instrument ∈ subscriptionsIn dest
      (s.trace ++ (.handling fd line :: pre ++ .queued fd reply :: before)) := by
  have hmem : .trade instrument quantity price ∈ es.flatMap (s.noticesTo dest) :=
    (hnotices.due dest).subset (by simp [hsplit, Obs.messageTo])
  obtain ⟨e, he, htrade⟩ := List.mem_flatMap.mp hmem
  have hsub : dest ∈ subscribersOf s.subscribers instrument := by
    unfold noticesTo at htrade
    rw [List.mem_append, List.mem_append] at htrade
    rcases htrade with (htrade | htrade) | htrade
    · split at htrade <;> simp at htrade
    · split at htrade <;> simp at htrade
    · split at htrade
      · next hsub =>
        cases List.mem_singleton.mp htrade
        exact hsub
      · cases htrade
  have hdrop := hnotices.live before _ after hsplit dest _ rfl
  have honly : ∀ o ∈ before, o.calm = true ∨ o.notice = true := fun o ho =>
    hnotices.only o (by simp [hsplit, ho])
  cases hpre with
  | answer h => cases he
  | note ho h => cases he
  | submit o quantity' fills howner hpos =>
      rw [subscriptionsIn_append]
      · simp only [List.cons_append, List.nil_append, Loop.run_cons, Obs.resubscribe]
        rw [run_resubscribe_of_notices honly hdrop]
        exact mem_subscriptionsIn hreach hsub
      · intro x hx
        simp only [List.cons_append, List.nil_append, List.mem_cons] at hx
        rcases hx with rfl | rfl | rfl | hx
        · simp
        · simp
        · simp
        · rcases honly x hx with hx | hx
          · exact ne_accepted_of_calm hx dest
          · rintro rfl
            cases hx

theorem Stretch.subscribed {c : Setup} {s : ExchangeServer} {new : List Obs}
    (hreach : Reachable c s) (hnew : Stretch s new) (hi : Log.Each Obs.Subscribed s.trace) :
    Log.Each Obs.Subscribed (s.trace ++ new) := by
  intro before o after hsplit
  rcases Log.split_of_append hsplit with ⟨after', hold, _⟩ | ⟨before', rfl, hsplit'⟩
  · exact hi before o after' hold
  rintro fd instrument quantity price rfl
  have hmem : .queued fd (.trade instrument quantity price) ∈ new := by simp [hsplit']
  cases hnew with
  | calm h => cases h _ hmem
  | accept fd' hnone h =>
      rcases List.mem_cons.mp hmem with heq | hmem
      · cases heq
      · cases h _ hmem
  | @line fd' session line pre notices reply es h hopen hquit hpre hnotices =>
      have hdirect := hpre.direct
      -- the message is neither in the prelude nor the reply
      rw [List.cons_append, ← List.cons_append] at hsplit'
      rcases Log.split_of_append hsplit' with ⟨rest, hhead, _⟩ | ⟨rest, rfl, hrest⟩
      · have hnone : (.handling fd' line :: pre).flatMap (Obs.messageTo fd) = [] := by
          rw [List.flatMap_cons, hpre.messages]
          rfl
        rw [hhead, List.flatMap_append, List.flatMap_cons] at hnone
        simp [Obs.messageTo] at hnone
      · cases rest with
        | nil =>
            rw [List.nil_append, List.cons.injEq] at hrest
            cases hrest.1
            cases hdirect
        | cons x rest =>
            rw [List.cons_append, List.cons.injEq] at hrest
            obtain ⟨rfl, hrest⟩ := hrest
            exact hpre.subscribed hreach hnotices hrest
  | quit fd' session line h hopen hquit hcalm =>
      rcases List.mem_cons.mp hmem with heq | hmem
      · cases heq
      · cases hcalm _ hmem
  | oversized fd' session h hopen hcalm hleft =>
      rcases List.mem_cons.mp hmem with heq | hmem
      · cases heq
      · cases hcalm _ hmem

/-! ## Nobody else is written to -/

theorem sendTo_lookup_ne {s : ExchangeServer} (hb : Base s) {dest fd : Int} (hne : fd ≠ dest)
    (message : Response) :
    (s.sendTo dest message).sessions.lookup fd = s.sessions.lookup fd := by
  have hchannel : (s.sendTo dest message).channels fd = s.channels fd := by
    rw [sendTo_channels hb, Channels.post_apply, if_neg hne]
  have hsession := congrArg (Option.map Socket.session) hchannel
  simpa [channels, Function.comp_def] using hsession

/-- A session that neither side of an execution belongs to and that is not subscribed. -/
private def Outside (s₀ : ExchangeServer) (fd : Int) (e : TradeExecution)
    (s : ExchangeServer) : Prop :=
  Base s ∧ Registry s ∧ s.sessions.lookup fd = s₀.sessions.lookup fd ∧
    fd ∉ subscribersOf s.subscribers e.instrument

private theorem Outside.sendTo {s₀ s : ExchangeServer} {fd : Int} {e : TradeExecution}
    (h : Outside s₀ fd e s) {dest : Int} (hne : fd ≠ dest) (message : Response) :
    Outside s₀ fd e (s.sendTo dest message) := by
  obtain ⟨hb, hr, hsame, hout⟩ := h
  have hr' := sendTo_registry hb hr dest message
  refine ⟨sendTo_base hb dest message, hr', (sendTo_lookup_ne hb hne message).trans hsame, ?_⟩
  rw [hr'.subscriber_iff]
  rintro ⟨session, hsession, hmem⟩
  rw [sendTo_lookup_ne hb hne] at hsession
  exact hout ((hr.subscriber_iff fd e.instrument).mpr ⟨session, hsession, hmem⟩)

/-- **An execution reaches nobody else.** -/
theorem publish_outside {c : Setup} {s : ExchangeServer} (hreach : Reachable c s)
    {fd : Int} {e : TradeExecution} (hbuyer : fd ≠ e.buyerFd) (hseller : fd ≠ e.sellerFd)
    (hout : fd ∉ subscribersOf s.subscribers e.instrument) :
    (s.publish e).sessions.lookup fd = s.sessions.lookup fd := by
  have hstart : Outside s fd e s := ⟨hreach.base, hreach.registry, rfl, hout⟩
  have hparties := (hstart.sendTo hbuyer (boughtOf e)).sendTo hseller (soldOf e)
  unfold publish
  dsimp only
  split
  · exact hparties.2.2.1
  · next targets htargets =>
    have hnot : ∀ dest ∈ targets, fd ≠ dest := by
      rintro dest hdest rfl
      refine hparties.2.2.2 ?_
      rw [subscribersOf]
      exact htargets ▸ hdest
    exact (Loop.run_invariant (I := Outside s fd e) (P := fun dest => fd ≠ dest)
      (fun s dest hne h => h.sendTo hne (tradeOf e)) hparties
      (fun dest hdest => hnot dest ((HashOrder.mem_walk _).mp hdest))).2.2.1

/-! ## The theorem -/

/-- Notices of one kind correspond to executions, in order and each to another one. -/
private theorem Noticed.kind {fd : Int} {trace : List Obs} (h : Noticed fd trace)
    (kind : Response → Bool) (hkind : ∀ message, kind message = true → message.direct = false) :
    ((messagesTo fd trace).filter kind).Sublist ((duesOf fd trace).filter kind) := by
  have hfilter : (messagesTo fd trace).filter kind = (noticesOf fd trace).filter kind := by
    rw [noticesOf, List.filter_filter]
    refine List.filter_congr fun message _ => ?_
    cases hk : kind message with
    | false => rfl
    | true => simp [hkind message hk]
  rw [hfilter]
  exact h.filter kind

/-- **Notices are never invented, duplicated or leaked.**  In every run and for every
connection: its BOUGHT and SOLD messages correspond, in order and each to a different
execution, to executions whose buyer or seller it is, and its TRADE messages to
executions of instruments it was subscribed to.  It is subscribed at the moment a TRADE
is queued to it.  In no state does the publishing of an execution touch a session that is
neither a party nor subscribed. -/
theorem notices_faithful (c : Setup) (turns : List Turn) (fd : Int) :
    ((messagesTo fd (run c turns).trace).filter isBought).Sublist
        (((executionsIn fd (run c turns).trace).filter fun e => e.buyerFd = fd).map boughtOf) ∧
      ((messagesTo fd (run c turns).trace).filter isSold).Sublist
        (((executionsIn fd (run c turns).trace).filter fun e => e.sellerFd = fd).map soldOf) ∧
      ((messagesTo fd (run c turns).trace).filter isTrade).Sublist
        ((watchedIn fd (run c turns).trace).map tradeOf) ∧
      Log.Each Obs.Subscribed (run c turns).trace ∧
      ∀ s, Reachable c s → ∀ e : TradeExecution, fd ≠ e.buyerFd → fd ≠ e.sellerFd →
        fd ∉ subscribersOf s.subscribers e.instrument →
        (s.publish e).sessions.lookup fd = s.sessions.lookup fd := by
  have hnoticed := run_noticed c turns fd
  refine ⟨?_, ?_, ?_, ?_, ?_⟩
  · have hbought := hnoticed.kind isBought fun message h => by
      cases message <;> first | rfl | cases h
    rwa [duesOf, dues_isBought] at hbought
  · have hsold := hnoticed.kind isSold fun message h => by
      cases message <;> first | rfl | cases h
    rwa [duesOf, dues_isSold] at hsold
  · have htrade := hnoticed.kind isTrade fun message h => by
      cases message <;> first | rfl | cases h
    rwa [duesOf, dues_isTrade] at htrade
  · exact run_trace_invariant (T := Log.Each Obs.Subscribed) c Log.each_nil
      (fun _ _ _ hreach _ _ hnew hi => hnew.subscribed hreach hi) turns
  · intro s hreach e hbuyer hseller hout
    exact publish_outside hreach hbuyer hseller hout

end SocketExchange.Server
