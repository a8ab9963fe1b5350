import SocketExchange.Server.Notifications
import SocketExchange.Trading.Ledger

/-!
# What traders are told of their orders

Every BOUGHT and SOLD message is about an order the trader was given a number for.
Fix an account: a connection, a side, an instrument and a price.  The quantities told
on it never exceed those of its orders whose ORDER_ACCEPTED came before, at any point
of the messages queued to the connection.

Three ledgers meet here.  What is told was executed (`Noticed`).  What was executed
since the connection was accepted, with what still rests, was submitted since then
(`Accounts`).  And what was submitted has been acknowledged by the time anything more
is told (`Acknowledged`).
-/

namespace SocketExchange.Server

open SocketExchange.Lib
open SocketExchange.Lib.Bytes
open SocketExchange.Network
open SocketExchange.Protocol
open SocketExchange.Trading.OrderBook
open ExchangeServer

/-! ## The ledger of a connection -/

def Obs.submittedOn (a : Account) : Obs → Int
  | .submitted o quantity _ => if o.account = a then quantity else 0
  | _ => 0

def Obs.executedOn (a : Account) : Obs → Int
  | .submitted _ _ fills => executedIn a fills
  | _ => 0

/-- The quantity submitted on an account since its owner was last accepted. -/
def submittedSince (a : Account) (trace : List Obs) : Int :=
  ((sinceAccept a.ownerFd trace).map (Obs.submittedOn a)).sum

/-- The quantity executed in the name of an account since its owner was last accepted. -/
def executedSince (a : Account) (trace : List Obs) : Int :=
  ((sinceAccept a.ownerFd trace).map (Obs.executedOn a)).sum

/-- Orders and fills are of positive quantities, and no account is overdrawn. -/
structure Accounts (s : ExchangeServer) : Prop where
  positive : ∀ o quantity fills, .submitted o quantity fills ∈ s.trace →
    0 < quantity ∧ ∀ f ∈ fills, 0 < f.execution.quantity
  balance : ∀ a, executedSince a s.trace + total a s.book.orders ≤ submittedSince a s.trace

/-- Nobody is accepted and nothing is submitted. -/
def Obs.idle : Obs → Bool
  | .accepted _ => false
  | .submitted _ _ _ => false
  | _ => true

section Append

variable (a : Account) (trace : List Obs) {new : List Obs}

theorem since_append_sums (hne : ∀ o ∈ new, o ≠ .accepted a.ownerFd) :
    submittedSince a (trace ++ new) =
        submittedSince a trace + (new.map (Obs.submittedOn a)).sum ∧
      executedSince a (trace ++ new) =
        executedSince a trace + (new.map (Obs.executedOn a)).sum := by
  simp [submittedSince, executedSince, sinceAccept_append hne]

/-- Observations that leave an account alone. -/
private theorem since_append_idle (hnew : ∀ o ∈ new, o ≠ .accepted a.ownerFd)
    (hidle : ∀ o ∈ new, ∀ o' quantity fills, o ≠ .submitted o' quantity fills) :
    submittedSince a (trace ++ new) = submittedSince a trace ∧
      executedSince a (trace ++ new) = executedSince a trace := by
  have hzero : (new.map (Obs.submittedOn a)).sum = 0 ∧ (new.map (Obs.executedOn a)).sum = 0 := by
    refine ⟨List.sum_eq_zero fun x hx => ?_, List.sum_eq_zero fun x hx => ?_⟩
    · obtain ⟨o, ho, rfl⟩ := List.mem_map.mp hx
      cases o <;> first | rfl | exact absurd rfl (hidle _ ho _ _ _)
    · obtain ⟨o, ho, rfl⟩ := List.mem_map.mp hx
      cases o <;> first | rfl | exact absurd rfl (hidle _ ho _ _ _)
  obtain ⟨hsub, hexec⟩ := since_append_sums a trace hnew
  rw [hsub, hexec, hzero.1, hzero.2]
  omega

end Append

/-- A step that submits nothing and takes nothing but orders. -/
private theorem Accounts.quiet {s s' : ExchangeServer} (hi : Accounts s) {new : List Obs}
    (htrace : s'.trace = s.trace ++ new) (hnew : ∀ o ∈ new, o.idle = true)
    (hbook : ∀ a, total a s'.book.orders ≤ total a s.book.orders) : Accounts s' := by
  have hidle : ∀ o ∈ new, ∀ o' quantity fills, o ≠ .submitted o' quantity fills := by
    rintro o ho o' quantity fills rfl
    cases hnew _ ho
  refine ⟨?_, fun a => ?_⟩
  · intro o quantity fills ho
    rw [htrace, List.mem_append] at ho
    exact hi.positive o quantity fills (ho.resolve_right fun ho => hidle _ ho _ _ _ rfl)
  · have hne : ∀ o ∈ new, o ≠ .accepted a.ownerFd := by
      rintro o ho rfl
      cases hnew _ ho
    obtain ⟨hsub, hexec⟩ := since_append_idle a s.trace hne hidle
    rw [htrace, hsub, hexec]
    have hle := hbook a
    have := hi.balance a
    omega

private theorem Accounts.drop {s : ExchangeServer} (hr : Registry s) (hi : Accounts s)
    (fd : Int) (reason : DropReason) : Accounts (s.drop fd reason) := by
  cases h : s.sessions.lookup fd with
  | none =>
      rw [drop_of_lookup_none h]
      exact hi
  | some session =>
      refine hi.quiet (drop_trace h reason) (by simp [Obs.idle]) fun a => ?_
      have hbook : (s.drop fd reason).book = s.book.removeOrdersOf s.kernel.order fd := by
        simp only [ExchangeServer.drop, h]
      rw [hbook]
      exact (removeOrdersOf_kept s.kernel.order hr.book fd).total_le hr.book a

private theorem Accounts.submit {s : ExchangeServer} (hr : Registry s) (hi : Accounts s)
    (fd : Int) (cmd : ParsedCommand) (hcmd : 0 < cmd.quantity) : Accounts (s.submit fd cmd) := by
  have htrace : (s.submit fd cmd).trace = s.trace ++
      [.submitted (s.book.incoming fd cmd.instrument (sideOf cmd.type) cmd.price) cmd.quantity
        (s.addResult fd cmd).fills] := rfl
  refine ⟨?_, fun a => ?_⟩
  · intro o quantity fills ho
    rw [htrace, List.mem_append, List.mem_singleton] at ho
    rcases ho with ho | ho
    · exact hi.positive o quantity fills ho
    · cases ho
      refine ⟨hcmd, fun f hf => ?_⟩
      rw [addResult, addOrder_fills] at hf
      obtain ⟨t, ht, rfl⟩ := List.mem_map.mp hf
      exact (matched_taken hr.book _ _ _ _ t ht).1
  · have hbalance := addOrder_balances hr.book a fd cmd.instrument (sideOf cmd.type) cmd.price hcmd
    have hne : ∀ x ∈ [Obs.submitted (s.book.incoming fd cmd.instrument (sideOf cmd.type)
        cmd.price) cmd.quantity (s.addResult fd cmd).fills], x ≠ .accepted a.ownerFd := by
      simp
    obtain ⟨hsub, hexec⟩ := since_append_sums a s.trace hne
    rw [htrace, hsub, hexec]
    simp only [List.map_cons, List.map_nil, List.sum_cons, List.sum_nil, Obs.submittedOn,
      Obs.executedOn, Int.add_zero]
    have := hi.balance a
    show executedSince a s.trace + executedIn a (s.book.addOrder _ _ _ _ _).fills +
      total a (s.book.addOrder _ _ _ _ _).book.orders ≤ _
    omega

private theorem Accounts.accept {s s' : ExchangeServer} (hr : Registry s) (hi : Accounts s)
    {fd : Int} (h : s.sessions.lookup fd = none) (hbook : s'.book = s.book)
    (htrace : s'.trace = s.trace ++ [.accepted fd]) : Accounts s' := by
  refine ⟨?_, fun a => ?_⟩
  · intro o quantity fills ho
    rw [htrace, List.mem_append] at ho
    exact hi.positive o quantity fills (ho.resolve_right (by simp))
  · rw [htrace, hbook]
    by_cases howner : a.ownerFd = fd
    · -- nothing rests under a number that is not in use
      have hzero : total a s.book.orders = 0 := by
        refine List.sum_eq_zero fun x hx => ?_
        obtain ⟨o, ho, rfl⟩ := List.mem_map.mp hx
        obtain ⟨q, n, hn, rfl⟩ := mem_orders.mp ho
        obtain ⟨session, hsession, _⟩ := hr.owner q n hn
        refine if_neg fun haccount => ?_
        have : n.order.ownerFd = fd := by rw [← howner, ← haccount]; rfl
        rw [this, h] at hsession
        cases hsession
      have hsince : sinceAccept a.ownerFd (s.trace ++ [.accepted fd]) = [] := by
        rw [howner]
        exact sinceAccept_accept (by simp)
      rw [executedSince, submittedSince, hsince, hzero]
      exact Int.le_refl 0
    · have hne : ∀ o ∈ [Obs.accepted fd], o ≠ .accepted a.ownerFd := by
        simp [Ne.symm howner]
      obtain ⟨hsub, hexec⟩ := since_append_idle a s.trace hne (by simp)
      rw [hsub, hexec]
      exact hi.balance a

theorem Act.accounts {fd : Int} {s s' : ExchangeServer} (hact : Act fd s s') (hr : Registry s)
    (hi : Accounts s) : Accounts s' := by
  cases hact with
  | drop dest reason h => exact hi.drop hr dest reason
  | relist loop =>
      exact hi.quiet (List.append_nil _).symm (by simp) fun a => Int.le_refl _
  | interest session wantRead wantWrite h =>
      exact hi.quiet (List.append_nil _).symm (by simp) fun a => Int.le_refl _
  | queue | write | leave | login | subscribe | unsubscribe =>
      exact hi.quiet rfl (by simp [Obs.idle]) fun a => Int.le_refl _
  | submit session cmd h hrole hin hcmd => exact hi.submit hr fd cmd hcmd
  | cancel session orderId h hin hok =>
      refine hi.quiet rfl (by simp [Obs.idle]) fun a => ?_
      rcases cancelOrder_cases hr.book orderId fd with ⟨hfail, _⟩ | ⟨_, _, hkept⟩
      · rw [hok] at hfail
        cases hfail
      · exact hkept.total_le hr.book a

theorem Env.accounts {s s' : ExchangeServer} (henv : Env s s') (hr : Registry s)
    (hi : Accounts s) : Accounts s' := by
  cases henv with
  | accept fd peer hfd h hnonneg => exact hi.accept hr h rfl rfl
  | refuse fd peer h =>
      exact hi.quiet (refuse_trace s fd) (by simp [Obs.idle]) fun a => Int.le_refl _
  | bounce fd hfd =>
      exact hi.quiet (bounce_trace s fd) (by simp [Obs.idle]) fun a => Int.le_refl _
  | reap =>
      refine hi.quiet (reapClosed_trace s) ?_ fun a => ?_
      · intro o ho
        obtain ⟨fd, _, rfl⟩ := List.mem_map.mp ho
        rfl
      · rw [(reapClosed_tables s).2.2.2]
  | timer resumeAt loop =>
      exact hi.quiet (List.append_nil _).symm (by simp) fun a => Int.le_refl _
  | load answers =>
      exact hi.quiet (List.append_nil _).symm (by simp) fun a => Int.le_refl _

theorem Move.accounts {s s' : ExchangeServer} (hmove : Move s s') (hr : Registry s)
    (hi : Accounts s) : Accounts s' := by
  cases hmove with
  | serve hserve =>
      cases hserve with
      | act hact => exact hact.accounts hr hi
      | receive | take | handled =>
          exact hi.quiet rfl (by simp [Obs.idle]) fun a => Int.le_refl _
  | env henv => exact henv.accounts hr hi

/-- **No account is overdrawn**, in any state. -/
theorem Reachable.accounts {c : Setup} {s : ExchangeServer} (h : Reachable c s) :
    Accounts s := by
  have hstart : Accounts (ExchangeServer.start c.backend c.listenerFd c.openFds c.clock) :=
    ⟨fun _ _ _ ho => absurd ho List.not_mem_nil, fun a => Int.le_refl 0⟩
  have hboth := Moves.invariant h (I := fun s => Registry s ∧ Accounts s)
    (fun _ _ hmove hi => ⟨hmove.registry hi.1, hmove.accounts hi.1 hi.2⟩)
    ⟨registry_start c, hstart⟩
  exact hboth.2

/-! ## What is told -/

/-- What a message tells on an account. -/
def toldOn (a : Account) : Response → Int
  | .bought instrument quantity price =>
      if a.side = .buy ∧ instrument = a.instrument ∧ price = a.price then quantity else 0
  | .sold instrument quantity price =>
      if a.side = .sell ∧ instrument = a.instrument ∧ price = a.price then quantity else 0
  | _ => 0

/-- The sum of the BOUGHT or SOLD quantities at the instrument and price of an account. -/
def told (a : Account) (messages : List Response) : Int := (messages.map (toldOn a)).sum

/-- An order on the account whose ORDER_ACCEPTED is among the messages. -/
def Obs.acknowledgedOn (a : Account) (messages : List Response) : Obs → Int
  | .submitted o quantity _ =>
      if o.account = a ∧ .orderAccepted o.orderId ∈ messages then quantity else 0
  | _ => 0

/-- The sum of the quantities of the orders on an account, given on the present connection
of its owner, whose ORDER_ACCEPTED is among the messages. -/
def acknowledged (a : Account) (messages : List Response) (trace : List Obs) : Int :=
  ((sinceAccept a.ownerFd trace).map (Obs.acknowledgedOn a messages)).sum

theorem told_append (a : Account) (ms ms' : List Response) :
    told a (ms ++ ms') = told a ms + told a ms' := by
  simp [told]

theorem toldOn_direct (a : Account) {message : Response} (h : message.direct = true) :
    toldOn a message = 0 := by
  cases message <;> first | rfl | cases h

/-- Only notices tell anything. -/
private theorem told_notices (a : Account) (messages : List Response) :
    told a (messages.filter fun message => !message.direct) = told a messages := by
  induction messages with
  | nil => rfl
  | cons message messages ih =>
      rw [List.filter_cons]
      cases h : message.direct with
      | true =>
          simp only [told, List.map_cons, List.sum_cons, toldOn_direct a h] at ih ⊢
          simpa using ih
      | false =>
          simp only [told, List.map_cons, List.sum_cons] at ih ⊢
          simpa using ih

/-- What an execution means for the owner of an account, in quantities. -/
private theorem told_duesFor (a : Account) (subscriptions : List Bytes) (e : TradeExecution) :
    told a (duesFor a.ownerFd subscriptions e) =
      if e.account a.side = a then e.quantity else 0 := by
  obtain ⟨owner, side, instrument, price⟩ := a
  have htrade : told ⟨owner, side, instrument, price⟩
      (if subscriptions.contains e.instrument then [tradeOf e] else []) = 0 := by
    split <;> rfl
  rw [duesFor, told_append, told_append, htrade, Int.add_zero]
  simp only [TradeExecution.account, Account.mk.injEq, true_and]
  cases side with
  | buy =>
      have hsold : told ⟨owner, .buy, instrument, price⟩
          (if e.sellerFd = owner then [soldOf e] else []) = 0 := by
        split
        · simp [told, toldOn, soldOf]
        · rfl
      rw [hsold, Int.add_zero]
      by_cases howner : e.buyerFd = owner
      · simp [howner, told, toldOn, boughtOf]
      · simp [howner, told]
  | sell =>
      have hbought : told ⟨owner, .sell, instrument, price⟩
          (if e.buyerFd = owner then [boughtOf e] else []) = 0 := by
        split
        · simp [told, toldOn, boughtOf]
        · rfl
      rw [hbought, Int.zero_add]
      by_cases howner : e.sellerFd = owner
      · simp [howner, told, toldOn, soldOf]
      · simp [howner, told]

private theorem told_flatMap_duesFor (a : Account) (subscriptions : List Bytes)
    (fills : List Fill) :
    told a ((fills.map Fill.execution).flatMap (duesFor a.ownerFd subscriptions)) =
      executedIn a fills := by
  induction fills with
  | nil => rfl
  | cons f fills ih =>
      rw [List.map_cons, List.flatMap_cons, told_append, ih, told_duesFor]
      simp [executedIn]

/-- What the executions of a piece of the trace mean for the owner, in quantities. -/
private theorem told_dues (a : Account) (subscriptions : List Bytes) (new : List Obs) :
    told a (dues a.ownerFd subscriptions new) = (new.map (Obs.executedOn a)).sum := by
  induction new generalizing subscriptions with
  | nil => rfl
  | cons o new ih =>
      rw [dues, told_append, ih, List.map_cons, List.sum_cons]
      congr 1
      cases o with
      | submitted o quantity fills => exact told_flatMap_duesFor a subscriptions fills
      | _ => rfl

private theorem toldOn_nonneg_of_dues (a : Account) {fd : Int} {subscriptions : List Bytes}
    {new : List Obs} (hpos : ∀ e ∈ new.flatMap Obs.executions, 0 < e.quantity) :
    ∀ message ∈ dues fd subscriptions new, 0 ≤ toldOn a message := by
  induction new generalizing subscriptions with
  | nil =>
      intro message h
      cases h
  | cons o new ih =>
      intro message h
      rw [dues, List.mem_append] at h
      rcases h with h | h
      · obtain ⟨e, he, hdue⟩ := List.mem_flatMap.mp h
        have hq := hpos e (by simp [he])
        simp only [duesFor, List.mem_append] at hdue
        rcases hdue with (hdue | hdue) | hdue
        all_goals
          split at hdue
          · rw [List.mem_singleton.mp hdue]
            simp only [boughtOf, soldOf, tradeOf, toldOn]
            try split
            all_goals omega
          · cases hdue
      · exact ih (fun e he => hpos e (by simp [he])) message h

theorem mem_of_mem_sinceAccept {fd : Int} {trace : List Obs} {o : Obs}
    (h : o ∈ sinceAccept fd trace) : o ∈ trace :=
  (Log.since_isSuffix _ trace).subset h

/-- **What is told was executed**: at the end of the messages, and the more so before. -/
theorem told_le_executedSince {a : Account} {s : ExchangeServer} (hi : Accounts s)
    (hnoticed : Noticed a.ownerFd s.trace) {p : List Response}
    (hp : p <+: messagesTo a.ownerFd s.trace) : told a p ≤ executedSince a s.trace := by
  have hpos : ∀ e ∈ (sinceAccept a.ownerFd s.trace).flatMap Obs.executions, 0 < e.quantity := by
    intro e he
    obtain ⟨o, ho, hmem⟩ := List.mem_flatMap.mp he
    cases o with
    | submitted o quantity fills =>
        obtain ⟨f, hf, rfl⟩ := List.mem_map.mp hmem
        exact (hi.positive o quantity fills (mem_of_mem_sinceAccept ho)).2 f hf
    | _ => cases hmem
  have hnonneg : ∀ x ∈ (duesOf a.ownerFd s.trace).map (toldOn a), 0 ≤ x := by
    intro x hx
    obtain ⟨message, hmessage, rfl⟩ := List.mem_map.mp hx
    exact toldOn_nonneg_of_dues a hpos message hmessage
  have hsub : (p.filter fun message => !message.direct).Sublist (duesOf a.ownerFd s.trace) :=
    (hp.sublist.filter _).trans hnoticed
  calc told a p = told a (p.filter fun message => !message.direct) := (told_notices a p).symm
    _ ≤ told a (duesOf a.ownerFd s.trace) := (hsub.map (toldOn a)).sum_le_sum hnonneg
    _ = executedSince a s.trace := told_dues a [] _

/-! ## What is acknowledged -/

/-- Every order given on the present connection of `fd` has been acknowledged. -/
def Acknowledged (fd : Int) (trace : List Obs) : Prop :=
  ∀ o quantity fills, .submitted o quantity fills ∈ sinceAccept fd trace → o.ownerFd = fd →
    .orderAccepted o.orderId ∈ messagesTo fd trace

/-- A piece of the trace in which `fd` gives no order. -/
private theorem Acknowledged.append {fd : Int} {trace new : List Obs}
    (h : Acknowledged fd trace) (hne : ∀ o ∈ new, o ≠ .accepted fd)
    (hnew : ∀ o quantity fills, .submitted o quantity fills ∈ new → o.ownerFd = fd →
      .orderAccepted o.orderId ∈ new.flatMap (Obs.messageTo fd)) :
    Acknowledged fd (trace ++ new) := by
  intro o quantity fills ho howner
  rw [sinceAccept_append hne, List.mem_append] at ho
  rw [messagesTo_append hne, List.mem_append]
  rcases ho with ho | ho
  · exact Or.inl (h o quantity fills ho howner)
  · exact Or.inr (hnew o quantity fills ho howner)

/-- In the stretch of a line, the order that is given is the sender's, and the reply
acknowledges it. -/
private theorem Prelude.submitted {s : ExchangeServer} {fd : Int} {line : Bytes}
    {pre notices : List Obs} {reply : Response} {es : List TradeExecution}
    (hpre : Prelude fd pre reply es) (hnotices : Notices s es notices)
    {o : Incoming} {quantity : Int} {fills : List Fill}
    (ho : .submitted o quantity fills ∈
      .handling fd line :: pre ++ .queued fd reply :: notices) :
    o.ownerFd = fd ∧ reply = .orderAccepted o.orderId := by
  rw [List.cons_append, List.mem_cons, List.mem_append, List.mem_cons] at ho
  rcases ho with heq | ho | heq | ho
  · cases heq
  · cases hpre with
    | answer h => cases ho
    | note hnote h =>
        rw [← List.mem_singleton.mp ho] at hnote
        cases hnote
    | submit o' quantity' fills' howner hpos =>
        cases List.mem_singleton.mp ho
        exact ⟨howner, rfl⟩
  · cases heq
  · rcases hnotices.only _ ho with hcalm | hnotice
    · cases hcalm
    · cases hnotice

/-- A stretch of another kind submits nothing. -/
private theorem unsubmitted_of_calm {new : List Obs} (h : ∀ o ∈ new, o.calm = true) {x : Obs}
    (hx : x.idle = true ∨ ∃ fd, x = .accepted fd) {o : Incoming} {quantity : Int}
    {fills : List Fill} : .submitted o quantity fills ∉ x :: new := by
  intro ho
  rcases List.mem_cons.mp ho with rfl | ho
  · rcases hx with hx | ⟨fd, hx⟩
    · cases hx
    · cases hx
  · cases h _ ho

theorem Stretch.acknowledged {s : ExchangeServer} {new : List Obs} (hnew : Stretch s new)
    {fd : Int} (hi : Acknowledged fd s.trace) : Acknowledged fd (s.trace ++ new) := by
  have hcalm : ∀ {new : List Obs}, (∀ o ∈ new, o.calm = true) →
      ∀ o ∈ new, o ≠ .accepted fd := fun h o ho => ne_accepted_of_calm (h o ho) fd
  have hcons : ∀ {new : List Obs} {x : Obs}, (∀ o ∈ new, o.calm = true) → x ≠ .accepted fd →
      ∀ o ∈ x :: new, o ≠ .accepted fd := by
    intro new x h hx o ho
    rcases List.mem_cons.mp ho with rfl | ho
    · exact hx
    · exact hcalm h o ho
  cases hnew with
  | calm h =>
      refine hi.append (hcalm h) fun o quantity fills ho => ?_
      cases h _ ho
  | @accept fd' new hnone h =>
      by_cases hfd : fd' = fd
      · subst hfd
        intro o quantity fills ho
        rw [sinceAccept_accept (hcalm h)] at ho
        cases h _ ho
      · refine hi.append (hcons h (by simpa using hfd)) fun o quantity fills ho => ?_
        exact absurd ho (unsubmitted_of_calm h (Or.inr ⟨fd', rfl⟩))
  | @line fd' session line pre notices reply es h hopen hquit hpre hnotices =>
      refine hi.append (hpre.stretch_ne line hnotices fd) fun o quantity fills ho howner => ?_
      obtain ⟨howner', hreply⟩ := hpre.submitted hnotices ho
      rw [hpre.stretch_messages, hreply, ← howner', howner]
      simp [Obs.messageTo]
  | quit fd' session line h hopen hquit hcalm' =>
      refine hi.append (hcons hcalm' (by simp)) fun o quantity fills ho => ?_
      exact absurd ho (unsubmitted_of_calm hcalm' (Or.inl rfl))
  | oversized fd' session h hopen hcalm' hleft =>
      refine hi.append (hcons hcalm' (by simp)) fun o quantity fills ho => ?_
      exact absurd ho (unsubmitted_of_calm hcalm' (Or.inl rfl))

/-! ## Told within what is acknowledged -/

section Sums

variable {a : Account} {trace : List Obs}
  (hpos : ∀ o quantity fills, .submitted o quantity fills ∈ trace → 0 < quantity)

include hpos

private theorem acknowledgedOn_nonneg (p : List Response) {o : Obs} (ho : o ∈ trace) :
    0 ≤ o.acknowledgedOn a p := by
  cases o with
  | submitted o quantity fills =>
      have := hpos o quantity fills ho
      simp only [Obs.acknowledgedOn]
      split
      · omega
      · exact Int.le_refl 0
  | _ => exact Int.le_refl 0

/-- More messages acknowledge more. -/
private theorem acknowledged_mono {p p' : List Response} (h : p ⊆ p') :
    acknowledged a p trace ≤ acknowledged a p' trace := by
  refine List.sum_le_sum fun o ho => ?_
  have hnonneg := acknowledgedOn_nonneg hpos (a := a) p' (mem_of_mem_sinceAccept ho)
  cases o with
  | submitted o quantity fills =>
      by_cases hack : o.account = a ∧ .orderAccepted o.orderId ∈ p
      · have hack' : o.account = a ∧ .orderAccepted o.orderId ∈ p' := ⟨hack.1, h hack.2⟩
        simp [Obs.acknowledgedOn, hack, hack']
      · simp only [Obs.acknowledgedOn, if_neg hack] at hnonneg ⊢
        exact hnonneg
  | _ => exact Int.le_refl 0

end Sums

/-- More orders are acknowledged by the same messages. -/
private theorem acknowledged_append {a : Account} {trace new : List Obs} (p : List Response)
    (hpos : ∀ o quantity fills, .submitted o quantity fills ∈ trace ++ new → 0 < quantity)
    (hne : ∀ o ∈ new, o ≠ .accepted a.ownerFd) :
    acknowledged a p trace ≤ acknowledged a p (trace ++ new) := by
  have hnew : 0 ≤ (new.map (Obs.acknowledgedOn a p)).sum := by
    refine List.sum_nonneg fun x hx => ?_
    obtain ⟨o, ho, rfl⟩ := List.mem_map.mp hx
    exact acknowledgedOn_nonneg hpos p (by simp [ho])
  simp only [acknowledged, sinceAccept_append hne, List.map_append, List.sum_append]
  omega

/-- If every order is acknowledged, what was submitted is. -/
private theorem submittedSince_le_acknowledged {a : Account} {trace : List Obs}
    {p : List Response}
    (h : ∀ o quantity fills, .submitted o quantity fills ∈ sinceAccept a.ownerFd trace →
      o.account = a → .orderAccepted o.orderId ∈ p) :
    submittedSince a trace ≤ acknowledged a p trace := by
  refine List.sum_le_sum fun o ho => ?_
  cases o with
  | submitted o quantity fills =>
      simp only [Obs.submittedOn, Obs.acknowledgedOn]
      by_cases haccount : o.account = a
      · rw [if_pos haccount, if_pos ⟨haccount, h o quantity fills ho haccount⟩]
      · rw [if_neg haccount, if_neg fun hack => haccount hack.1]
  | _ => exact Int.le_refl 0

/-- At every point of the messages of its owner, an account is told no more than has been
acknowledged. -/
def Backed (a : Account) (trace : List Obs) : Prop :=
  ∀ p, p <+: messagesTo a.ownerFd trace → told a p ≤ acknowledged a p trace

section Step

variable {a : Account} {trace new : List Obs} (hi : Backed a trace)
  (hpos : ∀ o quantity fills, .submitted o quantity fills ∈ trace ++ new → 0 < quantity)
  (hne : ∀ o ∈ new, o ≠ .accepted a.ownerFd)

include hi hpos hne

/-- The messages up to a point are old, or are all the old ones and some new ones. -/
private theorem Backed.append
    (hlater : ∀ p, p ≠ [] → p <+: new.flatMap (Obs.messageTo a.ownerFd) →
      told a (messagesTo a.ownerFd trace ++ p) ≤
        acknowledged a (messagesTo a.ownerFd trace ++ p) (trace ++ new)) :
    Backed a (trace ++ new) := by
  have hold : ∀ p, p <+: messagesTo a.ownerFd trace →
      told a p ≤ acknowledged a p (trace ++ new) := fun p hp =>
    Int.le_trans (hi p hp) (acknowledged_append p hpos hne)
  intro p hp
  rw [messagesTo_append hne] at hp
  rcases List.prefix_or_prefix_of_prefix hp (List.prefix_append _ _) with hp' | ⟨p', rfl⟩
  · exact hold p hp'
  · by_cases hnil : p' = []
    · rw [hnil, List.append_nil]
      exact hold _ List.prefix_rfl
    · exact hlater p' hnil ((List.prefix_append_right_inj _).mp hp)

/-- New messages that tell nothing. -/
private theorem Backed.silent
    (hsilent : ∀ message ∈ new.flatMap (Obs.messageTo a.ownerFd), toldOn a message = 0) :
    Backed a (trace ++ new) := by
  refine hi.append hpos hne fun p _ hp => ?_
  have hzero : told a p = 0 := by
    refine List.sum_eq_zero fun x hx => ?_
    obtain ⟨message, hmessage, rfl⟩ := List.mem_map.mp hx
    exact hsilent message (hp.subset hmessage)
  calc told a (messagesTo a.ownerFd trace ++ p)
      = told a (messagesTo a.ownerFd trace) := by rw [told_append, hzero, Int.add_zero]
    _ ≤ acknowledged a (messagesTo a.ownerFd trace) trace := hi _ List.prefix_rfl
    _ ≤ acknowledged a (messagesTo a.ownerFd trace) (trace ++ new) :=
        acknowledged_append _ hpos hne
    _ ≤ acknowledged a (messagesTo a.ownerFd trace ++ p) (trace ++ new) :=
        acknowledged_mono hpos (List.subset_append_left _ _)

end Step

/-- **The stretch of a line.**  By the first new message, every order of the owner has been
acknowledged: the old ones before, the new one by that message. -/
private theorem Backed.line {a : Account} {s s' : ExchangeServer} {fd : Int}
    {line : Bytes} {pre notices : List Obs} {reply : Response} {es : List TradeExecution}
    (hpre : Prelude fd pre reply es) (hnotices : Notices s es notices)
    (htrace : s'.trace = s.trace ++ (.handling fd line :: pre ++ .queued fd reply :: notices))
    (hr : Registry s') (haccounts : Accounts s')
    (hack : Acknowledged a.ownerFd s.trace) (hnoticed : Noticed a.ownerFd s'.trace)
    (hi : Backed a s.trace) : Backed a s'.trace := by
  have hne := hpre.stretch_ne line hnotices a.ownerFd
  have hpos : ∀ o quantity fills, .submitted o quantity fills ∈ s'.trace → 0 < quantity :=
    fun o quantity fills ho => (haccounts.positive o quantity fills ho).1
  rw [htrace] at hpos ⊢
  refine hi.append hpos hne fun p hnil hp => ?_
  rw [← htrace]
  have hprefix : messagesTo a.ownerFd s.trace ++ p <+: messagesTo a.ownerFd s'.trace := by
    rw [htrace, messagesTo_append hne]
    exact (List.prefix_append_right_inj _).mpr hp
  have hexecuted : executedSince a s'.trace ≤ submittedSince a s'.trace := by
    have hbalance := haccounts.balance a
    have hrest := total_nonneg a hr.book.orders_pos
    omega
  refine Int.le_trans (told_le_executedSince haccounts hnoticed hprefix)
    (Int.le_trans hexecuted (submittedSince_le_acknowledged fun o quantity fills ho haccount => ?_))
  have howner : o.ownerFd = a.ownerFd := congrArg Account.ownerFd haccount
  rw [htrace, sinceAccept_append hne, List.mem_append] at ho
  rw [List.mem_append]
  rcases ho with ho | ho
  · exact Or.inl (hack o quantity fills ho howner)
  · -- the order is the sender's, so the first new message is its acknowledgement
    obtain ⟨howner', hreply⟩ := hpre.submitted hnotices ho
    rw [hpre.stretch_messages, hreply, ← howner', howner] at hp
    have hfirst : Obs.messageTo a.ownerFd (.queued a.ownerFd (.orderAccepted o.orderId)) =
        [.orderAccepted o.orderId] := by
      simp [Obs.messageTo]
    rw [hfirst] at hp
    obtain ⟨rest, hrest⟩ := hp
    cases p with
    | nil => exact absurd rfl hnil
    | cons message p =>
        rw [List.cons_append, List.singleton_append, List.cons.injEq] at hrest
        rw [hrest.1]
        exact Or.inr List.mem_cons_self

theorem Stretch.backed {a : Account} {c : Setup} {s s' : ExchangeServer} {new : List Obs}
    (hreach : Reachable c s') (htrace : s'.trace = s.trace ++ new) (hnew : Stretch s new)
    (hack : Acknowledged a.ownerFd s.trace) (hnoticed : Noticed a.ownerFd s'.trace)
    (hi : Backed a s.trace) : Backed a s'.trace := by
  have haccounts := hreach.accounts
  have hpos : ∀ o quantity fills, .submitted o quantity fills ∈ s.trace ++ new →
      0 < quantity := by
    intro o quantity fills ho
    rw [← htrace] at ho
    exact (haccounts.positive o quantity fills ho).1
  have hcons : ∀ {new : List Obs} {x : Obs}, (∀ o ∈ new, o.calm = true) →
      x ≠ .accepted a.ownerFd → ∀ o ∈ x :: new, o ≠ .accepted a.ownerFd := by
    intro new x h hx o ho
    rcases List.mem_cons.mp ho with rfl | ho
    · exact hx
    · exact ne_accepted_of_calm (h o ho) a.ownerFd
  -- at most one message, and that an answer
  have hsilent : ∀ {new : List Obs} {x : Obs}, (∀ o ∈ new, o.calm = true) →
      (∀ message ∈ x.messageTo a.ownerFd, message.direct = true) →
      ∀ message ∈ (x :: new).flatMap (Obs.messageTo a.ownerFd), toldOn a message = 0 := by
    intro new x h hx message hmessage
    rw [List.flatMap_cons, flatMap_messageTo_of_calm h, List.append_nil] at hmessage
    exact toldOn_direct a (hx message hmessage)
  cases hnew with
  | calm h =>
      rw [htrace]
      refine hi.silent hpos (fun o ho => ne_accepted_of_calm (h o ho) _) ?_
      rw [flatMap_messageTo_of_calm h]
      simp
  | @accept fd new hnone h =>
      rw [htrace]
      by_cases hfd : fd = a.ownerFd
      · subst hfd
        intro p hp
        rw [messagesTo_accept fun o ho => ne_accepted_of_calm (h o ho) _,
          flatMap_messageTo_of_calm h, List.prefix_nil] at hp
        rw [hp]
        refine List.sum_nonneg fun x hx => ?_
        obtain ⟨o, ho, rfl⟩ := List.mem_map.mp hx
        exact acknowledgedOn_nonneg hpos [] (mem_of_mem_sinceAccept ho)
      · exact hi.silent hpos (hcons h (by simpa using hfd)) (hsilent h (by simp [Obs.messageTo]))
  | @line fd session line pre notices reply es h hopen hquit hpre hnotices =>
      exact hi.line hpre hnotices htrace hreach.registry haccounts hack hnoticed
  | quit fd session line h hopen hquit hcalm =>
      rw [htrace]
      exact hi.silent hpos (hcons hcalm (by simp)) (hsilent hcalm (by simp [Obs.messageTo]))
  | oversized fd session h hopen hcalm hleft =>
      rw [htrace]
      refine hi.silent hpos (hcons hcalm (by simp)) (hsilent hcalm fun message hmessage => ?_)
      simp only [Obs.messageTo] at hmessage
      split at hmessage
      · rw [List.mem_singleton.mp hmessage]
        rfl
      · cases hmessage

theorem run_backed (c : Setup) (turns : List Turn) (a : Account) :
    Backed a (run c turns).trace := by
  have hall := run_trace_invariant
    (T := fun trace => Acknowledged a.ownerFd trace ∧ Noticed a.ownerFd trace ∧
      Backed a trace) c ?_ ?_ turns
  · exact hall.2.2
  · refine ⟨?_, List.Sublist.refl _, ?_⟩
    · intro o quantity fills ho
      cases ho
    · intro p hp
      rw [List.prefix_nil.mp hp]
      exact Int.le_refl 0
  · rintro s s' new hreach hreach' htrace hnew ⟨hack, hnoticed, hbacked⟩
    have hnoticed' := hnew.noticed hreach hnoticed
    refine ⟨hnew.acknowledged hack, hnoticed', ?_⟩
    rw [← htrace] at hnoticed' ⊢
    exact hnew.backed hreach' htrace hack hnoticed' hbacked

/-! ## The theorem -/

/-- **No trader is told of a fill before, or beyond, what was acknowledged.**  For every
run, connection, instrument and price, and every prefix of the messages queued to the
connection: the BOUGHT quantities in it add up to at most the quantities of the
connection's BUY orders whose ORDER_ACCEPTED is in it, and the SOLD quantities to at most
those of its SELL orders. -/
theorem fills_within_acknowledged (c : Setup) (turns : List Turn) (fd : Int)
    (instrument : Bytes) (price : Int) (p : List Response)
    (hp : p <+: messagesTo fd (run c turns).trace) :
    told ⟨fd, .buy, instrument, price⟩ p ≤
        acknowledged ⟨fd, .buy, instrument, price⟩ p (run c turns).trace ∧
      told ⟨fd, .sell, instrument, price⟩ p ≤
        acknowledged ⟨fd, .sell, instrument, price⟩ p (run c turns).trace :=
  ⟨run_backed c turns ⟨fd, .buy, instrument, price⟩ p hp,
    run_backed c turns ⟨fd, .sell, instrument, price⟩ p hp⟩

/-- Client 5 offers eight units and then buys three of them from itself; client 6 takes
two. -/
private def selfTrade : List Turn :=
  [{ input := .event { fd := 3, readable := true }
     answers := { accepts := [.connection 5 [] true, .connection 6 [] true] } },
   { input := .event { fd := 5, readable := true }
     answers := { recvs := [.data ⟨ascii "LOGIN a\nSELL JNST 8 100\nBUY JNST 3 100\n",
       by decide, by decide⟩] } },
   { input := .event { fd := 6, readable := true }
     answers := { recvs :=
       [.data ⟨ascii "LOGIN b\nBUY JNST 2 100\n", by decide, by decide⟩] } }]

theorem fills_within_acknowledged_self_trade :
    messagesTo 5 (run {} selfTrade).trace =
        [.ok, .orderAccepted 1, .orderAccepted 2, .bought (ascii "JNST") 3 100,
          .sold (ascii "JNST") 3 100, .sold (ascii "JNST") 2 100] ∧
      told ⟨5, .sell, ascii "JNST", 100⟩ (messagesTo 5 (run {} selfTrade).trace) = 5 ∧
      told ⟨5, .sell, ascii "JNST", 100⟩ (messagesTo 5 (run {} selfTrade).trace) ≤
        acknowledged ⟨5, .sell, ascii "JNST", 100⟩ (messagesTo 5 (run {} selfTrade).trace)
          (run {} selfTrade).trace :=
  ⟨by decide +kernel, by decide +kernel,
    (fills_within_acknowledged {} selfTrade 5 (ascii "JNST") 100 _ List.prefix_rfl).2⟩

end SocketExchange.Server
