import SocketExchange.Server.Replay

/-!
# What is said, and to whom

The exchange answers a line at once and tells everybody concerned.  The server puts the
same messages into output buffers one by one, and any of these steps may lose a session.

`Conversation` takes a trace apart into the stretches of its lines and what happens
between them.  In the stretch of a line, what is queued to a client begins what the
exchange would say to it, and is all of it if neither the client nor the sender is lost in
that stretch.  Between lines nothing is said but that a line is too long.
-/

namespace SocketExchange.Server

open SocketExchange.Lib
open SocketExchange.Lib.Bytes
open SocketExchange.Network
open SocketExchange.Protocol
open SocketExchange.Trading.OrderBook
open ExchangeServer

/-! ## What each socket takes -/

/-- The messages for one client since `s` are what its socket takes of `messages`, and the
socket is left as they leave it. -/
def Takes (s s' : ExchangeServer) (dest : Int) (messages : List Response) : Prop :=
  Channels.messagesFor dest (queuedSince s s') =
      Channels.heard Socket.send (s.channels dest) messages ∧
    s'.channels dest = Channels.feed Socket.send (s.channels dest) messages

theorem Takes.refl (s : ExchangeServer) (dest : Int) : Takes s s dest [] := by
  refine ⟨?_, rfl⟩
  rw [queuedSince_self, Channels.heard_nil]
  rfl

theorem Takes.trans {s t u : ExchangeServer} {dest : Int} {ms ms' : List Response}
    (hst : s.trace <+: t.trace) (htu : t.trace <+: u.trace) (h : Takes s t dest ms)
    (h' : Takes t u dest ms') : Takes s u dest (ms ++ ms') := by
  refine ⟨?_, ?_⟩
  · rw [queuedSince_trans hst htu, Channels.messagesFor_append, h.1, h'.1, h.2,
      Channels.heard_append]
  · rw [h'.2, h.2, Channels.feed_append]

theorem sendTo_takes {s : ExchangeServer} (hb : Base s) (fd dest : Int) (message : Response) :
    Takes s (s.sendTo fd message) dest (if dest = fd then [message] else []) := by
  refine ⟨?_, ?_⟩
  · rw [(sendTo_queued hb fd message).2]
    by_cases hdest : dest = fd
    · subst hdest
      rw [if_pos rfl, connected_eq_channels]
      cases s.channels dest with
      | none => simp [Channels.messagesFor]
      | some x => simp [Channels.messagesFor, Channels.heard]
    · rw [if_neg hdest, Channels.heard_nil]
      split
      · simp [Channels.messagesFor, Ne.symm hdest]
      · rfl
  · rw [sendTo_channels hb, Channels.post_apply]
    by_cases hdest : dest = fd
    · subst hdest
      rw [if_pos rfl, if_pos rfl]
      rfl
    · rw [if_neg hdest, if_neg hdest]
      rfl

section Publish

variable {o : ExchangeServer} (ho : Registry o) {es : List TradeExecution} {s : ExchangeServer}

include ho

/-- An execution is offered to every socket it concerns. -/
theorem publish_takes (hr : Ready o es s) {e : TradeExecution} (he : e ∈ es) (dest : Int) :
    Takes s (s.publish e) dest (o.noticesTo dest e) := by
  refine ⟨?_, publish_channels ho hr he dest⟩
  have hmessages : Channels.messagesFor dest (partyNotices e ++ s.tradeNotices e) =
      s.noticesTo dest e := by
    have hnodup := (s.kernel.order.walk_perm (subscribersOf s.subscribers
      e.instrument)).nodup_iff.mpr (hr.registry.subscriber_nodup e.instrument)
    rw [Channels.messagesFor_append, tradeNotices, Channels.messagesFor_map _ _ hnodup]
    simp only [HashOrder.mem_walk, noticesTo, partyNotices, Channels.messagesFor_cons]
    congr 1
    split <;> split <;> rfl
  rw [publish_eq_sendEach hr he, (sendEach_spec hr _).2.2.2, Channels.messagesFor_taken, hmessages]
  cases hchannel : s.channels dest with
  | none => rw [Channels.heard_none, Channels.heard_none]
  | some x =>
      have hsub := hr.subscriber_iff ho (by rw [hchannel]; rfl : (s.channels dest).isSome = true)
        e.instrument
      simp only [noticesTo, hsub]

/-- The loop offers the executions one by one, up to the one after which the submitter is
gone. -/
theorem publishAll_takes (hr : Ready o es s) (fd : Int) : ∃ done, done <+: es ∧
    ((publishAll fd es s).connected fd = true → done = es) ∧
    ∀ dest, Takes s (publishAll fd es s) dest (done.flatMap (o.noticesTo dest)) := by
  induction es generalizing s with
  | nil => exact ⟨[], List.prefix_rfl, fun _ => rfl, Takes.refl s⟩
  | cons e es ih =>
      obtain ⟨_, hgrows⟩ := hr.publish List.mem_cons_self
      have htakes := publish_takes ho hr List.mem_cons_self
      have hstep : publishAll fd (e :: es) s =
          if !(s.publish e).connected fd then s.publish e else publishAll fd es (s.publish e) := rfl
      rw [hstep]
      cases hconnected : (s.publish e).connected fd with
      | false =>
          refine ⟨[e], ?_, ?_, fun dest => ?_⟩
          · exact (List.prefix_cons_inj e).mpr List.nil_prefix
          · intro hstill
            rw [Bool.not_false, if_pos rfl, hconnected] at hstill
            cases hstill
          · rw [List.flatMap_cons, List.flatMap_nil, List.append_nil]
            exact htakes dest
      | true =>
          obtain ⟨done, hprefix, hall, hdone⟩ := ih hr.tail
          refine ⟨e :: done, (List.prefix_cons_inj e).mpr hprefix, ?_, fun dest => ?_⟩
          · intro hstill
            exact congrArg (e :: ·) (hall hstill)
          · rw [List.flatMap_cons]
            exact (htakes dest).trans hgrows (publishAll_grows hr.tail) (hdone dest)

end Publish

/-- **The reply, and then the executions**, up to the one after which the sender is gone. -/
theorem Effect.takes {s s₁ : ExchangeServer} {fd : Int} {line : Bytes} {reply : Response}
    {es : List TradeExecution} (he : Effect fd line s s₁ reply es) (hb : Base s)
    (hr : Registry s) : ∃ done, done <+: es ∧
      ((settle s₁ fd reply es).connected fd = true → done = es) ∧
      ∀ dest, Takes s₁ (settle s₁ fd reply es) dest
        ((if dest = fd then [reply] else []) ++ done.flatMap (s.noticesTo dest)) := by
  have hb₁ := he.acts.base hb
  have hsend := sendTo_takes hb₁ fd
  have hgrows := (sendTo_queued hb₁ fd reply).1
  have hready : es = [] ∨ Ready s es (s₁.sendTo fd reply) := by
    cases he with
    | order session h hrole hin hcmd =>
        exact Or.inr (accepted_ready hb hr h hin (parse line) hcmd)
    | refuse | login | subscribe | unsubscribe | cancel => exact Or.inl rfl
  rcases hready with rfl | hready
  · refine ⟨[], List.prefix_rfl, fun _ => rfl, fun dest => ?_⟩
    rw [List.flatMap_nil, List.append_nil]
    exact hsend dest reply
  · obtain ⟨done, hprefix, hall, hdone⟩ := publishAll_takes hr hready fd
    refine ⟨done, hprefix, hall, fun dest => ?_⟩
    exact (hsend dest reply).trans hgrows (publishAll_grows hready) (hdone dest)

/-! ## Who is lost -/

/-- What may be observed while a line is handled. -/
def Obs.within : Obs → Bool
  | .loggedIn _ _ => true
  | .subscribed _ _ => true
  | .unsubscribed _ _ => true
  | .submitted _ _ _ => true
  | .cancelled _ _ => true
  | .queued _ _ => true
  | .sent _ _ => true
  | .dropped _ _ => true
  | .leaving _ _ => true
  | _ => false

/-- Whoever was connected and has not been dropped is still connected. -/
def Lasting (s t : ExchangeServer) : Prop := ∃ new, t.trace = s.trace ++ new ∧
  (∀ o ∈ new, o.within = true) ∧
  ∀ fd, s.connected fd = true → (∀ reason, .dropped fd reason ∉ new) → t.connected fd = true

theorem Lasting.refl (s : ExchangeServer) : Lasting s s :=
  ⟨[], (List.append_nil _).symm, by simp, fun _ hfd _ => hfd⟩

theorem Lasting.trans {s t u : ExchangeServer} (h : Lasting s t) (h' : Lasting t u) :
    Lasting s u := by
  obtain ⟨new, htrace, hwithin, hlast⟩ := h
  obtain ⟨new', htrace', hwithin', hlast'⟩ := h'
  refine ⟨new ++ new', by rw [htrace', htrace, List.append_assoc], ?_, fun fd hfd hnot => ?_⟩
  · intro o ho
    rcases List.mem_append.mp ho with ho | ho
    · exact hwithin o ho
    · exact hwithin' o ho
  · have hmid := hlast fd hfd fun reason hmem => hnot reason (by simp [hmem])
    exact hlast' fd hmid fun reason hmem => hnot reason (by simp [hmem])

theorem Prelude.within {fd : Int} {pre : List Obs} {reply : Response} {es : List TradeExecution}
    (h : Prelude fd pre reply es) : ∀ o ∈ pre, o.within = true := by
  cases h with
  | answer h => simp
  | @note o reply ho h =>
      intro o' ho'
      rw [List.mem_singleton.mp ho']
      cases o <;> first | rfl | cases ho
  | submit o quantity fills howner hpos => simp [Obs.within]

/-- One observation, and nobody is lost. -/
theorem lasting_of_observed {s t : ExchangeServer} {o : Obs} (htrace : t.trace = s.trace ++ [o])
    (ho : o.within = true) (h : ∀ fd, s.connected fd = true → t.connected fd = true) :
    Lasting s t :=
  ⟨[o], htrace, by simpa using ho, fun fd hfd _ => h fd hfd⟩

theorem connected_putSession (s : ExchangeServer) (fd : Int) (session : ClientSession) :
    ∀ fd', s.connected fd' = true → (s.putSession fd session).connected fd' = true := by
  intro fd' hfd'
  rw [connected, putSession, lookup_insert]
  split
  · rfl
  · exact hfd'

theorem drop_lasting (s : ExchangeServer) (fd : Int) (reason : DropReason) :
    Lasting s (s.drop fd reason) := by
  cases h : s.sessions.lookup fd with
  | none =>
      rw [drop_of_lookup_none h]
      exact Lasting.refl s
  | some session =>
      refine ⟨_, drop_trace h reason, by simp [Obs.within], fun fd' hfd' hnot => ?_⟩
      have hne : fd' ≠ fd := by
        rintro rfl
        exact hnot reason (by simp)
      rw [connected, drop_sessions, if_neg hne]
      exact hfd'

theorem sendTo_lasting (s : ExchangeServer) (dest : Int) (message : Response) :
    Lasting s (s.sendTo dest message) := by
  unfold ExchangeServer.sendTo
  split
  · exact Lasting.refl s
  · next session hlookup =>
    have hqueue : Lasting s ((s.putSession dest (session.append message.render)).observe
        (.queued dest message)) :=
      lasting_of_observed rfl rfl (connected_putSession s dest _)
    have hwrite : ∀ (t : ExchangeServer) (key fd : Int) (f : Flushed),
        Lasting t (t.written key fd f) :=
      fun t key fd f => lasting_of_observed rfl rfl (connected_putSession t key f.session)
    refine hqueue.trans ?_
    unfold ExchangeServer.flush
    dsimp only
    split
    · exact (hwrite _ _ _ _).trans (drop_lasting _ _ _)
    · exact hwrite _ _ _ _
    · exact hwrite _ _ _ _

theorem settle_lasting {s : ExchangeServer} (hb : Base s) (fd : Int) (reply : Response)
    (es : List TradeExecution) : Lasting s (settle s fd reply es) :=
  settle_invariant (I := Lasting s) (M := fun _ _ => True)
    (fun t dest message _ _ h => h.trans (sendTo_lasting t dest message)) hb (Lasting.refl s)
    trivial fun e _ => noticesAre_any e

/-! ## What the exchange says -/

/-- The server knows whom an execution concerns. -/
theorem Stands.notices {s : ExchangeServer} {x : Exchange} (h : Stands s x) (hr : Registry s)
    (dest : Int) (e : TradeExecution) : s.noticesTo dest e = x.notices dest e := by
  have hsub := h.subscriber hr dest e.instrument
  rw [noticesTo, Exchange.notices]
  congr 1
  cases hmember : x.members.lookup dest with
  | none =>
      rw [hmember] at hsub
      rw [if_neg fun hmem => by simpa using hsub.mp hmem]
  | some member =>
      rw [hmember] at hsub
      cases member with
      | guest | trader => rw [if_neg fun hmem => by simpa using hsub.mp hmem]
      | watcher instruments =>
          simp only [hsub, Option.some.injEq, Member.watcher.injEq, exists_eq_left',
            List.contains_iff_mem]

/-- Executions concern clients that are there. -/
theorem Effect.noticesTo_eq_nil {s s₁ : ExchangeServer} {fd : Int} {line : Bytes}
    {reply : Response} {es : List TradeExecution} (he : Effect fd line s s₁ reply es)
    (hr : Registry s) {dest : Int} (hgone : s.sessions.lookup dest = none) {e : TradeExecution}
    (hmem : e ∈ es) : s.noticesTo dest e = [] := by
  by_contra hsome
  have hparty : dest = e.buyerFd ∨ dest = e.sellerFd ∨
      dest ∈ subscribersOf s.subscribers e.instrument :=
    (noticesTo_ne_nil_iff s dest e).mp hsome
  cases he with
  | refuse | login | subscribe | unsubscribe | cancel => cases hmem
  | order session h hrole hin hcmd =>
      have hinvolved : (dest = e.buyerFd ∨ dest = e.sellerFd) ∨
          dest ∈ subscribersOf s.subscribers e.instrument := or_assoc.mpr hparty
      rcases hinvolved with hinvolved | hsub
      · rcases execution_parties hr hmem hinvolved with rfl | ⟨q, n, hn, rfl⟩
        · rw [hgone] at h
          cases h
        · obtain ⟨owner, howner, _⟩ := hr.owner q n hn
          rw [hgone] at howner
          cases howner
      · obtain ⟨subscriber, hsubscriber, _⟩ := (hr.subscriber_iff dest e.instrument).mp hsub
        rw [hgone] at hsubscriber
        cases hsubscriber

/-- An effect does not cost anybody the connection. -/
theorem Effect.lookup_none {s s₁ : ExchangeServer} {fd : Int} {line : Bytes} {reply : Response}
    {es : List TradeExecution} (he : Effect fd line s s₁ reply es) {dest : Int}
    (h : s₁.sessions.lookup dest = none) : s.sessions.lookup dest = none := by
  have hput : ∀ session : ClientSession,
      (s.sessions.insert fd session).lookup dest = none → s.sessions.lookup dest = none := by
    intro session hnone
    rw [lookup_insert] at hnone
    split at hnone
    · cases hnone
    · exact hnone
  cases he with
  | refuse | order | cancel => exact h
  | login | subscribe | unsubscribe => exact hput _ h

/-! ## The stretch of a line -/

/-- The messages for one client in a piece of the trace. -/
def saidTo (dest : Int) (new : List Obs) : List Response := new.flatMap (Obs.messageTo dest)

/-- The answers to commands in a piece of the trace, and who gets them. -/
def Obs.reply : Obs → List (Int × Response)
  | .queued dest message => if message.direct then [(dest, message)] else []
  | _ => []

/-- While the line was handled the server said what the exchange says: to the sender the
reply, in any case, and the rest to everybody for as long as both they and the sender were
there. -/
structure Spoken (x : Exchange) (fd : Int) (line : Bytes) (body : List Obs) : Prop where
  begun : ∀ dest, saidTo dest body <+: exchange.answer x (.speaks fd line) dest
  whole : ∀ dest, (∀ reason, .dropped fd reason ∉ body) → (∀ reason, .dropped dest reason ∉ body) →
    saidTo dest body = exchange.answer x (.speaks fd line) dest
  replied : body.flatMap Obs.reply = (x.verdict fd line).reply.toList.map fun reply => (fd, reply)

theorem reply_of_calm {o : Obs} (h : o.calm = true) : o.reply = [] := by
  cases o with
  | queued => cases h
  | _ => rfl

/-- Before the reply nothing is said, and after it there are notices only. -/
theorem replies_of_line {fd : Int} {pre notices : List Obs} {reply : Response}
    {es : List TradeExecution} {s : ExchangeServer} (hpre : Prelude fd pre reply es)
    (hnotices : Notices s es notices) :
    (pre ++ .queued fd reply :: notices).flatMap Obs.reply = [(fd, reply)] := by
  have hnone : pre.flatMap Obs.reply = [] := by
    cases hpre with
    | answer h => rfl
    | @note o reply ho h =>
        cases o with
        | queued => cases ho
        | _ => rfl
    | submit => rfl
  have hlater : notices.flatMap Obs.reply = [] := by
    refine List.flatMap_eq_nil_iff.mpr fun o ho => ?_
    rcases hnotices.only o ho with hcalm | hnotice
    · exact reply_of_calm hcalm
    · cases o with
      | queued dest message =>
          rw [Obs.notice, Bool.not_eq_true'] at hnotice
          rw [Obs.reply, hnotice]
          rfl
      | _ => rfl
  rw [List.flatMap_append, hnone, List.flatMap_cons, hlater, Obs.reply, hpre.direct]
  rfl

section Line

variable {s : ExchangeServer} {x : Exchange} (hx : Stands s x) (hr : Registry s)
  {fd : Int} {session : ClientSession} (h : s.sessions.lookup fd = some session)

include hx hr h

theorem Stands.answer (line : Bytes) (dest : Int) :
    exchange.answer x (.speaks fd line) dest =
      (if dest = fd then (x.hear fd (memberOf session) line).reply.toList else []) ++
        (x.hear fd (memberOf session) line).executions.flatMap (s.noticesTo dest) := by
  have hverdict : x.verdict fd line = x.hear fd (memberOf session) line := by
    rw [Exchange.verdict, hx.members, h]
    rfl
  have hnotices : s.noticesTo dest = x.notices dest := funext (hx.notices hr dest)
  rw [hnotices, ← hverdict]
  rfl

/-- **A line that is no QUIT**: the trace it leaves, and what is said in it. -/
theorem Stands.spoken (hb : Base s) {line : Bytes} (hquit : ¬ Quits line) :
    ∃ body, (s.handleMessage fd line).trace = s.trace ++ body ∧ (∀ o ∈ body, o.within = true) ∧
      Spoken x fd line body := by
  obtain ⟨s₁, reply, hreply, he, hhandle, _⟩ := hx.hear h hr hquit
  obtain ⟨pre, hpre, hprelude⟩ := he.prelude
  obtain ⟨notices, hsettle, hnotices⟩ := he.settle_notices hb hr
  obtain ⟨new, hnew, hwithin, hlast⟩ := settle_lasting (he.acts.base hb) fd reply
    (x.hear fd (memberOf session) line).executions
  have hparts : new = .queued fd reply :: notices := by
    rw [hsettle] at hnew
    exact (List.append_cancel_left hnew).symm
  obtain ⟨done, hdone, hall, htakes⟩ := he.takes hb hr
  have hanswer : ∀ dest, exchange.answer x (.speaks fd line) dest =
      (if dest = fd then [reply] else []) ++
        (x.hear fd (memberOf session) line).executions.flatMap (s.noticesTo dest) := by
    intro dest
    rw [hx.answer hr h line dest, hreply]
    rfl
  have hsaid : ∀ dest, saidTo dest (pre ++ new) =
      Channels.heard Socket.send (s₁.channels dest)
        ((if dest = fd then [reply] else []) ++ done.flatMap (s.noticesTo dest)) := by
    intro dest
    rw [saidTo, List.flatMap_append, hprelude.messages, List.nil_append, ← (htakes dest).1,
      queuedSince_of_trace hnew, flatMap_messageTo]
  refine ⟨pre ++ new, by rw [hhandle, hnew, hpre, List.append_assoc], ?_, ?_, ?_, ?_⟩
  · intro o ho
    rcases List.mem_append.mp ho with ho | ho
    · exact hprelude.within o ho
    · exact hwithin o ho
  · intro dest
    obtain ⟨rest, hrest⟩ := hdone
    rw [hsaid, hanswer, ← hrest, List.flatMap_append, ← List.append_assoc]
    exact (Channels.heard_prefix _ _).trans (List.prefix_append _ _)
  · intro dest hsender hdest
    -- the sender is there to the end, so every execution is published
    have hstill := hlast fd he.connected.2 fun reason hmem => hsender reason (by simp [hmem])
    rw [hsaid, hanswer, hall hstill]
    cases hlookup : s₁.sessions.lookup dest with
    | none =>
        have hne : dest ≠ fd := by
          rintro rfl
          have hconnected := he.connected.2
          rw [connected, hlookup] at hconnected
          cases hconnected
        have hnobody : (x.hear fd (memberOf session) line).executions.flatMap
            (s.noticesTo dest) = [] :=
          List.flatMap_eq_nil_iff.mpr fun e hmem =>
            he.noticesTo_eq_nil hr (he.lookup_none hlookup) hmem
        rw [if_neg hne, hnobody, List.nil_append, Channels.heard_nil]
    | some y =>
        have hopen := hlast dest (connected_iff.mpr ⟨y, hlookup⟩) fun reason hmem =>
          hdest reason (by simp [hmem])
        rw [connected_eq_channels, (htakes dest).2, hall hstill] at hopen
        exact Channels.heard_of_open hopen
  · have hverdict : x.verdict fd line = x.hear fd (memberOf session) line := by
      rw [Exchange.verdict, hx.members, h]
      rfl
    rw [hparts, replies_of_line hprelude hnotices, hverdict, hreply]
    rfl

end Line

/-! ## The whole conversation -/

/-- What may be observed between two lines, but for arrivals. -/
def Obs.between : Obs → Bool
  | .refused _ => true
  | .bounced _ => true
  | .dropped _ _ => true
  | .closed _ => true
  | .received _ _ => true
  | .leaving _ _ => true
  | .sent _ _ => true
  | .queued _ message => message = oversizedMessage
  | _ => false

/-- A trace in which every line is answered as at the exchange, in the state to which what
happened before has brought it. -/
inductive Conversation : List Obs → Prop where
  | start : Conversation []
  | arrival {trace : List Obs} (fd : Int) (h : Conversation trace)
      (hnone : (replay trace).members.lookup fd = none) :
      Conversation (trace ++ [.accepted fd])
  | aside {trace : List Obs} (o : Obs) (h : Conversation trace) (ho : o.between = true) :
      Conversation (trace ++ [o])
  | line {trace body : List Obs} (fd : Int) (line : Bytes) (outcome : LineOutcome)
      (h : Conversation trace) (hspeaker : (replay trace).members.lookup fd ≠ none)
      (hbody : ∀ o ∈ body, o.within = true) (hspoken : Spoken (replay trace) fd line body)
      (houtcome : outcome ≠ .dropped → ∀ reason, .dropped fd reason ∉ body) :
      Conversation (trace ++ .handling fd line :: (body ++ [.handled fd line outcome]))

theorem Parting.between {fd : Int} {s : ExchangeServer} {gone : List Obs} (h : Parting fd s gone) :
    ∀ o ∈ gone, o.between = true := by
  rcases h with rfl | ⟨reason, rfl, _⟩
  · simp
  · simp [Obs.between]

section Asides

variable {s : ExchangeServer} (hc : Conversation s.trace)

include hc

theorem Conversation.extend {s' : ExchangeServer} {new : List Obs}
    (htrace : s'.trace = s.trace ++ new) (hnew : ∀ o ∈ new, o.between = true) :
    Conversation s'.trace := by
  rw [htrace]
  clear htrace
  induction new using List.reverseRecOn with
  | nil => rwa [List.append_nil]
  | append_singleton new o ih =>
      rw [← List.append_assoc]
      exact Conversation.aside o (ih fun o' ho' => hnew o' (List.mem_append_left _ ho'))
        (hnew o (by simp))

theorem Conversation.drop (fd : Int) (reason : DropReason) :
    Conversation (s.drop fd reason).trace := by
  cases h : s.sessions.lookup fd with
  | none =>
      rw [drop_of_lookup_none h]
      exact hc
  | some session => exact hc.extend (drop_trace h reason) (by simp [Obs.between])

theorem Conversation.beginOrderlyClose (fd : Int) (reason : DropReason) :
    Conversation (s.beginOrderlyClose fd reason).trace := by
  cases h : s.sessions.lookup fd with
  | none => simpa only [ExchangeServer.beginOrderlyClose, h] using hc
  | some session =>
      obtain ⟨gone, htrace, hparting⟩ := beginOrderlyClose_trace h reason
      refine hc.extend htrace fun o ho => ?_
      rcases List.mem_cons.mp ho with rfl | ho
      · rfl
      · exact hparting.between o ho

theorem Conversation.sendOversized (hb : Base s) (fd : Int) :
    Conversation (s.sendTo fd oversizedMessage).trace := by
  cases h : s.sessions.lookup fd with
  | none =>
      rw [sendTo_of_lookup_none h]
      exact hc
  | some session =>
      obtain ⟨bytes, gone, htrace, hparting⟩ := sendTo_trace hb h oversizedMessage
      refine hc.extend htrace fun o ho => ?_
      rcases List.mem_cons.mp ho with rfl | ho
      · exact decide_eq_true (rfl : oversizedMessage = oversizedMessage)
      · rcases List.mem_cons.mp ho with rfl | ho
        · rfl
        · exact hparting.between o ho

theorem Conversation.onWritable (hb : Base s) (fd : Int) : Conversation (s.onWritable fd).trace := by
  unfold ExchangeServer.onWritable
  split
  · exact hc
  · next session h =>
    obtain ⟨bytes, gone, htrace, hparting⟩ := flush_trace (s := s) (hb.own fd session h)
    refine hc.extend htrace fun o ho => ?_
    rcases List.mem_cons.mp ho with rfl | ho
    · rfl
    · exact hparting.between o ho

theorem Conversation.register (fd : Int) : Conversation (s.register fd).trace := by
  unfold ExchangeServer.register
  dsimp only
  split
  · exact hc
  · exact hc.extend (refuse_trace _ fd) (by simp [Obs.between])

end Asides

/-- Nothing is said to somebody who says QUIT. -/
theorem answer_of_quits (x : Exchange) (fd : Int) {line : Bytes} (hquit : Quits line)
    (dest : Int) : exchange.answer x (.speaks fd line) dest = [] := by
  show x.sayings (.speaks fd line) dest = []
  rw [Exchange.sayings, Exchange.verdict]
  cases x.members.lookup fd with
  | none => simp
  | some member => simp [hear_quit hquit]

theorem quit_spoken (x : Exchange) (fd : Int) {line : Bytes} (hquit : Quits line)
    {body : List Obs} (hbody : ∀ o ∈ body, o.calm = true) : Spoken x fd line body := by
  have hsilent : ∀ dest, saidTo dest body = [] := flatMap_messageTo_of_calm hbody
  refine ⟨fun dest => ?_, fun dest _ _ => ?_, ?_⟩
  · rw [hsilent dest]
    exact List.nil_prefix
  · rw [hsilent dest, answer_of_quits x fd hquit]
  · have hnothing : (x.verdict fd line).reply = none := by
      rw [Exchange.verdict]
      cases x.members.lookup fd with
      | none => rfl
      | some member => simp [hear_quit hquit]
    rw [hnothing]
    exact List.flatMap_eq_nil_iff.mpr fun o ho => reply_of_calm (hbody o ho)

/-- Whoever is dropped while a line is handled is not there afterwards. -/
theorem lookup_none_of_dropped (trace : List Obs) {new : List Obs}
    (hnew : ∀ o ∈ new, o.within = true) {fd : Int} {reason : DropReason}
    (h : .dropped fd reason ∈ new) : (replay (trace ++ new)).members.lookup fd = none := by
  induction new using List.reverseRecOn with
  | nil => cases h
  | append_singleton new o ih =>
      have hbefore := ih fun o' ho' => hnew o' (List.mem_append_left _ ho')
      have ho : o.within = true := hnew o (by simp)
      rw [← List.append_assoc]
      cases hhappening : o.happening with
      | none =>
          rw [replay_append_silent (by simpa using hhappening)]
          rcases List.mem_append.mp h with h | h
          · exact hbefore h
          · rw [← List.mem_singleton.mp h] at hhappening
            cases hhappening
      | some happening =>
          -- of what is observed while a line is handled, only a drop is a happening
          obtain ⟨gone, reason', rfl⟩ : ∃ gone reason', o = .dropped gone reason' := by
            cases o with
            | dropped gone reason' => exact ⟨gone, reason', rfl⟩
            | accepted | refused | handling => cases ho
            | _ => cases hhappening
          rw [replay_concat _ hhappening, ← Option.some.inj hhappening]
          show ((replay (trace ++ new)).members.erase gone).lookup fd = none
          by_cases heq : fd = gone
          · rw [heq, AList.lookup_erase]
          · rw [AList.lookup_erase_ne heq]
            refine hbefore ((List.mem_append.mp h).resolve_right fun hlast => heq ?_)
            exact (Obs.dropped.inj (List.mem_singleton.mp hlast)).1

/-- **A line adds its stretch.** -/
theorem Conversation.handleLine {s : ExchangeServer} (hc : Conversation s.trace) (h : Replayed s)
    (hb : Base s) (hr : Registry s) {fd : Int} {session : ClientSession}
    (hsession : s.sessions.lookup fd = some session) {line tail : Bytes}
    (hline : splitLine session.inbuf = some (line, tail)) :
    Conversation (s.handleLine fd session (stripCarriageReturn line) tail).trace := by
  have htake := Serve.take s session line tail hsession hline
  set said := stripCarriageReturn line
  have hlookup := taken_lookup s fd session said tail
  have hstretch : ∃ body, ((s.taken fd session said tail).handleMessage fd said).trace =
      (s.taken fd session said tail).trace ++ body ∧ (∀ o ∈ body, o.within = true) ∧
        Spoken (replay s.trace) fd said body := by
    by_cases hquit : Quits said
    · rw [handleMessage_quit _ hquit]
      obtain ⟨gone, htrace, hparting⟩ := beginOrderlyClose_trace hlookup .quit
      have hcalm : ∀ o ∈ Obs.leaving fd .quit :: gone, o.calm = true := cons_parting_calm rfl hparting
      refine ⟨_, htrace, ?_, quit_spoken _ fd hquit hcalm⟩
      intro o ho
      rcases hparting with rfl | ⟨reason, rfl, _⟩
      · rw [List.mem_singleton.mp ho]
        rfl
      · rcases List.mem_cons.mp ho with rfl | ho
        · rfl
        · rw [List.mem_singleton.mp ho]
          rfl
    · exact (h.taken hsession said tail).spoken ((Move.serve _ htake).registry hr) hlookup
        (htake.base hb) hquit
  obtain ⟨body, htrace, hwithin, hspoken⟩ := hstretch
  have hall : (s.handleLine fd session said tail).trace = s.trace ++ .handling fd said ::
      (body ++ [.handled fd said (((s.taken fd session said tail).handleMessage fd
        said).lineOutcome fd)]) := by
    show ((s.taken fd session said tail).handleMessage fd said).trace ++ _ = _
    rw [htrace]
    simp [ExchangeServer.taken, ExchangeServer.observe, ExchangeServer.putSession]
  have hafter : Replayed (s.handleLine fd session said tail) := h.handleLine hb hr hsession hline
  have hspeaker : (replay s.trace).members.lookup fd ≠ none := by
    rw [h.members, hsession]
    exact Option.some_ne_none _
  rw [hall]
  refine Conversation.line fd said _ hc hspeaker hwithin hspoken fun hstays reason hmem =>
    hstays ?_
  have hgone := lookup_none_of_dropped (s.trace ++ [.handling fd said]) hwithin hmem
  have hmembers := hafter.members fd
  rw [hall, List.append_cons, ← List.append_assoc, replay_append_silent (by simp [Obs.happening]),
    hgone] at hmembers
  have hlost : ((s.taken fd session said tail).handleMessage fd said).sessions.lookup fd = none :=
    Option.map_eq_none_iff.mp hmembers.symm
  rw [lineOutcome, hlost]

theorem Beat.conversation {s s' : ExchangeServer} (hbeat : Beat s s') (hb : Base s)
    (hr : Registry s) (h : Replayed s) (hc : Conversation s.trace) : Conversation s'.trace := by
  cases hbeat with
  | receive fd session bytes hsession hopen => exact hc.extend rfl (by simp [Obs.between])
  | line fd session line tail hsession hopen hline => exact hc.handleLine h hb hr hsession hline
  | oversized fd session hsession hopen =>
      exact (hc.sendOversized hb fd).beginOrderlyClose fd .oversized
  | fin fd session hsession hopen => exact hc.beginOrderlyClose fd .fin
  | writable fd => exact hc.onWritable hb fd
  | abort fd reason hreason => exact hc.drop fd reason
  | accept fd peer hfd hnone hnonneg =>
      have hwelcome : Conversation (s.welcome fd peer).trace := by
        refine hc.arrival fd ?_
        rw [h.members, hnone]
        rfl
      exact hwelcome.register fd
  | bounce fd hfd => exact hc.extend (bounce_trace s fd) (by simp [Obs.between])
  | pause =>
      unfold pauseAccepting
      split <;> exact hc
  | resume =>
      unfold resumeAcceptingIfDue
      split
      · exact hc
      · split <;> exact hc
  | reap =>
      refine hc.extend (reapClosed_trace s) fun o ho => ?_
      obtain ⟨fd, _, rfl⟩ := List.mem_map.mp ho
      rfl

/-- **The server says what the exchange says.**  In every run the trace is a conversation:
each line is answered in the state of the exchange to which everything before it has led,
with its reply to the sender and its executions to the parties and the watchers, each
client hearing a beginning of what concerns it, and all of it unless that client or the
sender is lost while the line is handled.  Nothing is said otherwise but that a line is too
long. -/
theorem run_conversation (c : Setup) (turns : List Turn) :
    Conversation (run c turns).trace := by
  have hrun : Replayed (run c turns) ∧ Conversation (run c turns).trace := by
    refine run_beat_invariant (I := fun s => Replayed s ∧ Conversation s.trace) c ?_ ?_ ?_ turns
    · exact ⟨run_replayed c [], Conversation.start⟩
    · exact fun s a h => ⟨Stands.same h.1 rfl rfl, h.2⟩
    · exact fun s s' hreach hbeat h =>
        ⟨hbeat.replayed hreach.base hreach.registry h.1,
          hbeat.conversation hreach.base hreach.registry h.1 h.2⟩
  exact hrun.2

end SocketExchange.Server
