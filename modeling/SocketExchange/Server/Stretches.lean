import SocketExchange.Server.Epochs
import SocketExchange.Server.Stages

/-!
# What a stage writes to the trace

Clients see the server through the messages queued to them, and in which order.
A stage contributes one stretch of the trace, and there are five kinds of them
(`Stretch`).  The one that matters is the stretch of a line: it opens when the line
is taken up, goes on with the record of what the line did, then the reply to its
sender, and then nothing but notices of the executions the line made.

Statements about the messages of a client are proved by induction over stretches,
and do not look at the handlers again.
-/

namespace SocketExchange.Server

open SocketExchange.Lib
open SocketExchange.Lib.Bytes
open SocketExchange.Network
open SocketExchange.Protocol
open SocketExchange.Trading.OrderBook
open ExchangeServer

/-! ## Kinds of messages and observations -/

/-- Observations of sockets and buffers: no message, no line, no change of a table. -/
def Obs.calm : Obs → Bool
  | .refused _ => true
  | .bounced _ => true
  | .dropped _ _ => true
  | .closed _ => true
  | .received _ _ => true
  | .handled _ _ _ => true
  | .leaving _ _ => true
  | .sent _ _ => true
  | _ => false

theorem messageTo_of_calm {o : Obs} (h : o.calm = true) (fd : Int) : o.messageTo fd = [] := by
  cases o <;> first | rfl | cases h

theorem ne_accepted_of_calm {o : Obs} (h : o.calm = true) (fd : Int) : o ≠ .accepted fd := by
  rintro rfl
  cases h

theorem flatMap_messageTo_of_calm {new : List Obs} (h : ∀ o ∈ new, o.calm = true) (fd : Int) :
    new.flatMap (Obs.messageTo fd) = [] :=
  List.flatMap_eq_nil_iff.mpr fun o ho => messageTo_of_calm (h o ho) fd

/-- A notice of an execution is queued. -/
def Obs.notice : Obs → Bool
  | .queued _ message => !message.direct
  | _ => false

theorem flatMap_messageTo (fd : Int) (new : List Obs) :
    new.flatMap (Obs.messageTo fd) = Channels.messagesFor fd (new.filterMap Obs.queuedPair) := by
  induction new with
  | nil => rfl
  | cons o new ih =>
      rw [List.flatMap_cons, ih]
      cases o with
      | queued dest message =>
          have hpair : (Obs.queued dest message :: new).filterMap Obs.queuedPair =
              (dest, message) :: new.filterMap Obs.queuedPair := rfl
          rw [hpair, Channels.messagesFor_cons]
          by_cases hdest : dest = fd
          · simp [Obs.messageTo, hdest]
          · simp [Obs.messageTo, hdest, Ne.symm hdest]
      | _ => rfl

/-! ## The notices of a list of executions -/

section Notices

variable {o : ExchangeServer} (ho : Registry o) {es : List TradeExecution}
  {s : ExchangeServer}

include ho

/-- A client that is still subscribed was subscribed before. -/
private theorem noticesTo_sublist (hr : Ready o es s) (dest : Int) (e : TradeExecution) :
    (s.noticesTo dest e).Sublist (o.noticesTo dest e) := by
  refine List.Sublist.append (List.Sublist.refl _) ?_
  by_cases hsub : dest ∈ subscribersOf s.subscribers e.instrument
  · obtain ⟨session, hsession, _⟩ := (hr.registry.subscriber_iff dest e.instrument).mp hsub
    have hopen : (s.channels dest).isSome = true := by simp [channels, hsession]
    rw [if_pos hsub, if_pos ((hr.subscriber_iff ho hopen e.instrument).mp hsub)]
  · rw [if_neg hsub]
    exact List.nil_sublist _

/-- What one execution queues to one client is part of what it means for that client. -/
theorem publish_notices (hr : Ready o es s) {e : TradeExecution} (he : e ∈ es) (dest : Int) :
    (Channels.messagesFor dest (queuedSince s (s.publish e))).Sublist
      (o.noticesTo dest e) := by
  refine List.Sublist.trans ?_ (noticesTo_sublist ho hr dest e)
  have hmessages : Channels.messagesFor dest (partyNotices e ++ s.tradeNotices e) =
      s.noticesTo dest e := by
    have hnodup := (s.kernel.order.walk_perm (subscribersOf s.subscribers
      e.instrument)).nodup_iff.mpr (hr.registry.subscriber_nodup e.instrument)
    rw [Channels.messagesFor_append, tradeNotices, Channels.messagesFor_map _ _ hnodup]
    simp only [HashOrder.mem_walk, noticesTo, partyNotices, Channels.messagesFor_cons]
    congr 1
    split <;> split <;> rfl
  rw [← hmessages, publish_eq_sendEach hr he, (sendEach_spec hr _).2.2.2]
  exact (Channels.taken_sublist _ _).filterMap _

theorem publishAll_notices (hr : Ready o es s) (fd dest : Int) :
    (Channels.messagesFor dest (queuedSince s (publishAll fd es s))).Sublist
      (es.flatMap (o.noticesTo dest)) := by
  induction es generalizing s with
  | nil =>
      rw [publishAll, queuedSince_self]
      exact List.nil_sublist _
  | cons e es ih =>
      rw [publishAll_queued hr, Channels.messagesFor_append, List.flatMap_cons]
      refine List.Sublist.append (publish_notices ho hr List.mem_cons_self dest) ?_
      split
      · exact ih hr.tail
      · exact List.nil_sublist _

end Notices

/-! ## What the sends of a line leave -/

/-- What is written after the reply to a line: notices, what became of the sockets
they were written to, and nothing to a session that was dropped. -/
structure Telling (new : List Obs) (s : ExchangeServer) : Prop where
  only : ∀ o ∈ new, o.calm = true ∨ o.notice = true
  gone : ∀ fd reason, .dropped fd reason ∈ new → s.sessions.lookup fd = none
  live : Log.Each (fun before o => ∀ fd message, o = .queued fd message →
    ∀ reason, .dropped fd reason ∉ before) new

theorem parting_calm {fd : Int} {s : ExchangeServer} {gone : List Obs}
    (h : Parting fd s gone) : ∀ o ∈ gone, o.calm = true := by
  rcases h with rfl | ⟨reason, rfl, _⟩
  · simp
  · simp [Obs.calm]

/-- A calm record, and what became of the socket after it. -/
theorem cons_parting_calm {fd : Int} {s : ExchangeServer} {gone : List Obs} {first : Obs}
    (hfirst : first.calm = true) (h : Parting fd s gone) :
    ∀ o ∈ first :: gone, o.calm = true := by
  intro o ho
  rcases List.mem_cons.mp ho with rfl | ho
  · exact hfirst
  · exact parting_calm h o ho

/-- The socket a message has just been written to. -/
private theorem telling_after {fd : Int} {s : ExchangeServer} (bytes : Bytes)
    {gone : List Obs} (h : Parting fd s gone) : Telling (.sent fd bytes :: gone) s := by
  have hcalm : ∀ o ∈ Obs.sent fd bytes :: gone, o.calm = true := cons_parting_calm rfl h
  refine ⟨fun o ho => Or.inl (hcalm o ho), ?_, ?_⟩
  · intro fd' reason hdrop
    rcases h with rfl | ⟨reason', rfl, hnone⟩
    · simp at hdrop
    · obtain ⟨hfd, _⟩ : fd' = fd ∧ reason = reason' := by simpa using hdrop
      rw [hfd]
      exact hnone
  · intro before o after hsplit fd' message ho
    have hmem : o ∈ Obs.sent fd bytes :: gone := by simp [hsplit]
    have hcalm' := hcalm o hmem
    rw [ho] at hcalm'
    cases hcalm'

private theorem Telling.sendTo {trace new : List Obs} {s : ExchangeServer} (hb : Base s)
    (htrace : s.trace = trace ++ new) (h : Telling new s) (dest : Int) {message : Response}
    (hmessage : message.direct = false) :
    ∃ new', (s.sendTo dest message).trace = trace ++ new' ∧
      Telling new' (s.sendTo dest message) := by
  cases hdest : s.sessions.lookup dest with
  | none =>
      rw [sendTo_of_lookup_none hdest]
      exact ⟨new, htrace, h⟩
  | some session =>
      obtain ⟨bytes, gone, hsend, hparting⟩ := sendTo_trace hb hdest message
      have htell := telling_after bytes hparting
      refine ⟨new ++ .queued dest message :: .sent dest bytes :: gone, ?_, ?_, ?_, ?_⟩
      · rw [hsend, htrace, List.append_assoc]
      · intro o ho
        rcases List.mem_append.mp ho with ho | ho
        · exact h.only o ho
        · rcases List.mem_cons.mp ho with rfl | ho
          · exact Or.inr (by simp [Obs.notice, hmessage])
          · exact htell.only o ho
      · intro fd reason hdrop
        rcases List.mem_append.mp hdrop with hdrop | hdrop
        · cases hleft : (s.sendTo dest message).sessions.lookup fd with
          | none => rfl
          | some y =>
              obtain ⟨x, hx, _⟩ := sendTo_client hb dest message hleft
              rw [h.gone fd reason hdrop] at hx
              cases hx
        · exact htell.gone fd reason (by simpa using hdrop)
      · -- the session is there, so it has not been dropped
        have hqueue : Log.Each (fun before o => ∀ fd message, o = .queued fd message →
            ∀ reason, .dropped fd reason ∉ before) (new ++ [.queued dest message]) := by
          refine h.live.concat fun fd message' ho reason hdrop => ?_
          cases ho
          rw [h.gone dest reason hdrop] at hdest
          cases hdest
        have hrest : ∀ o ∈ Obs.sent dest bytes :: gone, ∀ before : List Obs, ∀ fd message,
            o = .queued fd message → ∀ reason, .dropped fd reason ∉ before := by
          intro o ho before fd message' heq
          have hcalm := cons_parting_calm rfl hparting o ho
          rw [heq] at hcalm
          cases hcalm
        simpa using hqueue.append hrest

/-- The notices of the executions `es`, as they are written after the reply. -/
structure Notices (s : ExchangeServer) (es : List TradeExecution) (new : List Obs) :
    Prop where
  only : ∀ o ∈ new, o.calm = true ∨ o.notice = true
  live : Log.Each (fun before o => ∀ fd message, o = .queued fd message →
    ∀ reason, .dropped fd reason ∉ before) new
  due : ∀ fd, (new.flatMap (Obs.messageTo fd)).Sublist (es.flatMap (s.noticesTo fd))

theorem Notices.concat {s : ExchangeServer} {es : List TradeExecution} {new : List Obs}
    (h : Notices s es new) {o : Obs} (ho : o.calm = true) : Notices s es (new ++ [o]) := by
  refine ⟨fun x hx => ?_, h.live.concat ?_, fun fd => ?_⟩
  · rcases List.mem_append.mp hx with hx | hx
    · exact h.only x hx
    · rw [List.mem_singleton.mp hx]
      exact Or.inl ho
  · rintro fd message rfl
    cases ho
  · have hlast : [o].flatMap (Obs.messageTo fd) = [] :=
      flatMap_messageTo_of_calm (by simpa using ho) fd
    rw [List.flatMap_append, hlast, List.append_nil]
    exact h.due fd

/-- **The reply comes first**, and then only notices. -/
theorem settle_telling {s : ExchangeServer} (hb : Base s) {fd : Int}
    (hfd : s.connected fd = true) (reply : Response) (es : List TradeExecution) :
    ∃ new, (settle s fd reply es).trace = s.trace ++ .queued fd reply :: new ∧
      Telling new (settle s fd reply es) := by
  obtain ⟨session, h⟩ := connected_iff.mp hfd
  obtain ⟨bytes, gone, hsend, hparting⟩ := sendTo_trace hb h reply
  have hstart : ∃ new, (s.sendTo fd reply).trace = (s.trace ++ [.queued fd reply]) ++ new ∧
      Telling new (s.sendTo fd reply) :=
    ⟨.sent fd bytes :: gone, by rw [hsend]; simp, telling_after bytes hparting⟩
  obtain ⟨new, htrace, htell⟩ := publishAll_invariant
    (I := fun t => ∃ new, t.trace = (s.trace ++ [.queued fd reply]) ++ new ∧ Telling new t)
    (M := fun _ message => message.direct = false)
    (fun t dest message hmessage hbt ⟨new, htrace, htell⟩ =>
      htell.sendTo hbt htrace dest hmessage)
    (sendTo_base hb fd reply) hstart fd (fun e (_ : e ∈ es) => ⟨rfl, rfl, fun _ => rfl⟩)
  exact ⟨new, by rw [settle, htrace, List.append_assoc]; rfl, htell⟩

/-- What is queued after the reply is what is queued by publishing. -/
private theorem messages_after_reply {s : ExchangeServer} (hb : Base s) {fd : Int}
    (hfd : s.connected fd = true) {reply : Response} {es : List TradeExecution}
    {new : List Obs}
    (hnew : (settle s fd reply es).trace = s.trace ++ .queued fd reply :: new)
    (hgrows : (s.sendTo fd reply).trace <+: (settle s fd reply es).trace) (dest : Int) :
    new.flatMap (Obs.messageTo dest) = Channels.messagesFor dest
      (queuedSince (s.sendTo fd reply) (settle s fd reply es)) := by
  obtain ⟨session, h⟩ := connected_iff.mp hfd
  obtain ⟨bytes, gone, hsend, hparting⟩ := sendTo_trace hb h reply
  obtain ⟨more, hmore⟩ := hgrows
  have hsplit : new = (.sent fd bytes :: gone) ++ more := by
    rw [hnew, hsend] at hmore
    simpa using hmore.symm
  have hsocket : (Obs.sent fd bytes :: gone).flatMap (Obs.messageTo dest) = [] :=
    flatMap_messageTo_of_calm (cons_parting_calm rfl hparting) dest
  rw [hsplit, List.flatMap_append, hsocket, List.nil_append, queuedSince_of_trace hmore.symm,
    flatMap_messageTo]

/-! ## The stretch of a line -/

/-- A login, a change of the subscriptions, or a cancelled order, of `fd`. -/
def Obs.note (fd : Int) : Obs → Bool
  | .loggedIn dest _ => dest = fd
  | .subscribed dest _ => dest = fd
  | .unsubscribed dest _ => dest = fd
  | .cancelled dest _ => dest = fd
  | _ => false

/-- What a line of `fd` leaves in the trace before it is answered, the answer, and the
executions that are published after it. -/
inductive Prelude (fd : Int) : List Obs → Response → List TradeExecution → Prop where
  | answer {reply : Response} (h : reply.direct = true) : Prelude fd [] reply []
  | note {o : Obs} {reply : Response} (ho : o.note fd = true) (h : reply.direct = true) :
      Prelude fd [o] reply []
  | submit (o : Incoming) (quantity : Int) (fills : List Fill) (howner : o.ownerFd = fd)
      (hpos : 0 < quantity) :
      Prelude fd [.submitted o quantity fills] (.orderAccepted o.orderId)
        (fills.map Fill.execution)

theorem Prelude.direct {fd : Int} {pre : List Obs} {reply : Response}
    {es : List TradeExecution} (h : Prelude fd pre reply es) : reply.direct = true := by
  cases h with
  | answer h => exact h
  | note ho h => exact h
  | submit o quantity fills howner hpos => rfl

section Line

variable {s s₁ : ExchangeServer} {fd : Int} {line : Bytes} {reply : Response}
  {es : List TradeExecution} (he : Effect fd line s s₁ reply es)

include he

theorem Effect.prelude : ∃ pre, s₁.trace = s.trace ++ pre ∧ Prelude fd pre reply es := by
  cases he with
  | refuse session reason h hplain => exact ⟨[], (List.append_nil _).symm, .answer rfl⟩
  | login session username h hrole hout hfree hplain =>
      exact ⟨_, rfl, .note (by simp [Obs.note]) rfl⟩
  | subscribe session instrument h hrole => exact ⟨_, rfl, .note (by simp [Obs.note]) rfl⟩
  | unsubscribe session instrument h hrole hin => exact ⟨_, rfl, .note (by simp [Obs.note]) rfl⟩
  | cancel session orderId h hin hok => exact ⟨_, rfl, .note (by simp [Obs.note]) rfl⟩
  | order session h hrole hin hcmd => exact ⟨_, rfl, .submit _ _ _ rfl hcmd⟩

/-- The notices of a line are those of its executions. -/
theorem Effect.settle_notices (hb : Base s) (hr : Registry s) :
    ∃ notices, (settle s₁ fd reply es).trace = s₁.trace ++ .queued fd reply :: notices ∧
      Notices s es notices := by
  have hb₁ := he.acts.base hb
  obtain ⟨new, htrace, htell⟩ := settle_telling hb₁ he.connected.2 reply es
  refine ⟨new, htrace, htell.only, htell.live, fun dest => ?_⟩
  have hgrows : es = [] ∨ Ready s es (s₁.sendTo fd reply) := by
    cases he with
    | order session h hrole hin hcmd =>
        exact Or.inr (accepted_ready hb hr h hin (parse line) hcmd)
    | refuse | login | subscribe | unsubscribe | cancel => exact Or.inl rfl
  rcases hgrows with rfl | hready
  · rw [messages_after_reply hb₁ he.connected.2 htrace List.prefix_rfl dest]
    have hnone : queuedSince (s₁.sendTo fd reply) (settle s₁ fd reply []) = [] :=
      queuedSince_self _
    rw [hnone]
    exact List.nil_sublist _
  · rw [messages_after_reply hb₁ he.connected.2 htrace (publishAll_grows hready) dest]
    exact publishAll_notices hr hready fd dest

end Line

/-! ## Stretches -/

/-- **What a stage adds to the trace.**  `s` is the state before the stage. -/
inductive Stretch (s : ExchangeServer) : List Obs → Prop where
  | calm {new : List Obs} (h : ∀ o ∈ new, o.calm = true) : Stretch s new
  | accept (fd : Int) {new : List Obs} (hnone : s.sessions.lookup fd = none)
      (h : ∀ o ∈ new, o.calm = true) : Stretch s (.accepted fd :: new)
  | line (fd : Int) (session : ClientSession) (line : Bytes) {pre notices : List Obs}
      {reply : Response} {es : List TradeExecution}
      (h : s.sessions.lookup fd = some session) (hopen : session.closing = false)
      (hquit : ¬ Quits line) (hpre : Prelude fd pre reply es)
      (hnotices : Notices s es notices) :
      Stretch s (.handling fd line :: pre ++ .queued fd reply :: notices)
  | quit (fd : Int) (session : ClientSession) (line : Bytes) {new : List Obs}
      (h : s.sessions.lookup fd = some session) (hopen : session.closing = false)
      (hquit : Quits line) (hnew : ∀ o ∈ new, o.calm = true) :
      Stretch s (.handling fd line :: new)
  | oversized (fd : Int) (session : ClientSession) {new : List Obs}
      (h : s.sessions.lookup fd = some session) (hopen : session.closing = false)
      (hnew : ∀ o ∈ new, o.calm = true)
      (hleft : ∃ reason, .leaving fd reason ∈ new ∨ .dropped fd reason ∈ new) :
      Stretch s (.queued fd oversizedMessage :: new)

section LineStretch

variable {s : ExchangeServer} {fd : Int} (line : Bytes) {pre notices : List Obs}
  {reply : Response} {es : List TradeExecution} (hpre : Prelude fd pre reply es)
  (hnotices : Notices s es notices)

include hpre

/-- The record of what a line did is no message. -/
theorem Prelude.messages (dest : Int) : pre.flatMap (Obs.messageTo dest) = [] := by
  cases hpre with
  | answer h => rfl
  | @note o reply ho h =>
      cases o <;> first | rfl | cases ho
  | submit o quantity fills howner hpos => rfl

include hnotices

/-- Nobody is accepted while a line is handled. -/
theorem Prelude.stretch_ne (dest : Int) :
    ∀ o ∈ .handling fd line :: pre ++ .queued fd reply :: notices, o ≠ .accepted dest := by
  intro o ho
  rw [List.cons_append, List.mem_cons, List.mem_append, List.mem_cons] at ho
  rcases ho with rfl | ho | rfl | ho
  · simp
  · cases hpre with
    | answer h => cases ho
    | note hnote h =>
        rintro rfl
        rw [← List.mem_singleton.mp ho] at hnote
        cases hnote
    | submit o' quantity fills howner hpos =>
        rw [List.mem_singleton.mp ho]
        simp
  · simp
  · rcases hnotices.only o ho with hcalm | hnotice
    · exact ne_accepted_of_calm hcalm dest
    · rintro rfl
      cases hnotice

omit hnotices in
/-- The messages of a line: the reply, and the notices. -/
theorem Prelude.stretch_messages (dest : Int) :
    (.handling fd line :: pre ++ .queued fd reply :: notices).flatMap (Obs.messageTo dest) =
      Obs.messageTo dest (.queued fd reply) ++ notices.flatMap (Obs.messageTo dest) := by
  have hline : Obs.messageTo dest (.handling fd line) = [] := rfl
  rw [List.flatMap_append, List.flatMap_cons, List.flatMap_cons, hline, hpre.messages]
  rfl

end LineStretch

/-- A close, or nothing if the session is gone. -/
theorem beginOrderlyClose_calm (s : ExchangeServer) (fd : Int) (reason : DropReason) :
    ∃ new, (s.beginOrderlyClose fd reason).trace = s.trace ++ new ∧
      (∀ o ∈ new, o.calm = true) ∧
      ((s.sessions.lookup fd).isSome = true → .leaving fd reason ∈ new) := by
  cases h : s.sessions.lookup fd with
  | none => exact ⟨[], by simp [beginOrderlyClose, h], by simp, by simp⟩
  | some session =>
      obtain ⟨gone, htrace, hparting⟩ := beginOrderlyClose_trace h reason
      exact ⟨_, htrace, cons_parting_calm rfl hparting, by simp⟩

theorem onWritable_calm {s : ExchangeServer} (hb : Base s) (fd : Int) :
    ∃ new, (s.onWritable fd).trace = s.trace ++ new ∧ ∀ o ∈ new, o.calm = true := by
  unfold onWritable
  split
  · exact ⟨[], (List.append_nil _).symm, by simp⟩
  · next session h =>
    obtain ⟨bytes, gone, htrace, hparting⟩ := flush_trace (s := s) (hb.own fd session h)
    exact ⟨_, htrace, cons_parting_calm rfl hparting⟩

theorem drop_calm (s : ExchangeServer) (fd : Int) (reason : DropReason) :
    ∃ new, (s.drop fd reason).trace = s.trace ++ new ∧ ∀ o ∈ new, o.calm = true := by
  cases h : s.sessions.lookup fd with
  | none => exact ⟨[], by rw [drop_of_lookup_none h, List.append_nil], by simp⟩
  | some session => exact ⟨_, drop_trace h reason, by simp [Obs.calm]⟩

theorem register_calm (s : ExchangeServer) (fd : Int) :
    ∃ new, (s.register fd).trace = s.trace ++ new ∧ ∀ o ∈ new, o.calm = true := by
  unfold register
  dsimp only
  split
  · exact ⟨[], (List.append_nil _).symm, by simp⟩
  · exact ⟨_, refuse_trace _ fd, by simp [Obs.calm]⟩

/-- A session that is gone after a flush was dropped by it. -/
private theorem flush_keeps {s : ExchangeServer} {key : Int} {session : ClientSession}
    (hkey : session.fd = key) (bytes : Bytes)
    (htrace : (s.flush key session).trace = s.trace ++ [.sent key bytes]) :
    (s.flush key session).sessions.lookup key ≠ none := by
  subst hkey
  have hlookup : (s.written session.fd session.fd
      (session.flush (s.kernel.sends session.fd))).sessions.lookup session.fd =
        some (session.flush (s.kernel.sends session.fd)).session := by
    simp [written, observe, putSession]
  unfold ExchangeServer.flush at htrace ⊢
  dsimp only at htrace ⊢
  split at htrace
  · rw [drop_trace hlookup] at htrace
    simp [written, observe, putSession] at htrace
  · rw [hlookup]
    simp
  · rw [hlookup]
    simp

/-- The ERROR, and then the close. -/
private theorem oversized_stretch {s : ExchangeServer} (hb : Base s) {fd : Int}
    {session : ClientSession} (h : s.sessions.lookup fd = some session)
    (hopen : session.closing = false) : ∃ new,
      ((s.sendTo fd oversizedMessage).beginOrderlyClose fd .oversized).trace =
        s.trace ++ new ∧ Stretch s new := by
  obtain ⟨bytes, gone, hsend, hparting⟩ := sendTo_trace hb h oversizedMessage
  obtain ⟨new, hclose, hcalm, hleaving⟩ :=
    beginOrderlyClose_calm (s.sendTo fd oversizedMessage) fd .oversized
  refine ⟨.queued fd oversizedMessage :: ((.sent fd bytes :: gone) ++ new), ?_,
    .oversized fd session h hopen ?_ ?_⟩
  · rw [hclose, hsend]
    simp
  · intro o ho
    rcases List.mem_append.mp ho with ho | ho
    · exact cons_parting_calm rfl hparting o ho
    · exact hcalm o ho
  · cases hleft : (s.sendTo fd oversizedMessage).sessions.lookup fd with
    | some y => exact ⟨.oversized, Or.inl (by simp [hleaving (by rw [hleft]; rfl)])⟩
    | none =>
        rcases hparting with rfl | ⟨reason, rfl, _⟩
        · have hown : (session.append oversizedMessage.render).fd = fd := hb.own fd session h
          simp only [sendTo, h] at hsend hleft
          refine absurd hleft (flush_keeps hown bytes ?_)
          rw [hsend]
          simp [observe, putSession]
        · exact ⟨reason, Or.inr (by simp)⟩

/-- The trace of a line that is handled. -/
theorem line_trace {s s₁ : ExchangeServer} (hb : Base s) (hr : Registry s) {fd : Int}
    {session : ClientSession} {line tail : Bytes} {reply : Response} {es : List TradeExecution}
    (h : s.sessions.lookup fd = some session)
    (hline : splitLine session.inbuf = some (line, tail))
    (he : Effect fd (stripCarriageReturn line)
      (s.taken fd session (stripCarriageReturn line) tail) s₁ reply es) :
    ∃ pre notices, ((settle s₁ fd reply es).finish fd (stripCarriageReturn line)).trace =
        s.trace ++ (.handling fd (stripCarriageReturn line) :: pre ++
          .queued fd reply :: notices) ∧
      Prelude fd pre reply es ∧ Notices s es notices := by
  have htake := Serve.take s session line tail h hline
  obtain ⟨pre, hpre, hprelude⟩ := he.prelude
  obtain ⟨notices, hsettle, hnotices⟩ := he.settle_notices (htake.base hb)
    ((Move.serve _ htake).registry hr)
  -- the tables of the state the line is handled in are those of `s`
  have hnotices' : Notices s es notices := ⟨hnotices.only, hnotices.live, hnotices.due⟩
  have hdone := hnotices'.concat (o := .handled fd (stripCarriageReturn line)
    ((settle s₁ fd reply es).lineOutcome fd)) rfl
  refine ⟨pre, _, ?_, hprelude, hdone⟩
  rw [finish, observe, hsettle, hpre, taken]
  simp [observe, putSession]

/-- **Every stage adds a stretch.** -/
theorem Stage.stretch {s s' : ExchangeServer} (hb : Base s) (hr : Registry s)
    (hstage : Stage s s') : ∃ new, s'.trace = s.trace ++ new ∧ Stretch s new := by
  cases hstage with
  | receive fd session bytes h hopen => exact ⟨_, rfl, .calm (by simp [Obs.calm])⟩
  | @line fd session line tail h hopen hline hquit s₁ reply es he =>
      obtain ⟨pre, notices, htrace, hpre, hnotices⟩ := line_trace hb hr h hline he
      exact ⟨_, htrace, .line fd session _ h hopen hquit hpre hnotices⟩
  | quit fd session line tail h hopen hline hquit =>
      obtain ⟨new, htrace, hcalm, _⟩ := beginOrderlyClose_calm
        (s.taken fd session (stripCarriageReturn line) tail) fd .quit
      have hdone : ∀ outcome, ∀ o ∈ new ++ [.handled fd (stripCarriageReturn line) outcome],
          o.calm = true := by
        intro outcome o ho
        rcases List.mem_append.mp ho with ho | ho
        · exact hcalm o ho
        · rw [List.mem_singleton.mp ho]
          rfl
      refine ⟨_, ?_, .quit fd session _ h hopen hquit (hdone (((s.taken fd session
        (stripCarriageReturn line) tail).beginOrderlyClose fd .quit).lineOutcome fd))⟩
      rw [finish, observe, htrace]
      simp [taken, observe, putSession]
  | oversized fd session h hopen => exact oversized_stretch hb h hopen
  | fin fd session h hopen =>
      obtain ⟨new, htrace, hcalm, _⟩ := beginOrderlyClose_calm s fd .fin
      exact ⟨new, htrace, .calm hcalm⟩
  | writable fd =>
      obtain ⟨new, htrace, hcalm⟩ := onWritable_calm hb fd
      exact ⟨new, htrace, .calm hcalm⟩
  | abort fd reason h =>
      obtain ⟨new, htrace, hcalm⟩ := drop_calm s fd reason
      exact ⟨new, htrace, .calm hcalm⟩
  | accept fd peer hfd h hnonneg =>
      obtain ⟨new, htrace, hcalm⟩ := register_calm (s.welcome fd peer) fd
      refine ⟨.accepted fd :: new, ?_, .accept fd h hcalm⟩
      rw [htrace]
      simp [welcome, observe, putSession, openFd]
  | bounce fd hfd => exact ⟨_, bounce_trace s fd, .calm (by simp [Obs.calm])⟩
  | pause =>
      refine ⟨[], ?_, .calm (by simp)⟩
      unfold pauseAccepting
      split <;> simp
  | resume =>
      refine ⟨[], ?_, .calm (by simp)⟩
      unfold resumeAcceptingIfDue
      split
      · simp
      · split <;> simp
  | reap =>
      refine ⟨_, (reapClosed_trace s), .calm fun o ho => ?_⟩
      obtain ⟨fd, _, rfl⟩ := List.mem_map.mp ho
      rfl

/-- **Invariant rule for traces.**  What holds of the empty trace and is kept by every
stretch holds of the trace of every run. -/
theorem run_trace_invariant {T : List Obs → Prop} (c : Setup) (hstart : T [])
    (hstretch : ∀ s s' new, Reachable c s → Reachable c s' → s'.trace = s.trace ++ new →
      Stretch s new → T s.trace → T (s.trace ++ new))
    (turns : List Turn) : T (run c turns).trace := by
  refine run_stage_invariant (I := fun s => T s.trace) (P := fun _ => True) c hstart
    (fun _ _ _ h => h) ?_ (fun _ _ => trivial)
  intro s s' hreach hstage hi
  obtain ⟨new, htrace, hnew⟩ := hstage.stretch hreach.base hreach.registry
  have hreach' : Reachable c s' := hreach.trans (hstage.moves hreach.base)
  rw [htrace]
  exact hstretch s s' new hreach hreach' htrace hnew hi

end SocketExchange.Server
