import SocketExchange.Lib.Log
import SocketExchange.Server.Handlers

/-!
# No output byte is lost, repeated or reordered

What the kernel has accepted from a session, followed by what is still pending
in its buffer, is what was queued to it.  The buffer itself has a moving offset
that two reclaim branches reset; those are dealt with once, at the level of the
session (`flush_exact`), and here the invariant only follows the trace.

A session that ends in an orderly way has nothing pending at that moment, which
the guard of the drop step carries; so for such a session the two are equal.
-/

namespace SocketExchange.Server

open SocketExchange.Lib
open SocketExchange.Lib.Bytes
open SocketExchange.Network
open SocketExchange.Protocol
open SocketExchange.Trading.OrderBook
open ExchangeServer

/-! ## Reading the trace -/

/-- What happened since `fd` was last accepted. -/
def sinceAccept (fd : Int) (trace : List Obs) : List Obs :=
  Log.since (fun o => decide (o = .accepted fd)) trace

def Obs.queuedBytes (fd : Int) : Obs → Bytes
  | .queued dest message => if dest = fd then message.render else []
  | _ => []

def Obs.sentBytes (fd : Int) : Obs → Bytes
  | .sent dest bytes => if dest = fd then bytes else []
  | _ => []

/-- The messages queued to the present connection of `fd`, one after the other. -/
def queuedTo (fd : Int) (trace : List Obs) : Bytes :=
  (sinceAccept fd trace).flatMap (Obs.queuedBytes fd)

/-- The bytes the kernel accepted from the present connection of `fd`. -/
def sentTo (fd : Int) (trace : List Obs) : Bytes :=
  (sinceAccept fd trace).flatMap (Obs.sentBytes fd)

def Obs.messageTo (fd : Int) : Obs → List Response
  | .queued dest message => if dest = fd then [message] else []
  | _ => []

/-- The messages queued to the present connection of `fd`. -/
def messagesTo (fd : Int) (trace : List Obs) : List Response :=
  (sinceAccept fd trace).flatMap (Obs.messageTo fd)

section Concat

variable {fd : Int} {o : Obs} (ho : o ≠ .accepted fd) (trace : List Obs)

include ho

theorem queuedTo_concat :
    queuedTo fd (trace ++ [o]) = queuedTo fd trace ++ o.queuedBytes fd := by
  simp [queuedTo, sinceAccept, Log.since_concat, ho]

theorem sentTo_concat :
    sentTo fd (trace ++ [o]) = sentTo fd trace ++ o.sentBytes fd := by
  simp [sentTo, sinceAccept, Log.since_concat, ho]

end Concat

/-- Observations that are not about output. -/
def Obs.quiet : Obs → Bool
  | .accepted _ => false
  | .queued _ _ => false
  | .sent _ _ => false
  | .dropped _ _ => false
  | _ => true

theorem output_quiet {new : List Obs} (hnew : ∀ o ∈ new, o.quiet = true) (fd : Int)
    (trace : List Obs) :
    queuedTo fd (trace ++ new) = queuedTo fd trace ∧
      sentTo fd (trace ++ new) = sentTo fd trace := by
  have hold : ∀ o ∈ new, decide (o = .accepted fd) = false := by
    intro o ho
    simp only [decide_eq_false_iff_not]
    rintro rfl
    exact absurd (hnew _ ho) (by simp [Obs.quiet])
  have hempty : ∀ o ∈ new, o.queuedBytes fd = [] ∧ o.sentBytes fd = [] := by
    intro o ho
    have hquiet := hnew o ho
    cases o <;> first | exact ⟨rfl, rfl⟩ | cases hquiet
  exact ⟨Log.flatMap_since_append hold fun o ho => (hempty o ho).1,
    Log.flatMap_since_append hold fun o ho => (hempty o ho).2⟩

/-! ## The invariant -/

/-- An orderly drop comes when everything queued has been sent. -/
def Obs.Flushed (before : List Obs) : Obs → Prop
  | .dropped fd reason => reason.orderly = true → sentTo fd before = queuedTo fd before
  | _ => True

/-- Sent and pending make up queued, and an orderly drop leaves nothing
pending. -/
structure OutputInv (s : ExchangeServer) : Prop where
  exact : ∀ fd session, s.sessions.lookup fd = some session →
    sentTo fd s.trace ++ session.pending = queuedTo fd s.trace ∧
      session.outStart ≤ session.outbuf.length
  past : Log.Each Obs.Flushed s.trace

theorem outputInv_start (c : Setup) :
    OutputInv (ExchangeServer.start c.backend c.listenerFd c.openFds c.clock) := by
  refine ⟨?_, Log.each_nil⟩
  intro fd session h
  simp [ExchangeServer.start] at h

/-- Steps that neither queue nor write nor drop nor accept. -/
private theorem OutputInv.quiet {s s' : ExchangeServer} (hi : OutputInv s)
    {new : List Obs} (htrace : s'.trace = s.trace ++ new)
    (hnew : ∀ o ∈ new, o.quiet = true)
    (hsessions : ∀ fd b, s'.sessions.lookup fd = some b → ∃ a,
      s.sessions.lookup fd = some a ∧ b.outbuf = a.outbuf ∧ b.outStart = a.outStart) :
    OutputInv s' := by
  refine ⟨?_, ?_⟩
  · intro fd b hb
    obtain ⟨a, ha, hbuf, hstart⟩ := hsessions fd b hb
    obtain ⟨hq, hs⟩ := output_quiet hnew fd s.trace
    rw [htrace, hq, hs, ClientSession.pending, hbuf, hstart]
    exact hi.exact fd a ha
  · rw [htrace]
    refine hi.past.append fun o ho before => ?_
    have hquiet := hnew o ho
    cases o <;> trivial

private theorem OutputInv.putQuiet {s s' : ExchangeServer} (hi : OutputInv s) {fd : Int}
    {session session' : ClientSession} (h : s.sessions.lookup fd = some session)
    (hs : s'.sessions = s.sessions.insert fd session') (o : Obs)
    (htrace : s'.trace = s.trace ++ [o]) (ho : o.quiet = true)
    (hbuf : session'.outbuf = session.outbuf) (hstart : session'.outStart = session.outStart) :
    OutputInv s' := by
  refine hi.quiet htrace (by simpa using ho) ?_
  rw [hs]
  exact forall_lookup_insert ⟨session, h, hbuf, hstart⟩ fun _ b hb => ⟨b, hb, rfl, rfl⟩

private theorem OutputInv.same {s s' : ExchangeServer} (hi : OutputInv s)
    (hs : s'.sessions = s.sessions) (new : List Obs) (htrace : s'.trace = s.trace ++ new)
    (hnew : ∀ o ∈ new, o.quiet = true) : OutputInv s' := by
  refine hi.quiet htrace hnew ?_
  intro fd b hb
  rw [hs] at hb
  exact ⟨b, hb, rfl, rfl⟩

/-! ## The steps that matter -/

private theorem OutputInv.queue {s : ExchangeServer} (hi : OutputInv s) {dest : Int}
    {session : ClientSession} (h : s.sessions.lookup dest = some session)
    (message : Response) :
    OutputInv ((s.putSession dest (session.append message.render)).observe
      (.queued dest message)) := by
  refine ⟨?_, hi.past.concat trivial⟩
  intro fd x hx
  simp only [observe, putSession, lookup_insert] at hx ⊢
  rw [queuedTo_concat (by simp), sentTo_concat (by simp)]
  split at hx
  · next heq =>
    cases hx
    subst heq
    obtain ⟨hexact, hstart⟩ := hi.exact fd session h
    have hpending : (session.append message.render).pending =
        session.pending ++ message.render :=
      List.drop_append_of_le_length hstart
    refine ⟨?_, ?_⟩
    · simp only [Obs.sentBytes, Obs.queuedBytes, if_pos, List.append_nil]
      rw [hpending, ← List.append_assoc, hexact]
    · simp only [ClientSession.append, List.length_append]
      omega
  · next hne =>
    simp only [Obs.sentBytes, Obs.queuedBytes, if_neg (Ne.symm hne), List.append_nil]
    exact hi.exact fd x hx

private theorem OutputInv.write {s : ExchangeServer} (hb : Base s) (hi : OutputInv s)
    {dest : Int} {session : ClientSession} (h : s.sessions.lookup dest = some session) :
    OutputInv (s.written dest session.fd (session.flush (s.kernel.sends session.fd))) := by
  refine ⟨?_, hi.past.concat trivial⟩
  have hown : session.fd = dest := hb.own dest session h
  intro fd x hx
  simp only [written, observe, putSession, lookup_insert] at hx ⊢
  rw [queuedTo_concat (by simp), sentTo_concat (by simp)]
  split at hx
  · next heq =>
    cases hx
    subst heq
    obtain ⟨hexact, hstart⟩ := hi.exact fd session h
    obtain ⟨hflush, hstart'⟩ := flush_exact session (s.kernel.sends session.fd) hstart
    refine ⟨?_, hstart'⟩
    simp only [Obs.sentBytes, Obs.queuedBytes, if_pos hown, List.append_nil]
    rw [List.append_assoc, hflush, hexact]
  · next hne =>
    have hne' : ¬ session.fd = fd := fun heq => hne (heq.symm.trans hown)
    simp only [Obs.sentBytes, Obs.queuedBytes, if_neg hne', List.append_nil]
    exact hi.exact fd x hx

private theorem OutputInv.drop {s : ExchangeServer} (hi : OutputInv s) (dest : Int)
    (reason : DropReason) (hflushed : reason.orderly = true → ∀ session,
      s.sessions.lookup dest = some session → session.pending = []) :
    OutputInv (s.drop dest reason) := by
  cases h : s.sessions.lookup dest with
  | none =>
      rw [drop_of_lookup_none h]
      exact hi
  | some session =>
      refine ⟨?_, ?_⟩
      · intro fd x hx
        rw [drop_trace h, queuedTo_concat (by simp), sentTo_concat (by simp)]
        simp only [Obs.sentBytes, Obs.queuedBytes, List.append_nil]
        exact hi.exact fd x (lookup_of_drop hx).2
      · rw [drop_trace h]
        refine hi.past.concat fun ho => ?_
        obtain ⟨hexact, _⟩ := hi.exact dest session h
        rw [hflushed ho session h, List.append_nil] at hexact
        exact hexact

private theorem OutputInv.accept {s : ExchangeServer} (hi : OutputInv s) (fd : Int)
    (peer : Bytes) :
    OutputInv (((s.openFd fd).putSession fd { fd := fd, peer := peer }).observe
      (.accepted fd)) := by
  refine ⟨?_, hi.past.concat trivial⟩
  intro fd' x hx
  simp only [observe, putSession, openFd, lookup_insert] at hx ⊢
  split at hx
  · next heq =>
    cases hx
    subst heq
    simp [queuedTo, sentTo, sinceAccept, Log.since_concat, ClientSession.pending]
  · next hne =>
    have hne' : Obs.accepted fd ≠ .accepted fd' := by
      intro heq
      cases heq
      exact hne rfl
    rw [queuedTo_concat hne', sentTo_concat hne']
    simp only [Obs.sentBytes, Obs.queuedBytes, List.append_nil]
    exact hi.exact fd' x hx

theorem assumeMarketData_output (session : ClientSession) :
    (assumeMarketData session).outbuf = session.outbuf ∧
      (assumeMarketData session).outStart = session.outStart := by
  unfold assumeMarketData
  split <;> exact ⟨rfl, rfl⟩

theorem Act.outputInv {fd : Int} {s s' : ExchangeServer} (hact : Act fd s s') (hb : Base s)
    (hi : OutputInv s) : OutputInv s' := by
  cases hact with
  | queue dest session message h howed => exact hi.queue h message
  | write dest session h => exact hi.write hb h
  | drop dest reason h => exact hi.drop dest reason h
  | relist loop => exact hi.same rfl [] (List.append_nil _).symm (by simp)
  | leave session reason h => exact hi.putQuiet h rfl _ rfl rfl rfl rfl
  | interest session wantRead wantWrite h =>
      refine hi.quiet (List.append_nil _).symm (by simp) ?_
      exact forall_lookup_insert ⟨session, h, rfl, rfl⟩ fun _ b hb' => ⟨b, hb', rfl, rfl⟩
  | login session username h hrole hout hfree => exact hi.putQuiet h rfl _ rfl rfl rfl rfl
  | subscribe session instrument h hrole =>
      exact hi.putQuiet h rfl _ rfl rfl (assumeMarketData_output session).1
        (assumeMarketData_output session).2
  | unsubscribe session instrument h hrole hin =>
      exact hi.putQuiet h rfl _ rfl rfl (assumeMarketData_output session).1
        (assumeMarketData_output session).2
  | submit session cmd h hrole hin hcmd => exact hi.same rfl _ rfl (by simp [Obs.quiet])
  | cancel session orderId h hin hok => exact hi.same rfl _ rfl (by simp [Obs.quiet])

theorem Env.outputInv {s s' : ExchangeServer} (henv : Env s s') (hi : OutputInv s) :
    OutputInv s' := by
  cases henv with
  | accept fd peer hfd h hnonneg => exact hi.accept fd peer
  | refuse fd peer h =>
      refine hi.quiet (refuse_trace s fd) (by simp [Obs.quiet]) ?_
      exact fun fd' b hb' => ⟨b, (lookup_of_erase hb').2, rfl, rfl⟩
  | bounce fd hfd => exact hi.same rfl _ (bounce_trace s fd) (by simp [Obs.quiet])
  | reap =>
      refine hi.same (reapClosed_tables s).1 _ (reapClosed_trace s) ?_
      intro o ho
      obtain ⟨fd, _, rfl⟩ := List.mem_map.mp ho
      rfl
  | timer resumeAt loop => exact hi.same rfl [] (List.append_nil _).symm (by simp)
  | load a => exact hi.same rfl [] (List.append_nil _).symm (by simp)

/-- **The step lemma.** -/
theorem Move.outputInv {s s' : ExchangeServer} (hmove : Move s s') (hb : Base s)
    (hi : OutputInv s) : OutputInv s' := by
  cases hmove with
  | serve hserve =>
      cases hserve with
      | act hact => exact hact.outputInv hb hi
      | receive session bytes h hopen => exact hi.putQuiet h rfl _ rfl rfl rfl rfl
      | take session line tail h hline => exact hi.putQuiet h rfl _ rfl rfl rfl rfl
      | handled line => exact hi.same rfl _ rfl (by simp [Obs.quiet])
  | env henv => exact henv.outputInv hi

/-- **The run lemma.** -/
theorem Moves.outputInv {s s' : ExchangeServer} (hmoves : Moves s s') (hb : Base s)
    (hi : OutputInv s) : OutputInv s' := by
  have hboth := hmoves.invariant (I := fun s => Base s ∧ OutputInv s)
    (fun _ _ hmove h => ⟨hmove.base h.1, hmove.outputInv h.1 h.2⟩) ⟨hb, hi⟩
  exact hboth.2

/-! ## The theorem -/

/-- The calls of the output path. -/
inductive OutputCall where
  | sendTo (fd : Int) (message : Response)
  | onWritable (fd : Int)
  /-- The sockets will answer differently from now on. -/
  | answer (a : Answers)

def OutputCall.apply (s : ExchangeServer) : OutputCall → ExchangeServer
  | .sendTo fd message => s.sendTo fd message
  | .onWritable fd => s.onWritable fd
  | .answer a => s.load a

/-- Any message may be handed to `send_to`, whether or not a handler would. -/
private theorem sendTo_outputInv {s : ExchangeServer} (hb : Base s) (hi : OutputInv s)
    (fd : Int) (message : Response) :
    Base (s.sendTo fd message) ∧ OutputInv (s.sendTo fd message) := by
  refine ⟨sendTo_base hb fd message, ?_⟩
  rcases sendTo_cases hb fd fd message with ⟨_, hsame⟩ | ⟨session, h, hbase, hflush⟩
  · rw [hsame]
    exact hi
  · exact hflush.serves.moves.outputInv hbase (hi.queue h message)

theorem outputCalls_inv (calls : List OutputCall) {s : ExchangeServer}
    (h : Base s ∧ OutputInv s) :
    Base (Loop.run OutputCall.apply s calls) ∧
      OutputInv (Loop.run OutputCall.apply s calls) := by
  refine Loop.run_invariant (I := fun s => Base s ∧ OutputInv s) (P := fun _ => True) ?_ h
    fun _ _ => trivial
  rintro s call - ⟨hb, hi⟩
  cases call with
  | sendTo fd message => exact sendTo_outputInv hb hi fd message
  | onWritable fd =>
      have hacts := onWritable_acts hb fd fd
      exact ⟨hacts.base hb, hacts.serves.moves.outputInv hb hi⟩
  | answer a =>
      have hload := Env.load s a
      exact ⟨hload.base hb, hload.outputInv hi⟩

end SocketExchange.Server
