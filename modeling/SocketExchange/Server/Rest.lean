import SocketExchange.Server.Framing
import SocketExchange.Server.Stages

/-!
# Sessions at rest

A message is appended to a session and flushed in one go, so between two stages
every session is as a flush left it, or as it was made.  What a flush leaves does
not depend on what it found: the bounds and the flags are set anew each time.

The input buffer is at rest only between two events, when the loop over its lines
has come to an end.
-/

namespace SocketExchange.Server

open SocketExchange.Lib
open SocketExchange.Lib.Bytes
open SocketExchange.Network
open SocketExchange.Protocol
open SocketExchange.Trading.OrderBook
open ExchangeServer

/-! ## Output -/

/-- Every session is at rest. -/
def Rested (s : ExchangeServer) : Prop :=
  ∀ fd session, s.sessions.lookup fd = some session → session.AtRest

section Rested

variable {s : ExchangeServer} (hb : Base s) (hr : Rested s)

include hb hr

theorem sendTo_rested (dest : Int) (message : Response) : Rested (s.sendTo dest message) := by
  intro fd y hy
  unfold sendTo at hy
  split at hy
  · exact hr fd y hy
  · next session h =>
    have hown : (session.append message.render).fd = dest := hb.own dest session h
    rcases lookup_of_flush hown hy with ⟨hne, hold⟩ | ⟨_, rfl, hkeep⟩
    · simp only [observe, putSession, lookup_insert, if_neg hne] at hold
      exact hr fd y hold
    · refine flush_atRest ?_ hkeep
      have hle := (hr dest session h).start_le
      simp only [ClientSession.append, List.length_append]
      omega

theorem onWritable_rested (fd : Int) : Rested (s.onWritable fd) := by
  intro fd' y hy
  unfold onWritable at hy
  split at hy
  · exact hr fd' y hy
  · next session h =>
    rcases lookup_of_flush (hb.own fd session h) hy with ⟨hne, hold⟩ | ⟨_, rfl, hkeep⟩
    · exact hr fd' y hold
    · exact flush_atRest (hr fd session h).start_le hkeep

omit hb in
theorem beginOrderlyClose_rested (fd : Int) (reason : DropReason) :
    Rested (s.beginOrderlyClose fd reason) := by
  intro fd' y hy
  rcases lookup_of_beginOrderlyClose hy with ⟨_, hold⟩ | ⟨_, x, hx, hpos, rfl⟩
  · exact hr fd' y hold
  · have hrest := hr fd x hx
    exact ⟨hrest.start_le, hrest.start_le_chunk, hrest.pending_le, rfl,
      (decide_eq_true hpos).symm, hrest.backlog, fun _ => hpos⟩

omit hb in
theorem drop_rested (fd : Int) (reason : DropReason) : Rested (s.drop fd reason) :=
  fun fd' y hy => hr fd' y (lookup_of_drop hy).2

theorem settle_rested (fd : Int) (reply : Response) (es : List TradeExecution) :
    Rested (settle s fd reply es) :=
  settle_invariant (M := fun _ _ => True)
    (fun _ dest message _ hb hr => sendTo_rested hb hr dest message) hb hr trivial
    fun e _ => noticesAre_any e

end Rested

/-- What an effect writes to a session is no part of its output. -/
theorem Effect.rested {fd : Int} {line : Bytes} {s s₁ : ExchangeServer} {reply : Response}
    {es : List TradeExecution} (he : Effect fd line s s₁ reply es) (hr : Rested s) :
    Rested s₁ := by
  have hmarket : ∀ {session : ClientSession} (subscriptions : List Bytes), session.AtRest →
      ClientSession.AtRest { assumeMarketData session with subscriptions := subscriptions } := by
    intro session subscriptions h
    unfold assumeMarketData
    split <;> exact ⟨h.start_le, h.start_le_chunk, h.pending_le, h.reading, h.writing,
      h.backlog, h.closing⟩
  cases he with
  | refuse session reason h hplain => exact hr
  | login session username h hrole hout hfree hplain =>
      have hrest := hr fd session h
      exact forall_lookup_insert ⟨hrest.start_le, hrest.start_le_chunk, hrest.pending_le,
        hrest.reading, hrest.writing, hrest.backlog, hrest.closing⟩ hr
  | subscribe session instrument h hrole =>
      exact forall_lookup_insert (hmarket _ (hr fd session h)) hr
  | unsubscribe session instrument h hrole hin =>
      exact forall_lookup_insert (hmarket _ (hr fd session h)) hr
  | order session h hrole hin hcmd => exact hr
  | cancel session orderId h hin hok => exact hr

/-- Input is no part of the output either. -/
private theorem Rested.withInput {s : ExchangeServer} (hr : Rested s) {fd : Int}
    {session : ClientSession} (h : s.sessions.lookup fd = some session) (inbuf : Bytes) :
    ∀ fd' x, (s.sessions.insert fd { session with inbuf := inbuf }).lookup fd' = some x →
      x.AtRest := by
  have hrest := hr fd session h
  exact forall_lookup_insert ⟨hrest.start_le, hrest.start_le_chunk, hrest.pending_le,
    hrest.reading, hrest.writing, hrest.backlog, hrest.closing⟩ hr

private theorem fresh_atRest (fd : Int) (peer : Bytes) :
    ClientSession.AtRest { fd := fd, peer := peer } where
  start_le := Nat.le_refl 0
  start_le_chunk := Nat.zero_le _
  pending_le := Nat.zero_le _
  reading := rfl
  writing := rfl
  backlog := rfl
  closing := fun h => by cases h

/-- **The step lemma.** -/
theorem Stage.rested {s s' : ExchangeServer} (hstage : Stage s s') (hb : Base s)
    (hr : Rested s) : Rested s' := by
  cases hstage with
  | receive fd session bytes h hopen => exact hr.withInput h _
  | line fd session line tail h hopen hline hquit he =>
      have hb₀ : Base (s.taken fd session (stripCarriageReturn line) tail) :=
        (Serve.take s session line tail h hline).base hb
      have hr₀ : Rested (s.taken fd session (stripCarriageReturn line) tail) := hr.withInput h _
      exact settle_rested (he.acts.base hb₀) (he.rested hr₀) fd _ _
  | quit fd session line tail h hopen hline hquit =>
      have hr₀ : Rested (s.taken fd session (stripCarriageReturn line) tail) := hr.withInput h _
      exact beginOrderlyClose_rested hr₀ fd .quit
  | oversized fd session h hopen =>
      exact beginOrderlyClose_rested (sendTo_rested hb hr fd oversizedMessage) fd .oversized
  | fin fd session h hopen => exact beginOrderlyClose_rested hr fd .fin
  | writable fd => exact onWritable_rested hb hr fd
  | abort fd reason h => exact drop_rested hr fd reason
  | accept fd peer hfd h hnonneg =>
      have hr₀ : Rested (s.welcome fd peer) := forall_lookup_insert (fresh_atRest fd peer) hr
      unfold register
      dsimp only
      split
      · exact hr₀
      · exact fun fd' x hx => hr₀ fd' x (lookup_of_erase hx).2
  | bounce fd hfd => exact hr
  | pause =>
      unfold pauseAccepting
      split <;> exact hr
  | resume =>
      unfold resumeAcceptingIfDue
      split
      · exact hr
      · split <;> exact hr
  | reap =>
      intro fd x hx
      rw [(reapClosed_tables s).1] at hx
      exact hr fd x hx

/-- **Every session is at rest between two events.** -/
theorem run_rested (c : Setup) (turns : List Turn) : Rested (run c turns) := by
  refine run_stage_invariant (P := fun _ => True) c ?_ (fun _ _ _ hr => hr)
    (fun _ _ hreach hstage hr => hstage.rested hreach.base hr) (fun _ _ => trivial)
  intro fd session h
  simp [ExchangeServer.start] at h

/-! ## Input -/

section Own

variable {s : ExchangeServer} {fd : Int}

theorem onReadable_searched (script : List RecvOutcome) (hb : Base s) (hs : Searched fd s) :
    Searched fd (onReadable fd script s) := by
  refine (onReadable_invariant (I := fun s => Base s ∧ Searched fd s) ?_ ?_ ?_ script
    ⟨hb, hs⟩).2
  · intro s₁ session chunk h hopen hi
    exact ⟨(consume_serves hi.1 chunk h hopen).base hi.1, consume_searched hi.1 chunk h hopen⟩
  · intro s₁ session _ _ hi
    have hacts : Acts fd s₁ (s₁.beginOrderlyClose fd .fin) := beginOrderlyClose_acts fd .fin
    exact ⟨hacts.base hi.1, hi.2.aside (hacts.aside fd)⟩
  · intro s₁ hi
    have hdrop : Act fd s₁ (s₁.drop fd .recvFailed) := drop_act s₁ fd fd rfl
    exact ⟨hdrop.base hi.1, hi.2.aside (hdrop.aside fd)⟩

end Own

theorem perConnection_searched : PerConnection Searched where
  aside := fun _ ha hs => hs.aside ha
  fresh := by
    intro s fd peer b hb _
    simp only [observe, putSession, lookup_insert, if_pos] at hb
    cases hb
    exact ⟨List.not_mem_nil, Nat.zero_le _⟩
  read := fun script hb hs => onReadable_searched script hb hs

/-- A session that is leaving has thrown its input away. -/
def LeftEmpty (s : ExchangeServer) : Prop :=
  ∀ fd session, s.sessions.lookup fd = some session → session.closing = true →
    session.inbuf = []

theorem Act.leftEmpty {fd : Int} {s s' : ExchangeServer} (hact : Act fd s s')
    (hl : LeftEmpty s) : LeftEmpty s' := by
  cases hact with
  | queue dest session message h howed => exact forall_lookup_insert (hl dest session h) hl
  | write dest session h =>
      have hclient := flush_client session (s.kernel.sends session.fd)
      refine forall_lookup_insert ?_ hl
      rw [closing_of_client hclient, inbuf_of_client hclient]
      exact hl dest session h
  | drop dest reason h => exact fun fd' x hx => hl fd' x (lookup_of_drop hx).2
  | relist loop => exact hl
  | leave session reason h => exact forall_lookup_insert (fun _ => rfl) hl
  | interest session wantRead wantWrite h => exact forall_lookup_insert (hl fd session h) hl
  | login session username h hrole hout hfree => exact forall_lookup_insert (hl fd session h) hl
  | subscribe session instrument h hrole | unsubscribe session instrument h hrole hin =>
      obtain ⟨hin, hclosing⟩ := assumeMarketData_input session
      refine forall_lookup_insert ?_ hl
      dsimp only
      rw [hclosing, hin]
      exact hl fd session h
  | submit session cmd h hrole hin hcmd => exact hl
  | cancel session orderId h hin hok => exact hl

theorem Move.leftEmpty {s s' : ExchangeServer} (hmove : Move s s') (hl : LeftEmpty s) :
    LeftEmpty s' := by
  cases hmove with
  | serve hserve =>
      cases hserve with
      | act hact => exact hact.leftEmpty hl
      | receive session bytes h hopen =>
          refine forall_lookup_insert ?_ hl
          intro hclosing
          rw [hopen] at hclosing
          cases hclosing
      | take session line tail h hline =>
          refine forall_lookup_insert ?_ hl
          intro hclosing
          rw [hl _ session h hclosing] at hline
          cases hline
      | handled line => exact hl
  | env henv =>
      cases henv with
      | accept fd peer hfd h hnonneg => exact forall_lookup_insert (fun _ => rfl) hl
      | refuse fd peer h => exact fun fd' x hx => hl fd' x (lookup_of_erase hx).2
      | reap =>
          intro fd x hx
          rw [(reapClosed_tables s).1] at hx
          exact hl fd x hx
      | bounce fd hfd => exact hl
      | timer resumeAt loop => exact hl
      | load a => exact hl

theorem Reachable.leftEmpty {c : Setup} {s : ExchangeServer} (h : Reachable c s) :
    LeftEmpty s := by
  refine Moves.invariant h (fun _ _ hmove hl => hmove.leftEmpty hl) ?_
  intro fd session h
  simp [ExchangeServer.start] at h

/-- **Memory per client is bounded.**  After any run, whatever was received, whatever
the sockets took and whatever others traded, the input buffer of a session holds part
of one line of at most `kMaxLineBytes` bytes, at most `kMaxOutputBytes` bytes wait to
be written, and at most `kReadChunk` bytes that were written are kept with them. -/
theorem session_memory_bounded (c : Setup) (turns : List Turn) (fd : Int)
    (session : ClientSession) (h : (run c turns).sessions.lookup fd = some session) :
    newline ∉ session.inbuf ∧ session.inbuf.length ≤ kMaxLineBytes ∧
      session.pendingBytes ≤ kMaxOutputBytes ∧ session.outStart ≤ kReadChunk ∧
      session.outStart ≤ session.outbuf.length ∧
      session.outbuf.length ≤ kMaxOutputBytes + kReadChunk := by
  have hinput : newline ∉ session.inbuf ∧ session.inbuf.length ≤ kMaxLineBytes := by
    by_cases hclosing : session.closing = true
    · rw [(run_reachable c turns).leftEmpty fd session h hclosing]
      exact ⟨List.not_mem_nil, Nat.zero_le _⟩
    · refine run_each perConnection_searched c turns ?_ fd session h (by simpa using hclosing)
      intro fd' x hx
      simp [ExchangeServer.start] at hx
  have hrest := run_rested c turns fd session h
  have hbuf : session.outbuf.length ≤ kMaxOutputBytes + kReadChunk := by
    have hpending := hrest.pending_le
    have hchunk := hrest.start_le_chunk
    unfold ClientSession.pendingBytes at hpending
    omega
  exact ⟨hinput.1, hinput.2, hrest.pending_le, hrest.start_le_chunk, hrest.start_le, hbuf⟩

/-- Client 5 has sent a line and a half, and its socket takes one byte. -/
private def halfALine : List Turn :=
  [{ input := .event { fd := 3, readable := true }
     answers := { accepts := [.connection 5 [] true] } },
   { input := .event { fd := 5, readable := true }
     answers :=
       { recvs := [.data ⟨ascii "LOGIN a\nBUY J", by decide, by decide⟩]
         sends := fun _ => [.accepted 1] } }]

theorem session_memory_bounded_half_a_line :
    ∃ session, (run {} halfALine).sessions.lookup 5 = some session ∧
      session.inbuf = ascii "BUY J" ∧ session.outStart = 1 ∧
      session.outStart ≤ session.outbuf.length := by
  have hsession : ((run {} halfALine).sessions.lookup 5).any
      (fun session => session.inbuf = ascii "BUY J" ∧ session.outStart = 1) = true := by
    decide +kernel
  rw [Option.any_eq_true] at hsession
  obtain ⟨session, h, hshape⟩ := hsession
  obtain ⟨hin, hstart⟩ := of_decide_eq_true hshape
  obtain ⟨_, _, _, _, hle, _⟩ := session_memory_bounded {} halfALine 5 session h
  exact ⟨session, h, hin, hstart, hle⟩

end SocketExchange.Server
