import SocketExchange.Server.Beats
import SocketExchange.Server.Epochs
import SocketExchange.Server.Rest
import SocketExchange.Server.Wakeups

/-!
# A client that has left is let go

A session that is leaving stays until its output is written.  Meanwhile everything else
goes on: other clients trade and leave, and may even add to its output.

The measure is the number of bytes its socket has taken.  Every time the event loop finds
the socket writable, and the socket does not put the server off again, either the session
is dropped or the number grows.  So the session is gone once this has happened as often as
there were bytes to be written, whatever happens in between.
-/

namespace SocketExchange.Server

open SocketExchange.Lib
open SocketExchange.Lib.Bytes
open SocketExchange.Network
open SocketExchange.Protocol
open ExchangeServer

/-! ## Who stays -/

/-- Whoever is connected stays connected, unless it is dropped, and its number is not given
to anybody else. -/
def Persists (s t : ExchangeServer) : Prop := ∃ new, t.trace = s.trace ++ new ∧
  ∀ fd, s.connected fd = true → (∀ reason, .dropped fd reason ∉ new) →
    t.connected fd = true ∧ .accepted fd ∉ new

theorem Persists.refl (s : ExchangeServer) : Persists s s :=
  ⟨[], (List.append_nil _).symm, fun _ hfd _ => ⟨hfd, List.not_mem_nil⟩⟩

theorem Persists.trans {s t u : ExchangeServer} (h : Persists s t) (h' : Persists t u) :
    Persists s u := by
  obtain ⟨new, htrace, hstay⟩ := h
  obtain ⟨new', htrace', hstay'⟩ := h'
  refine ⟨new ++ new', by rw [htrace', htrace, List.append_assoc], fun fd hfd hnot => ?_⟩
  obtain ⟨hmid, hnew⟩ := hstay fd hfd fun reason hmem => hnot reason (by simp [hmem])
  obtain ⟨hend, hnew'⟩ := hstay' fd hmid fun reason hmem => hnot reason (by simp [hmem])
  exact ⟨hend, by simp [hnew, hnew']⟩

/-- Nobody comes and nobody goes. -/
theorem persists_of_connected {s t : ExchangeServer} {new : List Obs}
    (htrace : t.trace = s.trace ++ new) (hnew : ∀ o ∈ new, ∀ fd, o ≠ .accepted fd)
    (h : ∀ fd, s.connected fd = true → t.connected fd = true) : Persists s t :=
  ⟨new, htrace, fun fd hfd _ => ⟨h fd hfd, fun hmem => hnew _ hmem fd rfl⟩⟩

theorem connected_insert (s : ExchangeServer) {t : ExchangeServer} {fd : Int}
    {session : ClientSession} (h : t.sessions = s.sessions.insert fd session) (fd' : Int)
    (hfd : s.connected fd' = true) : t.connected fd' = true := by
  rw [connected, h, lookup_insert]
  split
  · rfl
  · exact hfd

theorem drop_persists (s : ExchangeServer) (fd : Int) (reason : DropReason) :
    Persists s (s.drop fd reason) := by
  cases h : s.sessions.lookup fd with
  | none =>
      rw [drop_of_lookup_none h]
      exact Persists.refl s
  | some session =>
      refine ⟨_, drop_trace h reason, fun fd' hfd' hnot => ⟨?_, by simp⟩⟩
      have hne : fd' ≠ fd := by
        rintro rfl
        exact hnot reason List.mem_cons_self
      rw [connected, drop_sessions, if_neg hne]
      exact hfd'

theorem Act.persists {fd : Int} {s s' : ExchangeServer} (hact : Act fd s s') : Persists s s' := by
  cases hact with
  | drop dest reason h => exact drop_persists s dest reason
  | relist loop => exact persists_of_connected (List.append_nil _).symm (by simp) fun _ => id
  | submit | cancel => exact persists_of_connected rfl (by simp) fun _ => id
  | interest session wantRead wantWrite h =>
      exact persists_of_connected (List.append_nil _).symm (by simp) (connected_insert s rfl)
  | queue | write | leave | login | subscribe | unsubscribe =>
      exact persists_of_connected rfl (by simp) (connected_insert s rfl)

theorem Serves.persists {fd : Int} {s s' : ExchangeServer} (hserves : Serves fd s s') :
    Persists s s' := by
  refine hserves.invariant (I := Persists s) ?_ (Persists.refl s)
  intro a b hserve h
  refine h.trans ?_
  cases hserve with
  | act hact => exact hact.persists
  | receive | take => exact persists_of_connected rfl (by simp) (connected_insert a rfl)
  | handled => exact persists_of_connected rfl (by simp) fun _ => id

/-- A newcomer may be sent away again, but it is nobody who was there. -/
theorem register_persists {s : ExchangeServer} {fd : Int} (peer : Bytes)
    (h : s.sessions.lookup fd = none) : Persists s ((s.welcome fd peer).register fd) := by
  have hother : ∀ fd', s.connected fd' = true → fd' ≠ fd := by
    rintro fd' hfd' rfl
    rw [connected, h] at hfd'
    cases hfd'
  have hwelcome : ∀ fd', s.connected fd' = true → (s.welcome fd peer).connected fd' = true :=
    connected_insert s rfl
  unfold ExchangeServer.register
  dsimp only
  split
  · refine ⟨[.accepted fd], rfl, fun fd' hfd' _ => ⟨hwelcome fd' hfd', ?_⟩⟩
    simpa using hother fd' hfd'
  · refine ⟨.accepted fd :: [.refused fd, .closed fd], ?_, fun fd' hfd' _ => ⟨?_, ?_⟩⟩
    · refine (refuse_trace _ fd).trans ?_
      show (s.trace ++ [.accepted fd]) ++ _ = _
      simp
    · show (((s.welcome fd peer).sessions.erase fd).lookup fd').isSome = true
      rw [lookup_erase, if_neg (hother fd' hfd')]
      exact hwelcome fd' hfd'
    · simpa using hother fd' hfd'

theorem Beat.persists {s s' : ExchangeServer} (hbeat : Beat s s') (hb : Base s) :
    Persists s s' := by
  cases hbeat with
  | receive fd session bytes h hopen =>
      exact persists_of_connected rfl (by simp) (connected_insert s rfl)
  | line fd session line tail h hopen hline => exact (handleLine_serves hb h hline).persists
  | oversized fd session h hopen => exact (oversized_acts hb fd).serves.persists
  | fin fd session h hopen =>
      have hacts : Acts fd s (s.beginOrderlyClose fd .fin) := beginOrderlyClose_acts fd .fin
      exact hacts.serves.persists
  | writable fd => exact (onWritable_acts hb fd fd).serves.persists
  | abort fd reason h => exact drop_persists s fd reason
  | accept fd peer hfd h hnonneg => exact register_persists peer h
  | bounce fd hfd => exact persists_of_connected (bounce_trace s fd) (by simp) fun _ => id
  | pause =>
      unfold pauseAccepting
      split
      · exact Persists.refl s
      · exact persists_of_connected (List.append_nil _).symm (by simp) fun _ => id
  | resume =>
      unfold resumeAcceptingIfDue
      split
      · exact Persists.refl s
      · split
        · exact Persists.refl s
        · exact persists_of_connected (List.append_nil _).symm (by simp) fun _ => id
  | reap =>
      refine persists_of_connected (reapClosed_trace s) ?_ ?_
      · intro o ho fd
        obtain ⟨fd', _, rfl⟩ := List.mem_map.mp ho
        simp
      · intro fd hfd
        rw [connected, (reapClosed_tables s).1]
        exact hfd

theorem Beats.persists {s s' : ExchangeServer} (hbeats : Beats s s') (hb : Base s) :
    Persists s s' := by
  induction hbeats with
  | refl => exact Persists.refl s
  | tail hbefore hlast ih => exact ih.trans (hlast.persists ((Beats.moves hb hbefore).base hb))

/-! ## One write -/

/-- The socket does not put off the next `send`. -/
def answersNow : List SendOutcome → Bool
  | .eintr :: script => answersNow script
  | .accepted _ :: _ => true
  | .failed :: _ => true
  | _ => false

/-- A socket that answers takes something, or fails. -/
theorem sendLoop_answersNow {session : ClientSession} {script : List SendOutcome}
    (hpending : session.hasPendingOutput = true) (hnow : answersNow script = true) :
    (session.sendLoop script).failed = true ∨ (session.sendLoop script).sent ≠ [] := by
  induction script with
  | nil => cases hnow
  | cons outcome script ih =>
      unfold ClientSession.sendLoop
      rw [if_pos hpending]
      cases outcome with
      | eintr => exact ih hnow
      | eagain => cases hnow
      | failed => exact Or.inl rfl
      | accepted n =>
          dsimp only
          split
          · next hpos =>
            refine Or.inr ?_
            have htaken : 0 < (session.pending.take (min n session.pendingBytes)).length := by
              have hlength : session.pending.length = session.pendingBytes := List.length_drop
              rw [List.length_take, hlength]
              omega
            exact List.append_ne_nil_of_left_ne_nil (List.length_pos_iff.mp htaken) _
          · exact Or.inl rfl

theorem flush_answersNow {session : ClientSession} {script : List SendOutcome}
    (hpending : session.hasPendingOutput = true) (hnow : answersNow script = true) :
    (session.flush script).outcome = .drop .sendFailed ∨ (session.flush script).sent ≠ [] := by
  unfold ClientSession.flush
  dsimp only
  split
  · exact Or.inl rfl
  · next hfailed =>
    exact Or.inr ((sendLoop_answersNow hpending hnow).resolve_left hfailed)

/-- **A write drops the session or gets something out.** -/
theorem onWritable_progress {s : ExchangeServer} (hb : Base s) {fd : Int} {session : ClientSession}
    (h : s.sessions.lookup fd = some session) (hpending : session.hasPendingOutput = true)
    (hnow : answersNow (s.kernel.sends fd) = true) :
    ∃ bytes gone, (s.onWritable fd).trace = s.trace ++ .sent fd bytes :: gone ∧
      ((∃ reason, .dropped fd reason ∈ gone) ∨ bytes ≠ []) := by
  have hown := hb.own fd session h
  have hflush : s.onWritable fd = s.flush fd session := by
    simp only [onWritable, h]
  have hlookup : (s.written fd fd (session.flush (s.kernel.sends fd))).sessions.lookup fd =
      some (session.flush (s.kernel.sends fd)).session := by
    simp [written, observe, putSession]
  have hwrite := flush_answersNow hpending hnow
  refine ⟨(session.flush (s.kernel.sends fd)).sent, ?_⟩
  rw [hflush, ExchangeServer.flush, hown]
  cases houtcome : (session.flush (s.kernel.sends fd)).outcome with
  | drop reason =>
      refine ⟨[.dropped fd reason], ?_, Or.inl ⟨reason, List.mem_cons_self⟩⟩
      dsimp only
      rw [drop_trace hlookup]
      simp [written, observe, putSession]
  | reregister wantRead wantWrite =>
      rw [houtcome] at hwrite
      exact ⟨[], rfl, Or.inr (hwrite.resolve_left (by simp))⟩
  | keep =>
      rw [houtcome] at hwrite
      exact ⟨[], rfl, Or.inr (hwrite.resolve_left (by simp))⟩

/-! ## Turns -/

/-- The event loop finds the socket of `fd` writable, and the socket answers. -/
def flushes (fd : Int) (t : Turn) : Bool :=
  match t.input with
  | .event e => e.fd = fd && e.writable && answersNow (t.answers.sends fd)
  | _ => false

/-- What an event does after the write. -/
theorem onEvent_beats_after_write {s : ExchangeServer} {e : Event} (a : Answers)
    (hlistener : e.fd ≠ s.listenerFd) (hconnected : s.connected e.fd = true)
    (hwritable : e.writable = true) : Beats (s.onWritable e.fd) (s.onEvent e a) := by
  have hevent : s.onEvent e a =
      if !(s.onWritable e.fd).connected e.fd then s.onWritable e.fd
      else
        let t := if e.readable then onReadable e.fd a.recvs (s.onWritable e.fd)
          else s.onWritable e.fd
        if !t.connected e.fd then t else if e.hangup then t.drop e.fd .hangup else t := by
    rw [onEvent, if_neg hlistener, if_neg (by simp [hconnected]), if_pos hwritable]
  have hread : Beats (s.onWritable e.fd)
      (if e.readable then onReadable e.fd a.recvs (s.onWritable e.fd) else s.onWritable e.fd) := by
    split
    · exact onReadable_beats e.fd a.recvs
    · exact Relation.ReflTransGen.refl
  rw [hevent]
  split
  · exact Relation.ReflTransGen.refl
  · dsimp only
    generalize (if e.readable = true then onReadable e.fd a.recvs (s.onWritable e.fd)
      else s.onWritable e.fd) = t at hread ⊢
    split
    · exact hread
    · split
      · exact hread.tail (Beat.abort t e.fd .hangup rfl)
      · exact hread

theorem turn_persists {s : ExchangeServer} (hb : Base s) (t : Turn) : Persists s (s.turn t) :=
  (turn_beats hb t).persists ((Env.load s t.answers).base hb)

/-- **A turn that flushes drops the session or gets something out.** -/
theorem turn_progress {c : Setup} {s : ExchangeServer} (hreach : Reachable c s) {fd : Int}
    {session : ClientSession} (h : s.sessions.lookup fd = some session)
    (hpending : session.hasPendingOutput = true) {t : Turn} (hflushes : flushes fd t = true) :
    ∃ new, (s.turn t).trace = s.trace ++ new ∧
      ((∃ reason, .dropped fd reason ∈ new) ∨
        .accepted fd ∉ new ∧ new.flatMap (Obs.sentBytes fd) ≠ []) := by
  unfold flushes at hflushes
  split at hflushes
  · next e hinput =>
    rw [Bool.and_eq_true, Bool.and_eq_true] at hflushes
    obtain ⟨⟨hfd, hwritable⟩, hnow⟩ := hflushes
    obtain rfl : e.fd = fd := of_decide_eq_true hfd
    have hbase : Base (s.load t.answers) := (Env.load s t.answers).base hreach.base
    have hlistener : e.fd ≠ (s.load t.answers).listenerFd := by
      intro heq
      have hnone := hreach.listening.noSession
      rw [show s.listenerFd = e.fd from heq.symm, h] at hnone
      cases hnone
    have hconnected : (s.load t.answers).connected e.fd = true := connected_iff.mpr ⟨session, h⟩
    have hturn : s.turn t = (s.load t.answers).onEvent e t.answers := by
      simp only [turn, hinput]
    obtain ⟨bytes, gone, htrace, hwrite⟩ := onWritable_progress hbase h hpending hnow
    have hbase' := (onWritable_acts hbase e.fd e.fd).base hbase
    obtain ⟨rest, hrest, hstay⟩ :=
      (onEvent_beats_after_write t.answers hlistener hconnected hwritable).persists hbase'
    refine ⟨.sent e.fd bytes :: gone ++ rest, ?_, ?_⟩
    · rw [hturn, hrest, htrace, List.append_assoc]
      rfl
    · by_cases hdropped : ∃ reason, .dropped e.fd reason ∈ .sent e.fd bytes :: gone ++ rest
      · exact Or.inl hdropped
      · -- nobody was lost, so the connection is still the same one
        obtain ⟨first, hfirst, hstay'⟩ := (onWritable_acts hbase e.fd e.fd).serves.persists
        obtain rfl : first = .sent e.fd bytes :: gone := by
          rw [htrace] at hfirst
          exact (List.append_cancel_left hfirst).symm
        have hnot : ∀ reason, .dropped e.fd reason ∉ .sent e.fd bytes :: gone ++ rest :=
          fun reason hmem => hdropped ⟨reason, hmem⟩
        obtain ⟨hthere, hnew⟩ := hstay' e.fd hconnected fun reason hmem =>
          hnot reason (List.mem_append_left _ hmem)
        obtain ⟨_, hnew'⟩ := hstay e.fd hthere fun reason hmem =>
          hnot reason (List.mem_append_right _ hmem)
        have hbytes : bytes ≠ [] := hwrite.resolve_left fun ⟨reason, hmem⟩ =>
          hnot reason (List.mem_append_left _ (List.mem_cons_of_mem _ hmem))
        refine Or.inr ⟨?_, ?_⟩
        · rw [List.mem_append, not_or]
          exact ⟨hnew, hnew'⟩
        · have hsent : (Obs.sent e.fd bytes).sentBytes e.fd = bytes := if_pos rfl
          rw [List.cons_append, List.flatMap_cons, hsent]
          exact List.append_ne_nil_of_left_ne_nil hbytes _
  · cases hflushes

/-! ## Runs -/

/-- The session is dropped, or the bytes sent to it keep up with the flushes. -/
def Drains (fd : Int) (s s' : ExchangeServer) (count : Nat) : Prop :=
  ∃ new, s'.trace = s.trace ++ new ∧
    ((∃ reason, .dropped fd reason ∈ new) ∨
      s'.connected fd = true ∧ .accepted fd ∉ new ∧
        count ≤ (new.flatMap (Obs.sentBytes fd)).length)

/-- A session that is leaving has something to be written, and goes on leaving. -/
theorem leaving_later {c : Setup} {turns : List Turn} {s : ExchangeServer} (hreach : Reachable c s)
    {fd : Int} {session : ClientSession} (h : s.sessions.lookup fd = some session)
    (hclosing : session.closing = true) {new : List Obs}
    (htrace : (run c turns).trace = s.trace ++ new) (hnew : .accepted fd ∉ new)
    {session' : ClientSession} (h' : (run c turns).sessions.lookup fd = some session') :
    0 < session'.pendingBytes := by
  have hne : ∀ o ∈ new, o ≠ .accepted fd := by
    rintro o ho rfl
    exact hnew ho
  obtain ⟨reason, hreason⟩ := (hreach.epoch h).leaving.mp hclosing
  have hclosing' : session'.closing = true := by
    refine ((run_reachable c turns).epoch h').leaving.mpr ⟨reason, ?_⟩
    rw [htrace, sinceAccept_append hne]
    exact List.mem_append_left _ hreason
  exact (run_rested c turns fd session' h').closing hclosing'

/-- **The run lemma.** -/
theorem run_drains (c : Setup) (before during : List Turn) {fd : Int} {session : ClientSession}
    (h : (run c before).sessions.lookup fd = some session) (hclosing : session.closing = true) :
    Drains fd (run c before) (run c (before ++ during)) (during.countP (flushes fd)) := by
  induction during using List.reverseRecOn with
  | nil =>
      rw [List.append_nil]
      refine ⟨[], (List.append_nil _).symm, Or.inr ⟨connected_iff.mpr ⟨session, h⟩, ?_, ?_⟩⟩
      · exact List.not_mem_nil
      · exact Nat.zero_le _
  | append_singleton during t ih =>
      have hreach := run_reachable c (before ++ during)
      have hnext : run c (before ++ (during ++ [t])) = (run c (before ++ during)).turn t := by
        rw [← List.append_assoc, run, Loop.run_concat]
        rfl
      rw [hnext, List.countP_append]
      obtain ⟨new, htrace, hdropped | ⟨hconnected, hnew, hcount⟩⟩ := ih
      · obtain ⟨later, hlater, _⟩ := turn_persists hreach.base t
        refine ⟨new ++ later, by rw [hlater, htrace, List.append_assoc], Or.inl ?_⟩
        obtain ⟨reason, hmem⟩ := hdropped
        exact ⟨reason, List.mem_append_left _ hmem⟩
      · obtain ⟨session', h'⟩ := connected_iff.mp hconnected
        obtain ⟨later, hlater, hstay⟩ := turn_persists hreach.base t
        refine ⟨new ++ later, by rw [hlater, htrace, List.append_assoc], ?_⟩
        by_cases hgone : ∃ reason, .dropped fd reason ∈ later
        · obtain ⟨reason, hmem⟩ := hgone
          exact Or.inl ⟨reason, List.mem_append_right _ hmem⟩
        · obtain ⟨hthere, hnew'⟩ := hstay fd hconnected fun reason hmem => hgone ⟨reason, hmem⟩
          refine Or.inr ⟨hthere, by rw [List.mem_append, not_or]; exact ⟨hnew, hnew'⟩, ?_⟩
          rw [List.flatMap_append, List.length_append]
          cases hflushes : flushes fd t with
          | false =>
              rw [List.countP_singleton, hflushes]
              simp only [Bool.false_eq_true, if_false]
              omega
          | true =>
              have hpending : session'.hasPendingOutput = true := decide_eq_true
                (leaving_later (run_reachable c before) h hclosing htrace hnew h')
              obtain ⟨later', hlater', hsent⟩ := turn_progress hreach h' hpending hflushes
              obtain rfl : later' = later := by
                rw [hlater] at hlater'
                exact (List.append_cancel_left hlater').symm
              have hpos := List.length_pos_iff.mpr (hsent.resolve_left hgone).2
              rw [List.countP_singleton, hflushes]
              simp only [if_true]
              omega

/-- **A client that has left is let go.**  Take a session that is leaving, at any point of
any run.  Once its socket has been found writable, and has not put the server off, as often
as there were bytes to be written then and bytes added since, the session has been
dropped, whatever else has happened. -/
theorem leaving_client_dropped (c : Setup) (before during : List Turn) {fd : Int}
    {session : ClientSession} (h : (run c before).sessions.lookup fd = some session)
    (hclosing : session.closing = true) {new : List Obs}
    (hnew : (run c (before ++ during)).trace = (run c before).trace ++ new)
    (henough : session.pendingBytes + (new.flatMap (Obs.queuedBytes fd)).length ≤
      during.countP (flushes fd)) : ∃ reason, .dropped fd reason ∈ new := by
  obtain ⟨new', hnew', hdropped | ⟨hconnected, hsame, hcount⟩⟩ :=
    run_drains c before during h hclosing
  · obtain rfl : new' = new := List.append_cancel_left (hnew'.symm.trans hnew)
    exact hdropped
  · exfalso
    obtain rfl : new' = new := List.append_cancel_left (hnew'.symm.trans hnew)
    obtain ⟨session', h'⟩ := connected_iff.mp hconnected
    have hstill := leaving_later (run_reachable c before) h hclosing hnew hsame h'
    have hne : ∀ o ∈ new', o ≠ .accepted fd := by
      rintro o ho rfl
      exact hsame ho
    have hinv : ∀ turns, OutputInv (run c turns) := fun turns =>
      Moves.outputInv (run_reachable c turns) (base_start c) (outputInv_start c)
    -- the bytes queued are those sent and those pending, before and after
    have hlength : ∀ x : ClientSession, x.pending.length = x.pendingBytes :=
      fun _ => List.length_drop
    have hbefore := congrArg List.length ((hinv before).exact fd session h).1
    have hafter := congrArg List.length ((hinv (before ++ during)).exact fd session' h').1
    rw [hnew, sentTo, queuedTo, sinceAccept_append hne, List.flatMap_append,
      List.flatMap_append] at hafter
    rw [sentTo, queuedTo] at hbefore
    simp only [List.length_append, hlength] at hbefore hafter
    omega

/-- Client 5 logs in and quits, and its socket is full. -/
private def quitsWithBacklog : List Turn :=
  [{ input := .event { fd := 3, readable := true }
     answers := { accepts := [.connection 5 [] true] } },
   { input := .event { fd := 5, readable := true }
     answers := { recvs := [.data ⟨ascii "LOGIN zoe\nQUIT\n", by decide, by decide⟩] } }]

/-- The socket takes one byte. -/
private def oneByte : Turn where
  input := .event { fd := 5, writable := true }
  answers := { sends := fun _ => [.eintr, .accepted 1] }

theorem leaving_client_dropped_three_bytes :
    ∃ reason, .dropped 5 reason ∈ (run {} (quitsWithBacklog ++ List.replicate 3 oneByte)).trace := by
  have hsession : ((run {} quitsWithBacklog).sessions.lookup 5).isSome = true := by decide +kernel
  obtain ⟨session, h⟩ := Option.isSome_iff_exists.mp hsession
  have hstate : ((run {} quitsWithBacklog).sessions.lookup 5).map
      (fun x => (x.closing, x.pendingBytes)) = some (true, 3) := by
    decide +kernel
  rw [h, Option.map_some, Option.some.injEq, Prod.mk.injEq] at hstate
  have hnew : (run {} (quitsWithBacklog ++ List.replicate 3 oneByte)).trace =
      (run {} quitsWithBacklog).trace ++
        [.sent 5 (ascii "O"), .sent 5 (ascii "K"), .sent 5 (ascii "\n"),
          .dropped 5 .flushedAfterClose] := by
    decide +kernel
  obtain ⟨reason, hmem⟩ := leaving_client_dropped {} quitsWithBacklog (List.replicate 3 oneByte) h
    hstate.1 hnew (by rw [hstate.2]; decide)
  refine ⟨reason, ?_⟩
  rw [hnew]
  exact List.mem_append_right _ hmem

end SocketExchange.Server
