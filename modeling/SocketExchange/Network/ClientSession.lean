import SocketExchange.Lib.Bytes

/-!
# Client sessions

A translation of `src/network/client_session.hpp`, together with the part of
`ExchangeServer::flush` that touches nothing but the session and its socket.

The kernel's side of a socket is a script: the results its next `send` calls
will give.  A flush consumes a prefix of the script and is then a function of
the session and the script alone, so that what is sent to one client cannot
depend on what is sent to another.  A script that has run out answers
`EAGAIN`, which ends a flush, so every finite pattern of results is some script.
-/

namespace SocketExchange.Network

open SocketExchange.Lib.Bytes

/-- `kMaxOutputBytes`: the unwritten bytes that may pile up for one client. -/
def kMaxOutputBytes : Nat := 16 * 1024 * 1024

/-- `kReadChunk`. -/
def kReadChunk : Nat := 65536

/-- `enum class ClientRole`. -/
inductive ClientRole where
  | unknown
  | trader
  | marketData
  deriving Repr, DecidableEq

/-- `struct ClientSession`. -/
structure ClientSession where
  fd : Int := -1
  role : ClientRole := .unknown
  inbuf : Bytes := []
  outbuf : Bytes := []
  /-- Bytes of `outbuf` already written. -/
  outStart : Nat := 0
  /-- No further input is read, and the connection is closed once `outbuf` has
  drained. -/
  closing : Bool := false
  backlogged : Bool := false
  writeInterest : Bool := false
  readInterest : Bool := true
  peer : Bytes := []
  username : Bytes := []
  loggedIn : Bool := false
  subscriptions : List Bytes := []
  deriving Repr, DecidableEq

def ClientSession.pendingBytes (session : ClientSession) : Nat :=
  session.outbuf.length - session.outStart

def ClientSession.hasPendingOutput (session : ClientSession) : Bool :=
  decide (0 < session.pendingBytes)

/-- The bytes handed to the next `send`. -/
def ClientSession.pending (session : ClientSession) : Bytes :=
  session.outbuf.drop session.outStart

/-! ## Writing -/

/-- The result of one `send` call. -/
inductive SendOutcome where
  /-- The kernel takes up to `n` bytes. -/
  | accepted (n : Nat)
  | eintr
  | eagain
  /-- `EPIPE`, `ECONNRESET` and every other error. -/
  | failed
  deriving Repr, DecidableEq

/-- Why a session was dropped. -/
inductive DropReason where
  | sendFailed
  | outputBacklog
  | flushedAfterClose
  | recvFailed
  | hangup
  | fin
  | quit
  | oversized
  deriving Repr, DecidableEq

/-- The orderly ways out: the client quit, finished sending or was told that its
message is too long, and the connection ends once everything is written. -/
def DropReason.orderly : DropReason → Bool
  | .flushedAfterClose => true
  | .fin => true
  | .quit => true
  | .oversized => true
  | _ => false

/-- How the loop around `send` ends. -/
structure Written where
  session : ClientSession
  /-- The results that were not used. -/
  script : List SendOutcome
  /-- The bytes the kernel took. -/
  sent : Bytes
  failed : Bool

/-- `while (session.has_pending_output())`.  A `send` that takes no byte counts
as failed, as in the source. -/
def ClientSession.sendLoop (session : ClientSession) : List SendOutcome → Written
  | [] => ⟨session, [], [], false⟩
  | outcome :: script =>
      if session.hasPendingOutput then
        match outcome with
        | .accepted n =>
            let written := min n session.pendingBytes
            if 0 < written then
              let w := ClientSession.sendLoop
                { session with outStart := session.outStart + written } script
              { w with sent := session.pending.take written ++ w.sent }
            else ⟨session, script, [], true⟩
        | .eintr => ClientSession.sendLoop session script
        | .eagain => ⟨session, script, [], false⟩
        | .failed => ⟨session, script, [], true⟩
      else ⟨session, outcome :: script, [], false⟩

/-- Reclaim the consumed prefix without copying on every single write. -/
def ClientSession.reclaim (session : ClientSession) : ClientSession :=
  if !session.hasPendingOutput then { session with outbuf := [], outStart := 0 }
  else if kReadChunk < session.outStart then
    { session with outbuf := session.pending, outStart := 0 }
  else session

/-- What a flush decides about the connection. -/
inductive FlushEnd where
  | drop (reason : DropReason)
  /-- The interest registered with the event loop has to change. -/
  | reregister (wantRead wantWrite : Bool)
  | keep
  deriving Repr, DecidableEq

/-- A flush, seen from the session. -/
structure Flushed where
  session : ClientSession
  script : List SendOutcome
  sent : Bytes
  outcome : FlushEnd

/-- `backlogged` follows the pending output. -/
def ClientSession.noteBacklog (session : ClientSession) : ClientSession :=
  if 0 < session.pendingBytes ∧ !session.backlogged then { session with backlogged := true }
  else if session.pendingBytes = 0 ∧ session.backlogged then
    { session with backlogged := false }
  else session

/-- `ExchangeServer::flush` from the end of its loop on. -/
def ClientSession.afterWriting (session : ClientSession) : ClientSession × FlushEnd :=
  let session := session.reclaim
  let pending := session.pendingBytes
  if kMaxOutputBytes < pending then (session, .drop .outputBacklog)
  else
    let session := session.noteBacklog
    if pending = 0 ∧ session.closing then (session, .drop .flushedAfterClose)
    else
      let wantRead := !session.closing
      let wantWrite := decide (0 < pending)
      if wantRead ≠ session.readInterest ∨ wantWrite ≠ session.writeInterest then
        ({ session with readInterest := wantRead, writeInterest := wantWrite },
          .reregister wantRead wantWrite)
      else (session, .keep)

/-- `ExchangeServer::flush`, up to its calls of `drop` and `loop_.update`. -/
def ClientSession.flush (session : ClientSession) (script : List SendOutcome) : Flushed :=
  let w := session.sendLoop script
  if w.failed then ⟨w.session, w.script, w.sent, .drop .sendFailed⟩
  else
    let (session, outcome) := w.session.afterWriting
    ⟨session, w.script, w.sent, outcome⟩

/-- `session.outbuf.append(message)`. -/
def ClientSession.append (session : ClientSession) (message : Bytes) : ClientSession :=
  { session with outbuf := session.outbuf ++ message }

/-! ## What a flush leaves alone -/

/-- The session without its output half: the client's identity and what it has
said.  Nothing that writes to a client changes it. -/
def ClientSession.client (session : ClientSession) : ClientSession :=
  { session with
    outbuf := [], outStart := 0, backlogged := false, writeInterest := false
    readInterest := true }

section Client

variable {a b : ClientSession} (h : a.client = b.client)

include h

theorem fd_of_client : a.fd = b.fd := by
  have h' : a.client.fd = b.client.fd := by rw [h]
  exact h'

theorem role_of_client : a.role = b.role := by
  have h' : a.client.role = b.client.role := by rw [h]
  exact h'

theorem inbuf_of_client : a.inbuf = b.inbuf := by
  have h' : a.client.inbuf = b.client.inbuf := by rw [h]
  exact h'

theorem closing_of_client : a.closing = b.closing := by
  have h' : a.client.closing = b.client.closing := by rw [h]
  exact h'

theorem username_of_client : a.username = b.username := by
  have h' : a.client.username = b.client.username := by rw [h]
  exact h'

theorem loggedIn_of_client : a.loggedIn = b.loggedIn := by
  have h' : a.client.loggedIn = b.client.loggedIn := by rw [h]
  exact h'

theorem subscriptions_of_client : a.subscriptions = b.subscriptions := by
  have h' : a.client.subscriptions = b.client.subscriptions := by rw [h]
  exact h'

end Client

@[simp] theorem append_client (session : ClientSession) (message : Bytes) :
    (session.append message).client = session.client := rfl

theorem sendLoop_client (session : ClientSession) (script : List SendOutcome) :
    (session.sendLoop script).session.client = session.client := by
  fun_induction ClientSession.sendLoop session script with
  | case1 session => rfl
  | case2 session script h n written hpos w ih => exact ih
  | case3 session script h n written hpos => rfl
  | case4 session script h ih => exact ih
  | case5 session script h => rfl
  | case6 session script h => rfl
  | case7 session outcome script h => rfl

theorem reclaim_client (session : ClientSession) :
    session.reclaim.client = session.client := by
  unfold ClientSession.reclaim
  split
  · rfl
  · split
    · rfl
    · rfl

theorem noteBacklog_client (session : ClientSession) :
    session.noteBacklog.client = session.client := by
  unfold ClientSession.noteBacklog
  split
  · rfl
  · split
    · rfl
    · rfl

theorem afterWriting_client (session : ClientSession) :
    session.afterWriting.1.client = session.client := by
  have hreclaim := reclaim_client session
  have hnote := (noteBacklog_client session.reclaim).trans hreclaim
  unfold ClientSession.afterWriting
  dsimp only
  split
  · exact hreclaim
  · split
    · exact hnote
    · split
      · exact hnote
      · exact hnote

theorem flush_client (session : ClientSession) (script : List SendOutcome) :
    (session.flush script).session.client = session.client := by
  have hloop := sendLoop_client session script
  unfold ClientSession.flush
  dsimp only
  split
  · exact hloop
  · exact (afterWriting_client _).trans hloop

/-! ## What a flush does to the output -/

theorem pendingBytes_eq (session : ClientSession) :
    session.pendingBytes = session.pending.length := by
  simp [ClientSession.pendingBytes, ClientSession.pending]

theorem pending_eq_nil {session : ClientSession} :
    session.pending = [] ↔ session.pendingBytes = 0 := by
  rw [pendingBytes_eq, List.length_eq_zero_iff]

theorem pending_of_not_hasPendingOutput {session : ClientSession}
    (h : session.hasPendingOutput = false) : session.pending = [] := by
  rw [pending_eq_nil]
  simpa [ClientSession.hasPendingOutput] using h

/-- **The loop around `send` moves bytes and loses none.** -/
theorem sendLoop_exact (session : ClientSession) (script : List SendOutcome)
    (h : session.outStart ≤ session.outbuf.length) :
    (session.sendLoop script).sent ++ (session.sendLoop script).session.pending =
        session.pending ∧
      (session.sendLoop script).session.outStart ≤
        (session.sendLoop script).session.outbuf.length := by
  fun_induction ClientSession.sendLoop session script with
  | case1 session => exact ⟨rfl, h⟩
  | case2 session script hp n written hpos w ih =>
      have hle : written ≤ session.pendingBytes := Nat.min_le_right _ _
      have hbound : session.outStart + written ≤ session.outbuf.length := by
        simp only [ClientSession.pendingBytes] at hle
        omega
      obtain ⟨hsent, hstart⟩ := ih hbound
      refine ⟨?_, hstart⟩
      show (session.pending.take written ++ w.sent) ++ w.session.pending = _
      rw [List.append_assoc, hsent]
      simp only [ClientSession.pending]
      rw [← List.drop_drop, List.take_append_drop]
  | case3 session script hp n written hpos => exact ⟨rfl, h⟩
  | case4 session script hp ih => exact ih h
  | case5 session script hp => exact ⟨rfl, h⟩
  | case6 session script hp => exact ⟨rfl, h⟩
  | case7 session outcome script hp => exact ⟨rfl, h⟩

/-- Neither branch of the reclaim touches unwritten bytes. -/
theorem reclaim_exact (session : ClientSession)
    (h : session.outStart ≤ session.outbuf.length) :
    session.reclaim.pending = session.pending ∧
      session.reclaim.outStart ≤ session.reclaim.outbuf.length := by
  unfold ClientSession.reclaim
  split
  · next hp =>
    have hnil := pending_of_not_hasPendingOutput (by simpa using hp)
    exact ⟨hnil.symm, Nat.le_refl 0⟩
  · split
    · exact ⟨rfl, Nat.zero_le _⟩
    · exact ⟨rfl, h⟩

theorem noteBacklog_output (session : ClientSession) :
    session.noteBacklog.outbuf = session.outbuf ∧
      session.noteBacklog.outStart = session.outStart := by
  unfold ClientSession.noteBacklog
  split
  · exact ⟨rfl, rfl⟩
  · split
    · exact ⟨rfl, rfl⟩
    · exact ⟨rfl, rfl⟩

/-- After its reclaim a flush only looks. -/
theorem afterWriting_output (session : ClientSession) :
    session.afterWriting.1.outbuf = session.reclaim.outbuf ∧
      session.afterWriting.1.outStart = session.reclaim.outStart := by
  have hnote := noteBacklog_output session.reclaim
  unfold ClientSession.afterWriting
  dsimp only
  split
  · exact ⟨rfl, rfl⟩
  · split
    · exact hnote
    · split
      · exact hnote
      · exact hnote

/-- **A flush splits the pending output**: what the kernel took, then what is
still pending. -/
theorem flush_exact (session : ClientSession) (script : List SendOutcome)
    (h : session.outStart ≤ session.outbuf.length) :
    (session.flush script).sent ++ (session.flush script).session.pending = session.pending ∧
      (session.flush script).session.outStart ≤
        (session.flush script).session.outbuf.length := by
  obtain ⟨hsent, hstart⟩ := sendLoop_exact session script h
  unfold ClientSession.flush
  dsimp only
  split
  · exact ⟨hsent, hstart⟩
  · obtain ⟨hbuf, hpos⟩ := afterWriting_output (session.sendLoop script).session
    obtain ⟨hpending, hle⟩ := reclaim_exact (session.sendLoop script).session hstart
    refine ⟨?_, ?_⟩
    · rw [← hsent, ← hpending]
      simp only [ClientSession.pending, hbuf, hpos]
    · simp only [hbuf, hpos]
      exact hle

/-- A flush that completes an orderly close has written everything. -/
theorem flush_orderly {session : ClientSession} {script : List SendOutcome}
    {reason : DropReason} (h : (session.flush script).outcome = .drop reason)
    (ho : reason.orderly = true) : (session.flush script).session.pending = [] := by
  unfold ClientSession.flush at h ⊢
  dsimp only at h ⊢
  split at h
  · cases h
    cases ho
  · next hfailed =>
    rw [if_neg hfailed]
    obtain ⟨hbuf, hpos⟩ := afterWriting_output (session.sendLoop script).session
    rw [pending_eq_nil]
    simp only [ClientSession.pendingBytes, hbuf, hpos]
    unfold ClientSession.afterWriting at h
    dsimp only at h
    split at h
    · cases h
      cases ho
    · split at h
      · next hzero => exact hzero.1
      · split at h
        · cases h
        · cases h

/-! ## How a flush leaves a session -/

/-- Between two writes: the output is within its bounds, the flags that mirror it
agree with it, and a session that is leaving still has something to write. -/
structure ClientSession.AtRest (session : ClientSession) : Prop where
  start_le : session.outStart ≤ session.outbuf.length
  start_le_chunk : session.outStart ≤ kReadChunk
  pending_le : session.pendingBytes ≤ kMaxOutputBytes
  reading : session.readInterest = !session.closing
  writing : session.writeInterest = decide (0 < session.pendingBytes)
  backlog : session.backlogged = decide (0 < session.pendingBytes)
  closing : session.closing = true → 0 < session.pendingBytes

theorem reclaim_start_le (session : ClientSession) : session.reclaim.outStart ≤ kReadChunk := by
  unfold ClientSession.reclaim
  split
  · exact Nat.zero_le _
  · split
    · exact Nat.zero_le _
    · next hle => exact Nat.le_of_not_lt hle

theorem noteBacklog_flags (session : ClientSession) :
    session.noteBacklog.backlogged = decide (0 < session.noteBacklog.pendingBytes) ∧
      session.noteBacklog.pendingBytes = session.pendingBytes ∧
      session.noteBacklog.closing = session.closing ∧
      session.noteBacklog.readInterest = session.readInterest ∧
      session.noteBacklog.writeInterest = session.writeInterest := by
  unfold ClientSession.noteBacklog
  split
  · next h => exact ⟨(decide_eq_true h.1).symm, rfl, rfl, rfl, rfl⟩
  · next h =>
    split
    · next h' =>
      refine ⟨?_, rfl, rfl, rfl, rfl⟩
      show false = decide (0 < session.pendingBytes)
      rw [h'.1]
      rfl
    · next h' =>
      refine ⟨?_, rfl, rfl, rfl, rfl⟩
      cases hb : session.backlogged with
      | false =>
          rw [hb] at h
          simpa using h
      | true =>
          rw [hb] at h'
          have hpos : session.pendingBytes ≠ 0 := by simpa using h'
          exact (decide_eq_true (Nat.pos_of_ne_zero hpos)).symm

/-- The flags are set whatever they were before, and the event loop is told unless
they were right already. -/
theorem afterWriting_atRest {session : ClientSession}
    (h : session.outStart ≤ session.outbuf.length)
    (hkeep : ∀ reason, session.afterWriting.2 ≠ .drop reason) :
    session.afterWriting.1.AtRest := by
  have hle := (reclaim_exact session h).2
  have hchunk := reclaim_start_le session
  obtain ⟨hbuf, hstart⟩ := noteBacklog_output session.reclaim
  obtain ⟨hback, hpending, hclosing, _⟩ := noteBacklog_flags session.reclaim
  unfold ClientSession.afterWriting at hkeep ⊢
  dsimp only at hkeep ⊢
  split
  · next hbig =>
    rw [if_pos hbig] at hkeep
    exact absurd rfl (hkeep _)
  · next hbig =>
    rw [if_neg hbig] at hkeep
    split
    · next hdone =>
      rw [if_pos hdone] at hkeep
      exact absurd rfl (hkeep _)
    · next hdone =>
      have hstill : session.reclaim.noteBacklog.closing = true →
          0 < session.reclaim.noteBacklog.pendingBytes := by
        intro hc
        rw [hpending]
        exact Nat.pos_of_ne_zero fun hz => hdone ⟨hz, hc⟩
      have hmax : session.reclaim.noteBacklog.pendingBytes ≤ kMaxOutputBytes := by
        rw [hpending]
        exact Nat.le_of_not_lt hbig
      have hle' : session.reclaim.noteBacklog.outStart ≤
          session.reclaim.noteBacklog.outbuf.length := by
        rw [hbuf, hstart]
        exact hle
      have hchunk' : session.reclaim.noteBacklog.outStart ≤ kReadChunk := by
        rw [hstart]
        exact hchunk
      rw [← hpending]
      split
      · exact ⟨hle', hchunk', hmax, rfl, rfl, hback, hstill⟩
      · next hsame =>
        obtain ⟨hread, hwrite⟩ := not_or.mp hsame
        exact ⟨hle', hchunk', hmax, (Decidable.of_not_not hread).symm,
          (Decidable.of_not_not hwrite).symm, hback, hstill⟩

/-- **A session that survives a flush is at rest**, however it was before. -/
theorem flush_atRest {session : ClientSession} {script : List SendOutcome}
    (h : session.outStart ≤ session.outbuf.length)
    (hkeep : ∀ reason, (session.flush script).outcome ≠ .drop reason) :
    (session.flush script).session.AtRest := by
  have hstart := (sendLoop_exact session script h).2
  unfold ClientSession.flush at hkeep ⊢
  dsimp only at hkeep ⊢
  split
  · next hfailed =>
    rw [if_pos hfailed] at hkeep
    exact absurd rfl (hkeep _)
  · next hfailed =>
    rw [if_neg hfailed] at hkeep
    exact afterWriting_atRest hstart hkeep

theorem sendLoop_flags (session : ClientSession) (script : List SendOutcome) :
    (session.sendLoop script).session.readInterest = session.readInterest ∧
      (session.sendLoop script).session.writeInterest = session.writeInterest := by
  fun_induction ClientSession.sendLoop session script with
  | case1 session => exact ⟨rfl, rfl⟩
  | case2 session script h n written hpos w ih => exact ih
  | case3 session script h n written hpos => exact ⟨rfl, rfl⟩
  | case4 session script h ih => exact ih
  | case5 session script h => exact ⟨rfl, rfl⟩
  | case6 session script h => exact ⟨rfl, rfl⟩
  | case7 session outcome script h => exact ⟨rfl, rfl⟩

theorem reclaim_flags (session : ClientSession) :
    session.reclaim.readInterest = session.readInterest ∧
      session.reclaim.writeInterest = session.writeInterest := by
  unfold ClientSession.reclaim
  split
  · exact ⟨rfl, rfl⟩
  · split
    · exact ⟨rfl, rfl⟩
    · exact ⟨rfl, rfl⟩

/-- The interest the event loop is told, or was told before. -/
def FlushEnd.interest (session : ClientSession) : FlushEnd → Bool × Bool
  | .reregister wantRead wantWrite => (wantRead, wantWrite)
  | _ => (session.readInterest, session.writeInterest)

/-- **The flags of a session are what the event loop was last told.** -/
theorem flush_interest (session : ClientSession) (script : List SendOutcome) :
    ((session.flush script).session.readInterest,
        (session.flush script).session.writeInterest) =
      (session.flush script).outcome.interest session := by
  obtain ⟨hread, hwrite⟩ := sendLoop_flags session script
  unfold ClientSession.flush
  dsimp only
  split
  · simp only [FlushEnd.interest, hread, hwrite]
  · obtain ⟨hread', hwrite'⟩ := reclaim_flags (session.sendLoop script).session
    obtain ⟨_, _, _, hread'', hwrite''⟩ :=
      noteBacklog_flags (session.sendLoop script).session.reclaim
    unfold ClientSession.afterWriting
    dsimp only
    split
    · simp only [FlushEnd.interest, hread, hwrite, hread', hwrite']
    · split
      · simp only [FlushEnd.interest, hread, hwrite, hread', hwrite', hread'', hwrite'']
      · split
        · rfl
        · simp only [FlushEnd.interest, hread, hwrite, hread', hwrite', hread'', hwrite'']

end SocketExchange.Network
