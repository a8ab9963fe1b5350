import SocketExchange.Server.Bystanders

/-!
# A market-data client cannot influence the others

A statement about two runs.  From a state in which `m` is a market-data client, let
the world go on in two ways that differ only in what comes from `m`, when its socket
is reported, and what `recv` and `send` on it return.  Then everybody else lives
through the same.

What is left of a continuation when `m` is taken out of it (`withoutClient`) is a
continuation too.  Both runs are compared with it: a turn that is taken out leads to
a state that is alike (`turn_unseen`), and a turn that both have keeps alike states
alike (`turn_paired`).
-/

namespace SocketExchange.Server

open SocketExchange.Lib
open SocketExchange.Lib.Bytes
open SocketExchange.Network
open SocketExchange.Protocol
open SocketExchange.Trading.OrderBook
open ExchangeServer

/-! ## Serving somebody else -/

section Serving

variable {m : Int} {s s' : ExchangeServer} (h : Twins m s s') {fd : Int} (hne : fd ≠ m)

include h hne

private theorem Twins.handleLine {session : ClientSession} {line tail : Bytes}
    (hsession : s.sessions.lookup fd = some session)
    (hline : splitLine session.inbuf = some (line, tail)) :
    Twins m (s.handleLine fd session (stripCarriageReturn line) tail)
      (s'.handleLine fd session (stripCarriageReturn line) tail) := by
  have htaken := h.serve (Serve.take s session line tail hsession hline)
    (Serve.take s' session line tail (h.lookup hne hsession) hline) ((h.inStep.put fd _).observe _)
  have hlookup : ((s.putSession fd { session with inbuf := tail }).observe
      (.handling fd (stripCarriageReturn line))).sessions.lookup fd =
        some { session with inbuf := tail } := by
    simp [observe, putSession]
  have hmessage := htaken.handleMessage hne hlookup (stripCarriageReturn line)
  unfold ExchangeServer.handleLine
  dsimp only
  refine hmessage.serve (Serve.handled _ _) (Serve.handled _ _) ?_
  rw [← hmessage.inStep.lineOutcome hne]
  exact hmessage.inStep.observe _

private theorem Twins.consumeLoop (fuel : Nat) :
    Twins m (consumeLoop fd fuel s).1 (consumeLoop fd fuel s').1 ∧
      (ExchangeServer.consumeLoop fd fuel s).2 = (ExchangeServer.consumeLoop fd fuel s').2 := by
  induction fuel generalizing s s' with
  | zero => exact ⟨h, rfl⟩
  | succ fuel ih =>
      unfold ExchangeServer.consumeLoop
      rw [← h.inStep.session fd hne]
      split
      · exact ⟨h, rfl⟩
      · next session hsession =>
        split
        · split
          · exact ⟨(h.sendTo fd oversizedMessage).beginOrderlyClose hne .oversized, rfl⟩
          · exact ⟨h, rfl⟩
        · next line tail hline =>
          have hhandled := h.handleLine hne hsession hline
          dsimp only
          rw [← hhandled.inStep.lineOutcome hne]
          split
          · exact ⟨hhandled, rfl⟩
          · exact ⟨hhandled, rfl⟩
          · exact ih hhandled

private theorem Twins.consumeMessages :
    Twins m (s.consumeMessages fd).1 (s'.consumeMessages fd).1 ∧
      (s.consumeMessages fd).2 = (s'.consumeMessages fd).2 := by
  unfold ExchangeServer.consumeMessages
  rw [← h.inStep.session fd hne]
  exact h.consumeLoop hne _

private theorem Twins.drop {reason : DropReason} (hreason : reason.orderly = false) :
    Twins m (s.drop fd reason) (s'.drop fd reason) :=
  h.serve (Serve.act s (drop_act s fd fd hreason)) (Serve.act s' (drop_act s' fd fd hreason))
    (h.inStep.drop h.left.registry.book h.right.registry.book hne reason)

private theorem Twins.onReadable (script : List RecvOutcome) :
    Twins m (onReadable fd script s) (ExchangeServer.onReadable fd script s') := by
  induction script generalizing s s' with
  | nil => exact h
  | cons outcome script ih =>
      unfold ExchangeServer.onReadable
      rw [← h.inStep.session fd hne]
      split
      · exact h
      · next session hsession =>
        split
        · exact h
        · next hopen =>
          have hopen' : session.closing = false := by simpa using hopen
          split
          · next chunk =>
            have hreceived : Twins m (s.receive fd session chunk.bytes)
                (s'.receive fd session chunk.bytes) :=
              h.serve (Serve.receive s session chunk.bytes hsession hopen')
                (Serve.receive s' session chunk.bytes (h.lookup hne hsession) hopen')
                ((h.inStep.put fd _).observe _)
            obtain ⟨hconsumed, hmore⟩ := hreceived.consumeMessages hne
            dsimp only
            rw [← hmore]
            split
            · exact hconsumed
            · split
              · exact hconsumed
              · exact ih hconsumed
          · exact h.beginOrderlyClose hne .fin
          · exact ih h
          · exact h
          · exact h.drop hne rfl

private theorem Twins.onWritable : Twins m (s.onWritable fd) (s'.onWritable fd) := by
  refine h.serves (onWritable_acts h.left.base fd fd).serves
    (onWritable_acts h.right.base fd fd).serves ?_
  unfold ExchangeServer.onWritable
  rw [← h.inStep.session fd hne]
  split
  · exact h.inStep
  · next session hsession =>
    exact h.inStep.flush h.left.registry.book h.right.registry.book hne
      (h.left.base.own fd session hsession)

end Serving

/-- **The same event on the socket of somebody else.** -/
private theorem Twins.onEvent {m : Int} {s s' : ExchangeServer} (h : Twins m s s') {e : Event}
    (hne : e.fd ≠ m) (hlistener : e.fd ≠ s.listenerFd) {a a' : Answers}
    (hrecvs : a.recvs = a'.recvs) : Twins m (s.onEvent e a) (s'.onEvent e a') := by
  have hwrite : Twins m (if e.writable then s.onWritable e.fd else s)
      (if e.writable then s'.onWritable e.fd else s') := by
    split
    · exact h.onWritable hne
    · exact h
  unfold ExchangeServer.onEvent
  rw [← h.inStep.listener, if_neg hlistener, if_neg hlistener, ← h.inStep.connected hne, ← hrecvs]
  split
  · exact h
  · dsimp only
    generalize (if e.writable = true then s.onWritable e.fd else s) = s₁ at hwrite ⊢
    generalize (if e.writable = true then s'.onWritable e.fd else s') = s₁' at hwrite ⊢
    rw [← hwrite.inStep.connected hne]
    split
    · exact hwrite
    · have hread : Twins m (if e.readable then ExchangeServer.onReadable e.fd a.recvs s₁ else s₁)
          (if e.readable then ExchangeServer.onReadable e.fd a.recvs s₁' else s₁') := by
        split
        · exact hwrite.onReadable hne a.recvs
        · exact hwrite
      generalize (if e.readable = true then ExchangeServer.onReadable e.fd a.recvs s₁ else s₁) = s₂
        at hread ⊢
      generalize (if e.readable = true then ExchangeServer.onReadable e.fd a.recvs s₁' else s₁') =
        s₂' at hread ⊢
      rw [← hread.inStep.connected hne]
      split
      · exact hread
      · split
        · exact hread.drop hne rfl
        · exact hread

/-! ## Serving `m` -/

section Unseen

variable {m : Int} {s : ExchangeServer} (h : Sound m s)

include h

/-- What `m` can bring about with a line before it is answered is a change of its own
subscriptions. -/
private theorem Effect.unseen {line : Bytes} {s₁ : ExchangeServer} {reply : Response}
    {es : List TradeExecution} (he : Effect m line s s₁ reply es) : Twins m s s₁ ∧ es = [] := by
  have hacts := he.acts.serves
  cases he with
  | refuse session reason hsession hplain => exact ⟨Twins.refl h, rfl⟩
  | login session username hsession hrole hout hfree hplain =>
      rw [h.watcher session hsession] at hrole
      rcases hrole with hrole | hrole <;> cases hrole
  | subscribe session instrument hsession hrole =>
      refine ⟨h.unseen hacts ?_, rfl⟩
      exact { ((InStep.refl m s).putUnseen _).note (o := .subscribed m instrument) rfl rfl with }
  | unsubscribe session instrument hsession hrole hin =>
      refine ⟨h.unseen hacts ?_, rfl⟩
      exact { ((InStep.refl m s).putUnseen _).note (o := .unsubscribed m instrument) rfl rfl with }
  | order session hsession hrole hin hcmd =>
      rw [h.loggedOut hsession] at hin
      cases hin
  | cancel session orderId hsession hin hok =>
      rw [h.loggedOut hsession] at hin
      cases hin

private theorem beginOrderlyClose_paired (reason : DropReason) :
    Twins m s (s.beginOrderlyClose m reason) :=
  h.unseen (beginOrderlyClose_acts m reason).serves (beginOrderlyClose_unseen h.modest reason)

/-- **A line of a market-data client is between the server and that client.** -/
private theorem handleMessage_unseen {session : ClientSession}
    (hsession : s.sessions.lookup m = some session) (line : Bytes) :
    Twins m s (s.handleMessage m line) := by
  by_cases hquit : Quits line
  · rw [handleMessage_quit line hquit]
    exact beginOrderlyClose_paired h .quit
  · obtain ⟨s₁, reply, es, he, hhandle⟩ := handleMessage_effect hsession line hquit
    obtain ⟨heffect, rfl⟩ := Effect.unseen h he
    rw [hhandle]
    exact heffect.trans (heffect.right.sendUnseen reply)

private theorem handleLine_unseen {session : ClientSession} {line tail : Bytes}
    (hsession : s.sessions.lookup m = some session)
    (hline : splitLine session.inbuf = some (line, tail)) :
    Twins m s (s.handleLine m session (stripCarriageReturn line) tail) := by
  have htaken : Twins m s ((s.putSession m { session with inbuf := tail }).observe
      (.handling m (stripCarriageReturn line))) :=
    h.unseen (Relation.ReflTransGen.single (Serve.take s session line tail hsession hline))
      (((InStep.refl m s).putUnseen _).note rfl rfl)
  have hlookup : ((s.putSession m { session with inbuf := tail }).observe
      (.handling m (stripCarriageReturn line))).sessions.lookup m =
        some { session with inbuf := tail } := by
    simp [observe, putSession]
  have hmessage := htaken.trans
    (handleMessage_unseen htaken.right hlookup (stripCarriageReturn line))
  refine hmessage.trans (hmessage.right.unseen
    (Relation.ReflTransGen.single (Serve.handled _ (stripCarriageReturn line)))
    ((InStep.refl m _).note rfl rfl))

private theorem consume_unseen {session : ClientSession} (chunk : Chunk)
    (hsession : s.sessions.lookup m = some session) (hopen : session.closing = false) :
    Twins m s ((s.receive m session chunk.bytes).consumeMessages m).1 := by
  have hreceived : Twins m s (s.receive m session chunk.bytes) :=
    h.unseen (Relation.ReflTransGen.single
      (Serve.receive s session chunk.bytes hsession hopen))
      (((InStep.refl m s).putUnseen _).note rfl rfl)
  refine consumeLoop_invariant (I := Twins m s) ?_ ?_ _ ?_ hreceived
  · intro s₁ x line tail hx _ hline htwins
    exact htwins.trans (handleLine_unseen htwins.right hx hline)
  · intro s₁ x _ _ _ _ htwins
    have hsend := htwins.trans (htwins.right.sendUnseen oversizedMessage)
    exact hsend.trans (beginOrderlyClose_paired hsend.right .oversized)
  · intro x hx
    rw [receive_lookup] at hx
    cases hx
    exact hopen

private theorem dropUnseen {reason : DropReason} (hreason : reason.orderly = false) :
    Twins m s (s.drop m reason) :=
  h.unseen (Relation.ReflTransGen.single (Serve.act s (drop_act s m m hreason)))
    (drop_unseen h.modest reason)

private theorem onReadable_unseen (script : List RecvOutcome) :
    Twins m s (onReadable m script s) := by
  refine onReadable_invariant (I := Twins m s) ?_ ?_ ?_ script (Twins.refl h)
  · intro s₁ session chunk hsession hopen htwins
    exact htwins.trans (consume_unseen htwins.right chunk hsession hopen)
  · intro s₁ session _ _ htwins
    exact htwins.trans (beginOrderlyClose_paired htwins.right .fin)
  · intro s₁ htwins
    exact htwins.trans (dropUnseen htwins.right rfl)

private theorem onWritable_unseen : Twins m s (s.onWritable m) := by
  refine h.unseen (onWritable_acts h.base m m).serves ?_
  unfold onWritable
  split
  · exact InStep.refl m s
  · next session hsession =>
    exact flush_unseen h.modest (h.base.own m session hsession) (h.loggedOut hsession)

/-- **Any event on the socket of `m`**, whatever is read from it and whatever becomes of
what is written to it. -/
private theorem onEvent_unseen {e : Event} (he : e.fd = m) (hlistener : m ≠ s.listenerFd)
    (a : Answers) : Twins m s (s.onEvent e a) := by
  subst he
  refine onEvent_invariant (I := Twins e.fd s) ?_ ?_ ?_ hlistener (Twins.refl h)
  · intro s₁ htwins
    exact htwins.trans (onWritable_unseen htwins.right)
  · intro s₁ htwins
    exact htwins.trans (onReadable_unseen htwins.right a.recvs)
  · intro s₁ htwins
    exact htwins.trans (dropUnseen htwins.right rfl)

end Unseen

/-! ## Accepting -/

/-- A state between two turns: nothing is left behind in the event loop, and `m` is not
the listening socket. -/
structure Steady (m : Int) (s : ExchangeServer) : Prop extends Sound m s where
  listening : Listening s
  unlisted : Unlisted s
  apart : m ≠ s.listenerFd

/-- The connection that is accepted, if any, is not given the number `m`. -/
def AcceptOutcome.Spares (m : Int) : AcceptOutcome → Prop
  | .connection fd _ _ => (fd : Int) ≠ m
  | _ => True

/-- Two states in which connections are accepted, with the same answers of the kernel to
come. -/
structure Greeting (m : Int) (s s' : ExchangeServer) : Prop where
  paired : Twins m s s'
  left : Steady m s
  right : Steady m s'
  backend : s.loop.backend = s'.loop.backend
  answers : s.loop.kq.answers = s'.loop.kq.answers

section Accepting

variable {m : Int} {s s' : ExchangeServer}

private theorem InStep.openFd (h : InStep m s s') (fd : Int) :
    InStep m (s.openFd fd) (s'.openFd fd) :=
  { h with
    isOpen := fun fd' hne => by
      simp only [ExchangeServer.openFd, List.mem_cons, h.isOpen fd' hne] }

private theorem InStep.closeFd (h : InStep m s s') (fd : Int) :
    InStep m (s.closeFd fd) (s'.closeFd fd) :=
  { h.observe (.closed fd) with
    isOpen := fun fd' hne => by
      simp only [ExchangeServer.closeFd, List.mem_filter, h.isOpen fd' hne] }

private theorem InStep.erase (h : InStep m s s') (fd : Int) :
    InStep m { s with sessions := s.sessions.erase fd }
      { s' with sessions := s'.sessions.erase fd } :=
  { h with
    session := fun fd' hne => by
      dsimp only
      rw [lookup_erase, lookup_erase, h.session fd' hne] }

private theorem InStep.welcome (h : InStep m s s') (fd : Int) (peer : Bytes) :
    InStep m (s.welcome fd peer) (s'.welcome fd peer) :=
  ((h.openFd fd).put fd _).observe _

/-- The kernel takes the new connection in both, or in neither. -/
private theorem InStep.register (h : InStep m s s') (fd : Int)
    (hok : (s.loop.add fd true false).2 = (s'.loop.add fd true false).2) :
    InStep m (s.register fd) (s'.register fd) := by
  have hrelisted := h.relist (s.loop.add fd true false).1 (s'.loop.add fd true false).1
  unfold ExchangeServer.register
  dsimp only
  rw [← hok]
  split
  · exact hrelisted
  · exact ((hrelisted.erase fd).observe (.refused fd)).closeFd fd

/-- A new connection is not `m`. -/
private theorem register_watcher {fd : Int} {peer : Bytes} (hw : Watcher m s) (hne : m ≠ fd) :
    Watcher m ((s.welcome fd peer).register fd) := by
  have hlookup : ∀ x, (s.welcome fd peer).sessions.lookup m = some x →
      s.sessions.lookup m = some x := by
    intro x hx
    simpa only [welcome, observe, putSession, ExchangeServer.openFd, lookup_insert,
      if_neg hne] using hx
  intro x hx
  unfold register at hx
  dsimp only at hx
  split at hx
  · exact hw x (hlookup x hx)
  · exact hw x (hlookup x (lookup_of_erase hx).2)

private theorem register_loop (s : ExchangeServer) (fd : Int) :
    (s.register fd).loop = (s.loop.add fd true false).1 ∧
      (s.register fd).listenerFd = s.listenerFd := by
  unfold register
  dsimp only
  split
  · exact ⟨rfl, rfl⟩
  · exact ⟨rfl, rfl⟩

private theorem Sound.moves (h : Sound m s) (hmoves : Moves s s') (hw : Watcher m s') :
    Sound m s' :=
  ⟨hmoves.base h.base,
    Moves.invariant hmoves (fun _ _ hmove hr => hmove.registry hr) h.registry, hw⟩

private theorem Steady.welcome (h : Steady m s) {fd : Int} (hfd : fd ∉ s.kernel.openFds)
    (hnone : s.sessions.lookup fd = none) (hnonneg : 0 ≤ fd) (hne : m ≠ fd) (peer : Bytes) :
    Steady m ((s.welcome fd peer).register fd) := by
  have hmoves : Moves s ((s.welcome fd peer).register fd) :=
    (register_envs hfd hnone hnonneg).moves
  refine ⟨h.toSound.moves hmoves (register_watcher h.watcher hne), ?_, ?_, ?_⟩
  · exact Moves.invariant hmoves (fun _ _ hmove hl => hmove.listening hl) h.listening
  · refine register_unlisted h.unlisted ?_ hnone
    rintro rfl
    exact hfd h.listening.isOpen
  · rw [(register_loop _ fd).2]
    exact h.apart

private theorem Greeting.welcome (h : Greeting m s s') {fd : Int} (hne : fd ≠ m)
    (hfd : fd ∉ s.kernel.openFds) (hnonneg : 0 ≤ fd) (peer : Bytes) :
    Greeting m ((s.welcome fd peer).register fd) ((s'.welcome fd peer).register fd) := by
  have hfd' : fd ∉ s'.kernel.openFds := by
    rw [← h.paired.inStep.isOpen fd hne]
    exact hfd
  have hnone := h.left.base.lookup_none hfd
  have hnone' := h.right.base.lookup_none hfd'
  have hlistener : fd ≠ s.listenerFd := by
    rintro rfl
    exact hfd h.left.listening.isOpen
  have hlistener' : fd ≠ s'.listenerFd := by
    rw [← h.paired.inStep.listener]
    exact hlistener
  obtain ⟨hok, hanswers⟩ := add_fresh (h.left.unlisted fd hlistener hnone)
    (h.right.unlisted fd hlistener' hnone') h.backend h.answers
  have hleft := h.left.welcome hfd hnone hnonneg hne.symm peer
  have hright := h.right.welcome hfd' hnone' hnonneg hne.symm peer
  refine ⟨⟨?_, hleft.toSound, hright.toSound⟩, hleft, hright, ?_, ?_⟩
  · exact (h.paired.inStep.welcome fd peer).register fd hok
  · rw [(register_loop _ fd).1, (register_loop _ fd).1, backend_add, backend_add]
    exact h.backend
  · rw [(register_loop _ fd).1, (register_loop _ fd).1]
    exact hanswers

/-- Suspending and resuming concern the listening socket only. -/
private theorem pauseAccepting_unseen (h : Sound m s) : Twins m s s.pauseAccepting := by
  have hwatcher : Watcher m s.pauseAccepting := by
    unfold pauseAccepting
    split
    · exact h.watcher
    · exact h.watcher
  refine ⟨?_, h, h.moves ((Stage.pause s).moves h.base) hwatcher⟩
  unfold pauseAccepting
  split
  · exact InStep.refl m s
  · exact { InStep.refl m s with }

private theorem resumeAcceptingIfDue_unseen (h : Sound m s) :
    Twins m s s.resumeAcceptingIfDue := by
  have hwatcher : Watcher m s.resumeAcceptingIfDue := by
    unfold resumeAcceptingIfDue
    split
    · exact h.watcher
    · split
      · exact h.watcher
      · exact h.watcher
  refine ⟨?_, h, h.moves ((Stage.resume s).moves h.base) hwatcher⟩
  unfold resumeAcceptingIfDue
  split
  · exact InStep.refl m s
  · split
    · exact InStep.refl m s
    · exact { InStep.refl m s with }

/-- **The same connections are accepted**, as long as none of them is `m`. -/
private theorem Greeting.acceptPending (h : Greeting m s s') {script : List AcceptOutcome}
    (hscript : ∀ o ∈ script, o.Spares m) :
    Twins m (acceptPending script s) (ExchangeServer.acceptPending script s') := by
  induction script generalizing s s' with
  | nil => exact h.paired
  | cons outcome script ih =>
      cases outcome with
      | again => exact h.paired
      | aborted => exact h.paired
      | failed => exact h.paired
      | exhausted =>
          exact ((pauseAccepting_unseen h.paired.left).symm.trans h.paired).trans
            (pauseAccepting_unseen h.paired.right)
      | connection fd peer nonblocking =>
          have hne : (fd : Int) ≠ m := hscript (.connection fd peer nonblocking) (by simp)
          have hopen := h.paired.inStep.isOpen fd hne
          unfold ExchangeServer.acceptPending
          by_cases hfd : (fd : Int) ∈ s.kernel.openFds
          · rw [if_pos hfd, if_pos (hopen.mp hfd)]
            exact h.paired
          · have hfd' : (fd : Int) ∉ s'.kernel.openFds := fun hmem => hfd (hopen.mpr hmem)
            rw [if_neg hfd, if_neg hfd']
            dsimp only
            split
            · exact ⟨((h.paired.inStep.openFd fd).observe _).closeFd fd,
                h.paired.left.moves ((Stage.bounce s fd hfd).moves h.left.base) h.left.watcher,
                h.paired.right.moves ((Stage.bounce s' fd hfd').moves h.right.base)
                  h.right.watcher⟩
            · rw [h.left.base.emplace hfd, h.right.base.emplace hfd']
              exact ih (h.welcome hne hfd (Int.natCast_nonneg fd) peer)
                fun o ho => hscript o (by simp [ho])

end Accepting

/-! ## Reaping -/

/-- A descriptor that is closed once lives through that once. -/
private theorem lifeOf_closed {fds : List Int} (h : fds.Nodup) (fd : Int) :
    lifeOf fd (fds.map Obs.closed) = if fd ∈ fds then [.closed fd] else [] := by
  induction fds with
  | nil => rfl
  | cons x fds ih =>
      rw [List.nodup_cons] at h
      have hhead : lifeOf fd ((x :: fds).map Obs.closed) =
          (if x = fd then [.closed x] else []) ++ lifeOf fd (fds.map Obs.closed) := by
        by_cases hx : x = fd
        · simp [lifeOf, Obs.fd, hx]
        · simp [lifeOf, Obs.fd, hx]
      rw [hhead, ih h.2]
      by_cases hx : x = fd
      · subst hx
        simp [h.1]
      · simp [hx, Ne.symm hx]

private theorem executions_closed (fds : List Int) :
    (fds.map Obs.closed).flatMap Obs.executions = [] := by
  induction fds with
  | nil => rfl
  | cons fd fds ih => exact ih

section Reaping

variable {m : Int} {s s' : ExchangeServer}

private theorem Alike.reapClosed (h : Alike m s s') (hb : Base s) (hb' : Base s') :
    Alike m s.reapClosed s'.reapClosed := by
  obtain ⟨hsessions, _, hnames, hbook⟩ := reapClosed_tables s
  obtain ⟨hsessions', _, hnames', hbook'⟩ := reapClosed_tables s'
  refine ⟨?_, ?_, ?_, ?_, ?_, fun _ _ => Iff.rfl, ?_, ?_⟩
  · rw [(reapClosed_loop s).1, (reapClosed_loop s').1, h.listener]
  · rw [hbook, hbook']
    exact h.book
  · rw [hnames, hnames', h.usernames]
  · intro fd hne
    rw [hsessions, hsessions', h.session fd hne]
  · intro fd hne
    rw [mem_reapClosed_open, mem_reapClosed_open, h.isOpen fd hne, h.closed fd hne]
  · rw [reapClosed_trace, reapClosed_trace, List.flatMap_append, List.flatMap_append,
      executions_closed, executions_closed, h.executions]
  · intro fd hne
    rw [reapClosed_trace, reapClosed_trace, lifeOf_append, lifeOf_append, h.life fd hne,
      lifeOf_closed hb.closedNodup, lifeOf_closed hb'.closedNodup]
    simp only [h.closed fd hne]

/-- Only the descriptor of `m` is there to be closed. -/
private theorem reapClosed_unseen (hb : Base s) (honly : ∀ fd ∈ s.closedFds, fd = m) :
    Alike m s s.reapClosed := by
  obtain ⟨hsessions, _, hnames, hbook⟩ := reapClosed_tables s
  have hnot : ∀ fd, fd ≠ m → fd ∉ s.closedFds := fun fd hne hmem => hne (honly fd hmem)
  refine ⟨(reapClosed_loop s).1.symm, ?_, hnames.symm, ?_, ?_, ?_, ?_, ?_⟩
  · rw [hbook]
    exact SameBook.refl _
  · intro fd _
    rw [hsessions]
  · intro fd hne
    rw [mem_reapClosed_open, and_iff_left (hnot fd hne)]
  · intro fd hne
    exact iff_of_false (hnot fd hne) List.not_mem_nil
  · rw [reapClosed_trace, List.flatMap_append, executions_closed, List.append_nil]
  · intro fd hne
    rw [reapClosed_trace, lifeOf_append, lifeOf_closed hb.closedNodup, if_neg (hnot fd hne),
      List.append_nil]

end Reaping

/-! ## Turns -/

/-- Two states between turns that only `m` can tell apart. -/
structure Meeting (m : Int) (s s' : ExchangeServer) : Prop where
  alike : Alike m s s'
  left : Steady m s
  right : Steady m s'
  backend : s.loop.backend = s'.loop.backend

/-- Two turns that differ in the results of `send` on the socket of `m`, and in nothing else
that comes from outside.  How much time passes and how the unordered containers are walked
is left open; what `kevent` answers matters when it decides on a new connection. -/
structure SameApart (listener m : Int) (t t' : Turn) : Prop where
  input : t.input = t'.input
  sends : ∀ fd, fd ≠ m → t.answers.sends fd = t'.answers.sends fd
  recvs : t.answers.recvs = t'.answers.recvs
  accepts : t.answers.accepts = t'.answers.accepts
  kevents : ∀ e, t.input = .event e → e.fd = listener → t.answers.kevents = t'.answers.kevents
  /-- No connection gets the number `m`. -/
  spares : ∀ o ∈ t.answers.accepts, o.Spares m

section Turns

variable {m : Int} {s s' s'' : ExchangeServer}

theorem Meeting.refl (h : Steady m s) : Meeting m s s := ⟨Alike.refl m s, h, h, rfl⟩

theorem Meeting.symm (h : Meeting m s s') : Meeting m s' s :=
  ⟨h.alike.symm, h.right, h.left, h.backend.symm⟩

theorem Meeting.trans (h : Meeting m s s') (h' : Meeting m s' s'') : Meeting m s s'' :=
  ⟨h.alike.trans h'.alike, h.left, h'.right, h.backend.trans h'.backend⟩

private theorem Steady.load (h : Steady m s) (a : Answers) : Steady m (s.load a) :=
  { base := (Env.load s a).base h.base
    registry := (Env.load s a).registry h.registry
    watcher := h.watcher
    listening := (Env.load s a).listening h.listening
    unlisted := h.unlisted
    apart := h.apart }

/-- What a turn keeps, if `m` is still a market-data client or gone. -/
private theorem Steady.turn (h : Steady m s) (t : Turn) (hw : Watcher m (s.turn t)) :
    Steady m (s.turn t) := by
  have hload := h.load t.answers
  have hstages := turn_stages h.base t
  have hmoves := turn_moves h.base t
  exact
    { base := hmoves.base h.base
      registry := Moves.invariant hmoves (fun _ _ hmove hr => hmove.registry hr) h.registry
      watcher := hw
      listening := Moves.invariant hmoves (fun _ _ hmove hl => hmove.listening hl) h.listening
      unlisted := Stages.unlisted hload.unlisted hstages hload.base hload.listening
      apart := by
        rw [Moves.listenerFd hmoves]
        exact h.apart }

private theorem turn_backend (hb : Base s) (t : Turn) :
    (s.turn t).loop.backend = s.loop.backend :=
  (loopRule_backend s.loop.backend).stages (s := s.load t.answers) rfl
    ((Env.load s t.answers).base hb) (turn_stages hb t)

/-- The answers of two turns are laid out. -/
private theorem Meeting.load (h : Meeting m s s') {a a' : Answers}
    (hsends : ∀ fd, fd ≠ m → a.sends fd = a'.sends fd) :
    Twins m (s.load a) (s'.load a') :=
  ⟨{ h.alike with sends := hsends }, (h.left.load a).toSound, (h.right.load a').toSound⟩

/-- **A turn that both have.** -/
private theorem turn_paired (h : Meeting m s s') {t t' : Turn}
    (ht : SameApart s.listenerFd m t t') (hinput : ∀ e, t.input = .event e → e.fd ≠ m) :
    Meeting m (s.turn t) (s'.turn t') := by
  have hload := h.load ht.sends
  have hfinish : Alike m (s.turn t) (s'.turn t') → Watcher m (s.turn t) →
      Watcher m (s'.turn t') → Meeting m (s.turn t) (s'.turn t') := by
    intro halike hw hw'
    refine ⟨halike, h.left.turn t hw, h.right.turn t' hw', ?_⟩
    rw [turn_backend h.left.base, turn_backend h.right.base]
    exact h.backend
  have hpaired : Twins m (s.turn t) (s'.turn t') → Meeting m (s.turn t) (s'.turn t') :=
    fun hp => hfinish hp.inStep.toAlike hp.left.watcher hp.right.watcher
  have hinput' := ht.input
  cases hcase : t.input with
  | resumeAccepting =>
      rw [hcase] at hinput'
      refine hpaired ?_
      simp only [ExchangeServer.turn, hcase, ← hinput']
      exact ((resumeAcceptingIfDue_unseen hload.left).symm.trans hload).trans
        (resumeAcceptingIfDue_unseen hload.right)
  | event e =>
      rw [hcase] at hinput'
      refine hpaired ?_
      simp only [ExchangeServer.turn, hcase, ← hinput']
      by_cases hlistener : e.fd = s.listenerFd
      · have hgreeting : Greeting m (s.load t.answers) (s'.load t'.answers) :=
          ⟨hload, h.left.load _, h.right.load _, h.backend, ht.kevents e hcase hlistener⟩
        have hlistener' : e.fd = s'.listenerFd := hlistener.trans h.alike.listener
        have haccept : Twins m (acceptPending t.answers.accepts (s.load t.answers))
            (acceptPending t'.answers.accepts (s'.load t'.answers)) := by
          rw [← ht.accepts]
          exact hgreeting.acceptPending ht.spares
        unfold onEvent
        rw [if_pos (show e.fd = (s.load t.answers).listenerFd from hlistener),
          if_pos (show e.fd = (s'.load t'.answers).listenerFd from hlistener')]
        exact haccept
      · exact hload.onEvent (hinput e hcase) hlistener ht.recvs
  | reapClosed =>
      rw [hcase] at hinput'
      have hturn : s.turn t = (s.load t.answers).reapClosed := by
        simp only [ExchangeServer.turn, hcase]
      have hturn' : s'.turn t' = (s'.load t'.answers).reapClosed := by
        simp only [ExchangeServer.turn, ← hinput']
      refine hfinish ?_ ?_ ?_
      · rw [hturn, hturn']
        exact hload.inStep.toAlike.reapClosed hload.left.base hload.right.base
      · rw [hturn, Watcher, (reapClosed_tables _).1]
        exact hload.left.watcher
      · rw [hturn', Watcher, (reapClosed_tables _).1]
        exact hload.right.watcher

private theorem Meeting.unseen (h : Steady m s) {t : Turn} (halike : Alike m s (s.turn t))
    (hw : Watcher m (s.turn t)) : Meeting m s (s.turn t) :=
  ⟨halike, h, h.turn t hw, (turn_backend h.base t).symm⟩

/-- The answers alone change nothing that anybody sees. -/
private theorem load_unseen (s : ExchangeServer) (a : Answers) : Alike m s (s.load a) :=
  { Alike.refl m s with }

/-- **A turn that only one of them has**: an event on the socket of `m`, -/
private theorem turn_unseen (h : Steady m s) {t : Turn} {e : Event} (hinput : t.input = .event e)
    (he : e.fd = m) : Meeting m s (s.turn t) := by
  have hturn : s.turn t = (s.load t.answers).onEvent e t.answers := by
    simp only [turn, hinput]
  have hpaired := onEvent_unseen (h.load t.answers).toSound he (h.load t.answers).apart t.answers
  rw [← hturn] at hpaired
  exact Meeting.unseen h ((load_unseen s _).trans hpaired.inStep.toAlike) hpaired.right.watcher

/-- a look at the clock, -/
private theorem turn_resume (h : Steady m s) {t : Turn} (hinput : t.input = .resumeAccepting) :
    Meeting m s (s.turn t) := by
  have hturn : s.turn t = (s.load t.answers).resumeAcceptingIfDue := by
    simp only [turn, hinput]
  have hpaired := resumeAcceptingIfDue_unseen (h.load t.answers).toSound
  rw [← hturn] at hpaired
  exact Meeting.unseen h ((load_unseen s _).trans hpaired.inStep.toAlike) hpaired.right.watcher

/-- or a reap after which at most `m` is gone. -/
private theorem turn_reap (h : Steady m s) {t : Turn} (hinput : t.input = .reapClosed)
    (honly : ∀ fd ∈ s.closedFds, fd = m) : Meeting m s (s.turn t) := by
  have hturn : s.turn t = (s.load t.answers).reapClosed := by
    simp only [turn, hinput]
  refine Meeting.unseen h ?_ ?_
  · rw [hturn]
    exact (load_unseen s _).trans (reapClosed_unseen (h.load t.answers).base honly)
  · rw [hturn, Watcher, (reapClosed_tables _).1]
    exact h.watcher

end Turns

/-! ## Runs -/

/-- What is left of a continuation when everything about `m` is taken out of it: the events
on its socket, the points at which only the clock is looked at, and the reap at the end of a
batch that was all about `m`.  `reaped` tells that nobody but `m` can be waiting to be closed,
which is so from a reap to the next event that stays. -/
def withoutClient (m : Int) : Bool → List Turn → List Turn
  | _, [] => []
  | reaped, t :: turns =>
      match t.input with
      | .resumeAccepting => withoutClient m reaped turns
      | .reapClosed =>
          if reaped then withoutClient m true turns else t :: withoutClient m true turns
      | .event e =>
          if e.fd = m then withoutClient m reaped turns else t :: withoutClient m false turns

theorem withoutClient_apart {m : Int} {reaped : Bool} {turns : List Turn} {t : Turn}
    (ht : t ∈ withoutClient m reaped turns) : ∀ e, t.input = .event e → e.fd ≠ m := by
  induction turns generalizing reaped with
  | nil => cases ht
  | cons t' turns ih =>
      unfold withoutClient at ht
      split at ht
      · exact ih ht
      · next hinput =>
        split at ht
        · exact ih ht
        · rcases List.mem_cons.mp ht with rfl | ht
          · intro e he
            rw [hinput] at he
            cases he
          · exact ih ht
      · next e hinput =>
        split at ht
        · exact ih ht
        · next hne =>
          rcases List.mem_cons.mp ht with rfl | ht
          · intro e' he'
            rw [hinput] at he'
            cases he'
            exact hne
          · exact ih ht

theorem SameApart.refl {listener m : Int} {t : Turn}
    (hspares : ∀ o ∈ t.answers.accepts, o.Spares m) : SameApart listener m t t :=
  ⟨rfl, fun _ _ => rfl, rfl, rfl, fun _ _ _ => rfl, hspares⟩

theorem SameApart.symm {listener m : Int} {t t' : Turn} (h : SameApart listener m t t') :
    SameApart listener m t' t where
  input := h.input.symm
  sends := fun fd hne => (h.sends fd hne).symm
  recvs := h.recvs.symm
  accepts := h.accepts.symm
  kevents := fun e he hfd => (h.kevents e (h.input.trans he) hfd).symm
  spares := by
    rw [← h.accepts]
    exact h.spares

section Runs

variable {m : Int} {s s' : ExchangeServer}

/-- Turns that both have. -/
theorem run_paired (h : Meeting m s s') {turns turns' : List Turn}
    (hturns : List.Forall₂ (SameApart s.listenerFd m) turns turns')
    (hapart : ∀ t ∈ turns, ∀ e, t.input = .event e → e.fd ≠ m) :
    Meeting m (Loop.run turn s turns) (Loop.run turn s' turns') := by
  induction turns generalizing s s' turns' with
  | nil =>
      cases hturns
      exact h
  | cons t turns ih =>
      cases hturns with
      | cons ht hrest =>
          have hstep := turn_paired h ht (hapart t (by simp))
          rw [← Moves.listenerFd (turn_moves h.left.base t)] at hrest
          exact ih hstep hrest fun t' ht' => hapart t' (by simp [ht'])

private theorem run_same (h : Meeting m s s') {turns : List Turn}
    (hspares : ∀ t ∈ turns, ∀ o ∈ t.answers.accepts, o.Spares m)
    (hapart : ∀ t ∈ turns, ∀ e, t.input = .event e → e.fd ≠ m) :
    Meeting m (Loop.run turn s turns) (Loop.run turn s' turns) :=
  run_paired h (List.forall₂_same.mpr fun t ht => SameApart.refl (hspares t ht)) hapart

/-- **Taking `m` out of a continuation** leads to a state that is alike. -/
private theorem run_withoutClient (h : Steady m s) {reaped : Bool} {turns : List Turn}
    (hreaped : reaped = true → ∀ fd ∈ s.closedFds, fd = m)
    (hspares : ∀ t ∈ withoutClient m reaped turns, ∀ o ∈ t.answers.accepts, o.Spares m) :
    Meeting m (Loop.run turn s turns) (Loop.run turn s (withoutClient m reaped turns)) := by
  induction turns generalizing s reaped with
  | nil => exact Meeting.refl h
  | cons t turns ih =>
      -- a turn that is taken out
      have hout : ∀ reaped', Meeting m s (s.turn t) →
          (reaped' = true → ∀ fd ∈ (s.turn t).closedFds, fd = m) →
          (∀ t ∈ withoutClient m reaped' turns, ∀ o ∈ t.answers.accepts, o.Spares m) →
          Meeting m (Loop.run turn s (t :: turns))
            (Loop.run turn s (withoutClient m reaped' turns)) := by
        intro reaped' hstep honly hsp
        exact (ih hstep.right honly hsp).trans
          (run_same hstep.symm hsp fun _ ht => withoutClient_apart ht)
      -- a turn that stays
      have hkept : ∀ reaped', (∀ e, t.input = .event e → e.fd ≠ m) →
          (reaped' = true → ∀ fd ∈ (s.turn t).closedFds, fd = m) →
          (∀ t' ∈ t :: withoutClient m reaped' turns, ∀ o ∈ t'.answers.accepts, o.Spares m) →
          Meeting m (Loop.run turn s (t :: turns))
            (Loop.run turn s (t :: withoutClient m reaped' turns)) := by
        intro reaped' hapart honly hsp
        have hstep := turn_paired (Meeting.refl h) (SameApart.refl (hsp t (by simp))) hapart
        exact ih hstep.left honly fun t' ht' => hsp t' (by simp [ht'])
      -- who is waiting to be closed, apart from `m`, is not changed by what is taken out
      have hsame : Meeting m s (s.turn t) → reaped = true →
          ∀ fd ∈ (s.turn t).closedFds, fd = m := by
        intro hstep hr fd hfd
        by_contra hne
        exact hne (hreaped hr fd ((hstep.alike.closed fd hne).mpr hfd))
      unfold withoutClient at hspares ⊢
      cases hinput : t.input with
      | resumeAccepting =>
          rw [hinput] at hspares
          have hstep := turn_resume h hinput
          exact hout reaped hstep (hsame hstep) hspares
      | reapClosed =>
          rw [hinput] at hspares
          have hnone : ∀ fd ∈ (s.turn t).closedFds, fd = m := by
            intro fd hfd
            simp only [turn, hinput, reapClosed] at hfd
            cases hfd
          dsimp only at hspares ⊢
          split
          · next hr =>
            rw [if_pos hr] at hspares
            exact hout true (turn_reap h hinput (hreaped hr)) (fun _ => hnone) hspares
          · next hr =>
            rw [if_neg hr] at hspares
            refine hkept true ?_ (fun _ => hnone) hspares
            intro e he
            rw [hinput] at he
            cases he
      | event e =>
          rw [hinput] at hspares
          dsimp only at hspares ⊢
          split
          · next hfd =>
            rw [if_pos hfd] at hspares
            have hstep := turn_unseen h hinput hfd
            exact hout reaped hstep (hsame hstep) hspares
          · next hfd =>
            rw [if_neg hfd] at hspares
            refine hkept false ?_ (by simp) hspares
            intro e' he'
            rw [hinput] at he'
            cases he'
            exact hfd

end Runs

private theorem spares_of_sameApart {listener m : Int} {turns turns' : List Turn}
    (h : List.Forall₂ (SameApart listener m) turns turns') :
    (∀ t ∈ turns, ∀ o ∈ t.answers.accepts, o.Spares m) ∧
      ∀ t ∈ turns', ∀ o ∈ t.answers.accepts, o.Spares m := by
  induction h with
  | nil => simp
  | cons ht _ ih =>
      simp only [List.mem_cons, forall_eq_or_imp]
      exact ⟨⟨ht.spares, ih.1⟩, ht.symm.spares, ih.2⟩

/-- **A market-data client cannot influence anyone else.**  In any reachable state let `m`
be a market-data client, and let two continuations be the same once everything about `m`
is taken out of them: what is received from `m`, the events on its socket and the results
of `recv` and `send` on it may differ in any way, and `m` may be dropped in one and not in
the other.  Then the same orders have been executed, the books, the ids to come and the
names in use agree, and so do the whole state of every other session and everything that
was received from it, queued to it and sent to it. -/
theorem market_data_cannot_interfere (c : Setup) (before : List Turn) (m : Int)
    (session : ClientSession) (hm : (run c before).sessions.lookup m = some session)
    (hrole : session.role = .marketData) (turns turns' : List Turn)
    (hsame : List.Forall₂ (SameApart c.listenerFd m)
      (withoutClient m (run c before).closedFds.isEmpty turns)
      (withoutClient m (run c before).closedFds.isEmpty turns')) :
    Alike m (run c (before ++ turns)) (run c (before ++ turns')) := by
  have hreach := run_reachable c before
  have hsteady : Steady m (run c before) :=
    { base := hreach.base
      registry := hreach.registry
      watcher := by
        intro x hx
        rw [hm] at hx
        cases hx
        exact hrole
      listening := hreach.listening
      unlisted := run_unlisted c before
      apart := hreach.listening.ne hm }
  have hlistener : (run c before).listenerFd = c.listenerFd := Moves.listenerFd hreach
  rw [← hlistener] at hsame
  obtain ⟨hspares, hspares'⟩ := spares_of_sameApart hsame
  have hreaped : (run c before).closedFds.isEmpty = true →
      ∀ fd ∈ (run c before).closedFds, fd = m := by
    intro hempty fd hfd
    rw [List.isEmpty_iff.mp hempty] at hfd
    cases hfd
  have hleft := run_withoutClient hsteady hreaped hspares
  have hright := run_withoutClient hsteady hreaped hspares'
  have hmiddle := run_paired (Meeting.refl hsteady) hsame fun _ ht => withoutClient_apart ht
  have hall := ((hleft.trans hmiddle).trans hright.symm).alike
  rw [run, Loop.run_append, run, Loop.run_append]
  exact hall

/-- Clients 5 and 6 are traders, and 5 has an offer; 7 and 8 watch the instrument. -/
private def twoWatchers : List Turn :=
  [{ input := .event { fd := 3, readable := true }
     answers := { accepts := [.connection 5 [] true, .connection 6 [] true,
       .connection 7 [] true, .connection 8 [] true] } },
   { input := .event { fd := 5, readable := true }
     answers := { recvs :=
       [.data ⟨ascii "LOGIN ann\nSELL IMCT 5 100\n", by decide, by decide⟩] } },
   { input := .event { fd := 6, readable := true }
     answers := { recvs := [.data ⟨ascii "LOGIN bob\n", by decide, by decide⟩] } },
   { input := .event { fd := 7, readable := true }
     answers := { recvs := [.data ⟨ascii "SUBSCRIBE IMCT\n", by decide, by decide⟩] } },
   { input := .event { fd := 8, readable := true }
     answers := { recvs := [.data ⟨ascii "SUBSCRIBE IMCT\n", by decide, by decide⟩] } },
   { input := .reapClosed }]

/-- Client 6 buys what is offered. -/
private def buyAll (sends : Int → List SendOutcome) : Turn where
  input := .event { fd := 6, readable := true }
  answers :=
    { sends := sends
      recvs := [.data ⟨ascii "BUY IMCT 5 100\n", by decide, by decide⟩] }

/-- In a batch of its own, client 7 asks for something it may not have. -/
private def curious : List Turn :=
  [{ input := .event { fd := 7, readable := true }
     answers := { recvs := [.data ⟨ascii "BUY IMCT 5 100\n", by decide, by decide⟩] } },
   { input := .reapClosed }, buyAll fun _ => [], { input := .reapClosed }]

/-- The socket of client 7 fails when it is told about the execution. -/
private def failing : List Turn :=
  [buyAll fun fd => if fd = 7 then [.failed] else [], { input := .reapClosed }]

/-- Client 7 stays in one run, and is lost in the middle of the fan-out in the other. -/
theorem market_data_cannot_interfere_lost_watcher :
    (run {} (twoWatchers ++ curious)).connected 7 = true ∧
      (run {} (twoWatchers ++ failing)).connected 7 = false ∧
      (run {} (twoWatchers ++ failing)).trace.flatMap Obs.executions =
        [⟨6, 5, ascii "IMCT", 5, 100⟩] ∧
      Alike 7 (run {} (twoWatchers ++ curious)) (run {} (twoWatchers ++ failing)) := by
  refine ⟨by decide +kernel, by decide +kernel, by decide +kernel, ?_⟩
  have hlookup : ∃ session, (run {} twoWatchers).sessions.lookup 7 = some session ∧
      session.role = .marketData := by
    have hsome : ((run {} twoWatchers).sessions.lookup 7).any (·.role = .marketData) = true := by
      decide +kernel
    simpa [Option.any_eq_true] using hsome
  obtain ⟨session, hsession, hrole⟩ := hlookup
  refine market_data_cannot_interfere {} twoWatchers 7 session hsession hrole curious failing ?_
  have hempty : (run {} twoWatchers).closedFds.isEmpty = true := by decide +kernel
  rw [hempty]
  have hbuy : SameApart 3 7 (buyAll fun _ => [])
      (buyAll fun fd => if fd = 7 then [.failed] else []) := by
    refine ⟨rfl, ?_, rfl, rfl, fun _ _ _ => rfl, ?_⟩
    · intro fd hne
      exact (if_neg hne).symm
    · intro o ho
      cases ho
  exact .cons hbuy (.cons (SameApart.refl fun o ho => by cases ho) .nil)

end SocketExchange.Server
