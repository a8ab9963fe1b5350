import SocketExchange.Server.Stages

/-!
# The server beat by beat

A stage says of a line that it had *some* effect and *some* reply.  What the effect and
the reply are is a matter of the handlers, so here the pieces of the server's work are
listed once more with the handlers left in.  Every beat is a stage, and every turn is a
sequence of beats.
-/

namespace SocketExchange.Server

open SocketExchange.Lib
open SocketExchange.Lib.Bytes
open SocketExchange.Network
open SocketExchange.Protocol
open ExchangeServer

/-- One piece of the work of the server. -/
inductive Beat : ExchangeServer → ExchangeServer → Prop where
  | receive (s : ExchangeServer) (fd : Int) (session : ClientSession) (bytes : Bytes)
      (h : s.sessions.lookup fd = some session) (hopen : session.closing = false) :
      Beat s (s.receive fd session bytes)
  | line (s : ExchangeServer) (fd : Int) (session : ClientSession) (line tail : Bytes)
      (h : s.sessions.lookup fd = some session) (hopen : session.closing = false)
      (hline : splitLine session.inbuf = some (line, tail)) :
      Beat s (s.handleLine fd session (stripCarriageReturn line) tail)
  | oversized (s : ExchangeServer) (fd : Int) (session : ClientSession)
      (h : s.sessions.lookup fd = some session) (hopen : session.closing = false) :
      Beat s ((s.sendTo fd oversizedMessage).beginOrderlyClose fd .oversized)
  | fin (s : ExchangeServer) (fd : Int) (session : ClientSession)
      (h : s.sessions.lookup fd = some session) (hopen : session.closing = false) :
      Beat s (s.beginOrderlyClose fd .fin)
  | writable (s : ExchangeServer) (fd : Int) : Beat s (s.onWritable fd)
  | abort (s : ExchangeServer) (fd : Int) (reason : DropReason)
      (h : reason.orderly = false) : Beat s (s.drop fd reason)
  | accept (s : ExchangeServer) (fd : Int) (peer : Bytes) (hfd : fd ∉ s.kernel.openFds)
      (h : s.sessions.lookup fd = none) (hnonneg : 0 ≤ fd) :
      Beat s ((s.welcome fd peer).register fd)
  | bounce (s : ExchangeServer) (fd : Int) (hfd : fd ∉ s.kernel.openFds) :
      Beat s (((s.openFd fd).observe (.bounced fd)).closeFd fd)
  | pause (s : ExchangeServer) : Beat s s.pauseAccepting
  | resume (s : ExchangeServer) : Beat s s.resumeAcceptingIfDue
  | reap (s : ExchangeServer) : Beat s s.reapClosed

abbrev Beats : ExchangeServer → ExchangeServer → Prop := Relation.ReflTransGen Beat

section Beats

variable {s : ExchangeServer}

theorem Beat.stage {s' : ExchangeServer} (hbeat : Beat s s') : Stage s s' := by
  cases hbeat with
  | receive fd session bytes h hopen => exact Stage.receive s fd session bytes h hopen
  | line fd session line tail h hopen hline => exact handleLine_stage h hopen hline
  | oversized fd session h hopen => exact Stage.oversized s fd session h hopen
  | fin fd session h hopen => exact Stage.fin s fd session h hopen
  | writable fd => exact Stage.writable s fd
  | abort fd reason h => exact Stage.abort s fd reason h
  | accept fd peer hfd h hnonneg => exact Stage.accept s fd peer hfd h hnonneg
  | bounce fd hfd => exact Stage.bounce s fd hfd
  | pause => exact Stage.pause s
  | resume => exact Stage.resume s
  | reap => exact Stage.reap s

theorem Beats.moves (hb : Base s) {s' : ExchangeServer} (hbeats : Beats s s') : Moves s s' :=
  Stages.moves hb (Relation.ReflTransGen.mono (fun _ _ hbeat => hbeat.stage) _ _ hbeats)

theorem consume_beats {fd : Int} {session : ClientSession} (chunk : Chunk)
    (h : s.sessions.lookup fd = some session) (hopen : session.closing = false) :
    Beats s ((s.receive fd session chunk.bytes).consumeMessages fd).1 := by
  refine consumeLoop_invariant (I := Beats s) ?_ ?_ _ ?_
    (Relation.ReflTransGen.single (Beat.receive s fd session chunk.bytes h hopen))
  · intro s₁ x line tail hx hopen' hline hbeats
    exact hbeats.tail (Beat.line s₁ fd x line tail hx hopen' hline)
  · intro s₁ x hx hopen' _ _ hbeats
    exact hbeats.tail (Beat.oversized s₁ fd x hx hopen')
  · intro x hx
    rw [receive_lookup] at hx
    cases hx
    exact hopen

theorem onReadable_beats (fd : Int) (script : List RecvOutcome) :
    Beats s (onReadable fd script s) := by
  refine onReadable_invariant (I := Beats s) ?_ ?_ ?_ script Relation.ReflTransGen.refl
  · intro s₁ session chunk h hopen hbeats
    exact hbeats.trans (consume_beats chunk h hopen)
  · intro s₁ session h hopen hbeats
    exact hbeats.tail (Beat.fin s₁ fd session h hopen)
  · intro s₁ hbeats
    exact hbeats.tail (Beat.abort s₁ fd .recvFailed rfl)

theorem acceptPending_beats (hb : Base s) (script : List AcceptOutcome) :
    Beats s (acceptPending script s) := by
  induction script generalizing s with
  | nil => exact Relation.ReflTransGen.refl
  | cons outcome script ih =>
      cases outcome with
      | again | aborted | failed => exact Relation.ReflTransGen.refl
      | exhausted => exact Relation.ReflTransGen.single (Beat.pause s)
      | connection fd peer nonblocking =>
          unfold acceptPending
          split
          · exact Relation.ReflTransGen.refl
          · next hfd =>
            dsimp only
            split
            · exact Relation.ReflTransGen.single (Beat.bounce s fd hfd)
            · rw [hb.emplace hfd]
              have haccept := Beat.accept s fd peer hfd (hb.lookup_none hfd)
                (Int.natCast_nonneg fd)
              exact Relation.ReflTransGen.head haccept (ih ((haccept.stage.moves hb).base hb))

theorem onEvent_beats (hb : Base s) (e : Event) (a : Answers) : Beats s (s.onEvent e a) := by
  by_cases hne : e.fd = s.listenerFd
  · unfold onEvent
    rw [if_pos hne]
    exact acceptPending_beats hb _
  · refine onEvent_invariant (I := Beats s) ?_ ?_ ?_ hne Relation.ReflTransGen.refl
    · intro s₁ hbeats
      exact hbeats.tail (Beat.writable s₁ e.fd)
    · intro s₁ hbeats
      exact hbeats.trans (onReadable_beats e.fd a.recvs)
    · intro s₁ hbeats
      exact hbeats.tail (Beat.abort s₁ e.fd .hangup rfl)

end Beats

/-- **A turn is a sequence of beats**, once its answers are laid out. -/
theorem turn_beats {s : ExchangeServer} (hb : Base s) (t : Turn) :
    Beats (s.load t.answers) (s.turn t) := by
  have hb' : Base (s.load t.answers) := (Env.load s t.answers).base hb
  unfold turn
  dsimp only
  split
  · exact Relation.ReflTransGen.single (Beat.resume _)
  · exact onEvent_beats hb' _ t.answers
  · exact Relation.ReflTransGen.single (Beat.reap _)

/-- **Invariant rule for runs of beats.** -/
theorem run_beat_invariant {I : ExchangeServer → Prop} (c : Setup)
    (hstart : I (ExchangeServer.start c.backend c.listenerFd c.openFds c.clock))
    (hload : ∀ s a, I s → I (s.load a))
    (hbeat : ∀ s s', Reachable c s → Beat s s' → I s → I s') (turns : List Turn) :
    I (run c turns) := by
  have hrun : Reachable c (run c turns) ∧ I (run c turns) := by
    refine Loop.run_invariant (I := fun s => Reachable c s ∧ I s) (P := fun _ => True) ?_
      ⟨Relation.ReflTransGen.refl, hstart⟩ fun _ _ => trivial
    rintro s t _ ⟨hreach, hi⟩
    have hload' : Reachable c (s.load t.answers) :=
      Relation.ReflTransGen.tail hreach (Move.env _ (Env.load s t.answers))
    have hbeats := turn_beats hreach.base t
    refine ⟨hload'.trans (Beats.moves hload'.base hbeats), ?_⟩
    have hall : ∀ s', Beats (s.load t.answers) s' → I s' := by
      intro s' hs'
      induction hs' with
      | refl => exact hload s t.answers hi
      | tail hbefore hlast ih =>
          exact hbeat _ _ (hload'.trans (Beats.moves hload'.base hbefore)) hlast ih
    exact hall _ hbeats
  exact hrun.2

end SocketExchange.Server
