import SocketExchange.Server.Wakeups

/-!
# A descriptor is enrolled afresh

Descriptor numbers are used again.  Whether the event loop takes a new connection
must not depend on what happened to an earlier one with the same number, and with
`kq_interest_` it could: an entry left behind would make `kq_apply` leave out the
change it is called for.

Nothing is left behind.  `drop` removes the entry, a registration that fails leaves
an entry that wants nothing, and all other calls are about descriptors in use.  This
holds whether or not the kernel rejects changes.
-/

namespace SocketExchange.Network

/-! ## The entry of a descriptor -/

/-- What `kq_interest_[fd]` would yield.  The other backend keeps no such copy. -/
def EventLoop.interest (l : EventLoop) (fd : Int) : Interest :=
  match l.backend with
  | .poll => {}
  | .kqueue => (l.kqInterest.lookup fd).getD {}

section Interest

variable (l : EventLoop) {fd fd' : Int}

private theorem kqApply_interest (want : Interest) (hne : fd' ≠ fd) :
    (l.kqApply fd want).1.kqInterest.lookup fd' = l.kqInterest.lookup fd' := by
  unfold EventLoop.kqApply
  dsimp only
  split
  · exact AList.lookup_insert_ne hne
  · exact (AList.lookup_insert_ne hne).trans (AList.lookup_insert_ne hne)

variable (wantRead wantWrite : Bool)

/-- A call about one descriptor is not about another. -/
theorem interest_add (hne : fd' ≠ fd) :
    (l.add fd wantRead wantWrite).1.interest fd' = l.interest fd' := by
  unfold EventLoop.interest
  rw [backend_add]
  cases hb : l.backend with
  | poll => rfl
  | kqueue =>
      simp only [EventLoop.add, hb]
      rw [kqApply_interest l _ hne]

theorem interest_update (hne : fd' ≠ fd) :
    (l.update fd wantRead wantWrite).1.interest fd' = l.interest fd' := by
  unfold EventLoop.interest
  rw [backend_update]
  cases hb : l.backend with
  | poll => rfl
  | kqueue =>
      simp only [EventLoop.update, hb]
      rw [kqApply_interest l _ hne]

theorem interest_remove (fd fd' : Int) :
    (l.remove fd).interest fd' = if fd' = fd then {} else l.interest fd' := by
  unfold EventLoop.interest
  rw [backend_remove]
  cases hb : l.backend with
  | poll => simp
  | kqueue =>
      simp only [EventLoop.remove, hb, EventLoop.kqRemove]
      by_cases hfd : fd' = fd
      · subst hfd
        rw [if_pos rfl]
        split
        · next hnone => rw [hnone]; rfl
        · rw [AList.lookup_erase]; rfl
      · rw [if_neg hfd]
        split
        · rfl
        · rw [AList.lookup_erase_ne hfd]

/-- The kernel refuses; the entry stays as it was. -/
theorem interest_of_refused (hno : (l.add fd wantRead wantWrite).2 = false) :
    (l.add fd wantRead wantWrite).1.interest fd = l.interest fd := by
  unfold EventLoop.interest
  rw [backend_add]
  cases hb : l.backend with
  | poll => rfl
  | kqueue =>
      simp only [EventLoop.add, hb, EventLoop.kqApply] at hno ⊢
      split at hno
      · simp
      · cases hno

end Interest

/-- One filter is installed, or the kernel refuses: its next answer decides. -/
private theorem kqApply_fresh {l l' : EventLoop} {fd : Int}
    (h : (l.kqInterest.lookup fd).getD {} = {}) (h' : (l'.kqInterest.lookup fd).getD {} = {})
    (ha : l.kq.answers = l'.kq.answers) :
    (l.kqApply fd ⟨true, false⟩).2 = (l'.kqApply fd ⟨true, false⟩).2 ∧
      (l.kqApply fd ⟨true, false⟩).1.kq.answers =
        (l'.kqApply fd ⟨true, false⟩).1.kq.answers := by
  have hchanges : interestChanges fd {} ⟨true, false⟩ = [⟨fd, .read, true⟩] := rfl
  unfold EventLoop.kqApply
  dsimp only
  rw [h, h', hchanges]
  simp only [Kqueue.kevent, Kqueue.answer, Kqueue.applyChange, if_true, ← ha]
  cases hanswers : l.kq.answers with
  | nil => exact ⟨rfl, by simp [hanswers, ← ha]⟩
  | cons a answers =>
      cases a with
      | applied => exact ⟨rfl, rfl⟩
      | rejected errno => cases errno <;> exact ⟨rfl, rfl⟩

private theorem kq_pollAdd (l : EventLoop) (fd : Int) (want : Interest) :
    (l.pollAdd fd want).kq = l.kq := by
  unfold EventLoop.pollAdd EventLoop.pollUpdate
  split
  · split <;> rfl
  · rfl

/-- **Only the kernel decides.**  A descriptor without an entry is registered, or not,
as the next answers say. -/
theorem add_fresh {l l' : EventLoop} {fd : Int} (h : l.interest fd = {})
    (h' : l'.interest fd = {}) (hb : l.backend = l'.backend)
    (ha : l.kq.answers = l'.kq.answers) :
    (l.add fd true false).2 = (l'.add fd true false).2 ∧
      (l.add fd true false).1.kq.answers = (l'.add fd true false).1.kq.answers := by
  unfold EventLoop.interest at h h'
  rw [← hb] at h'
  unfold EventLoop.add
  rw [← hb]
  cases hback : l.backend with
  | poll =>
      dsimp only
      rw [kq_pollAdd, kq_pollAdd]
      exact ⟨rfl, ha⟩
  | kqueue =>
      rw [hback] at h h'
      exact kqApply_fresh h h' ha

end SocketExchange.Network

namespace SocketExchange.Server

open SocketExchange.Lib
open SocketExchange.Lib.Bytes
open SocketExchange.Network
open SocketExchange.Protocol
open SocketExchange.Trading.OrderBook
open ExchangeServer

/-! ## Nothing is left behind -/

/-- The event loop wants nothing of a descriptor that has no session. -/
def Unlisted (s : ExchangeServer) : Prop :=
  ∀ fd, fd ≠ s.listenerFd → s.sessions.lookup fd = none → s.loop.interest fd = {}

section Unlisted

variable {s s' : ExchangeServer} (hu : Unlisted s)

include hu

/-- A descriptor without a session had none before and was not touched, or has been
cleared. -/
private theorem Unlisted.of (hf : s'.listenerFd = s.listenerFd)
    (h : ∀ fd, fd ≠ s.listenerFd → s'.sessions.lookup fd = none →
      s'.loop.interest fd = {} ∨
        s.sessions.lookup fd = none ∧ s'.loop.interest fd = s.loop.interest fd) :
    Unlisted s' := by
  intro fd hne hnone
  rw [hf] at hne
  rcases h fd hne hnone with hclear | ⟨hbefore, hsame⟩
  · exact hclear
  · rw [hsame]
    exact hu fd hne hbefore

/-- Neither the sessions that are there nor the event loop change. -/
private theorem Unlisted.same (hs : ∀ fd, s'.sessions.lookup fd = none →
    s.sessions.lookup fd = none) (hf : s'.listenerFd = s.listenerFd)
    (hloop : s'.loop = s.loop) : Unlisted s' :=
  hu.of hf fun fd _ hnone => Or.inr ⟨hs fd hnone, by rw [hloop]⟩

omit hu in
theorem lookup_none_of_insert {m : SessionMap} {fd fd' : Int} {session : ClientSession}
    (h : (m.insert fd session).lookup fd' = none) : fd' ≠ fd ∧ m.lookup fd' = none := by
  rw [lookup_insert] at h
  split at h
  · cases h
  · next hne => exact ⟨hne, h⟩

/-- A session is written. -/
private theorem Unlisted.put {fd : Int} {session : ClientSession}
    (hs : s'.sessions = s.sessions.insert fd session) (hf : s'.listenerFd = s.listenerFd)
    (hloop : s'.loop = s.loop) : Unlisted s' := by
  refine hu.same (fun fd' hnone => ?_) hf hloop
  rw [hs] at hnone
  exact (lookup_none_of_insert hnone).2

/-- A session is written, and the event loop is told about it. -/
private theorem Unlisted.update {fd : Int} {session : ClientSession} {wantRead wantWrite : Bool}
    (hs : s'.sessions = s.sessions.insert fd session) (hf : s'.listenerFd = s.listenerFd)
    (hloop : s'.loop = (s.loop.update fd wantRead wantWrite).1) : Unlisted s' := by
  refine hu.of hf fun fd' _ hnone => Or.inr ?_
  rw [hs] at hnone
  obtain ⟨hne, hbefore⟩ := lookup_none_of_insert hnone
  exact ⟨hbefore, by rw [hloop, interest_update _ _ _ hne]⟩

theorem drop_unlisted (fd : Int) (reason : DropReason) : Unlisted (s.drop fd reason) := by
  cases h : s.sessions.lookup fd with
  | none =>
      rw [drop_of_lookup_none h]
      exact hu
  | some session =>
      have hloop : (s.drop fd reason).loop = s.loop.remove fd := by
        simp only [ExchangeServer.drop, h]
      have hf : (s.drop fd reason).listenerFd = s.listenerFd := by
        simp only [ExchangeServer.drop, h]
      refine hu.of hf fun fd' _ hnone => ?_
      rw [drop_sessions] at hnone
      rw [hloop, interest_remove]
      by_cases hfd : fd' = fd
      · exact Or.inl (if_pos hfd)
      · rw [if_neg hfd] at hnone ⊢
        exact Or.inr ⟨hnone, rfl⟩

theorem flush_unlisted {key : Int} {session : ClientSession} (hkey : session.fd = key) :
    Unlisted (s.flush key session) := by
  subst hkey
  unfold ExchangeServer.flush
  dsimp only
  split
  · exact drop_unlisted (s := s.written session.fd session.fd _) (hu.put rfl rfl rfl) _ _
  · exact hu.update rfl rfl rfl
  · exact hu.put rfl rfl rfl

theorem sendTo_unlisted (hb : Base s) (dest : Int) (message : Response) :
    Unlisted (s.sendTo dest message) := by
  unfold ExchangeServer.sendTo
  split
  · exact hu
  · next session h =>
    have hqueued : Unlisted ((s.putSession dest (session.append message.render)).observe
        (.queued dest message)) := hu.put rfl rfl rfl
    exact flush_unlisted hqueued (hb.own dest session h)

theorem beginOrderlyClose_unlisted (fd : Int) (reason : DropReason) :
    Unlisted (s.beginOrderlyClose fd reason) := by
  unfold ExchangeServer.beginOrderlyClose
  split
  · exact hu
  · next session h =>
    have hleaving : Unlisted ((s.putSession fd
        { session with closing := true, inbuf := [] }).observe (.leaving fd reason)) :=
      hu.put rfl rfl rfl
    dsimp only
    split
    · exact drop_unlisted hleaving fd reason
    · exact Unlisted.update hleaving rfl rfl rfl

/-- The new session stays, or goes without having left anything. -/
theorem register_unlisted {fd : Int} {peer : Bytes} (hne : fd ≠ s.listenerFd)
    (hnone : s.sessions.lookup fd = none) : Unlisted ((s.welcome fd peer).register fd) := by
  have hrefused : (s.loop.add fd true false).2 = false →
      (s.loop.add fd true false).1.interest fd = s.loop.interest fd :=
    interest_of_refused s.loop true false
  have hloop : (s.welcome fd peer).loop = s.loop := rfl
  unfold register
  dsimp only
  rw [hloop]
  split
  · refine hu.of rfl fun fd' _ hgone => Or.inr ?_
    obtain ⟨hother, hbefore⟩ := lookup_none_of_insert hgone
    exact ⟨hbefore, interest_add _ _ _ hother⟩
  · next hno =>
    refine hu.of rfl fun fd' _ hgone => Or.inr ?_
    by_cases hfd : fd' = fd
    · subst hfd
      exact ⟨hnone, hrefused (by simpa using hno)⟩
    · have hbefore : ((s.welcome fd peer).sessions.erase fd).lookup fd' = none := hgone
      rw [lookup_erase, if_neg hfd] at hbefore
      exact ⟨(lookup_none_of_insert hbefore).2, interest_add _ _ _ hfd⟩

theorem Effect.unlisted {fd : Int} {line : Bytes} {reply : Response}
    {es : List TradeExecution} (he : Effect fd line s s' reply es) : Unlisted s' := by
  cases he with
  | refuse session reason h hplain => exact hu
  | login | subscribe | unsubscribe => exact hu.put rfl rfl rfl
  | order session h hrole hin hcmd => exact hu
  | cancel session orderId h hin hok => exact hu

/-- Pausing and resuming are about the listener. -/
private theorem Unlisted.listener (wantRead wantWrite : Bool) (resumeAt : Nat) :
    Unlisted { s with
      acceptResumeAt := resumeAt
      loop := (s.loop.update s.listenerFd wantRead wantWrite).1 } :=
  hu.of rfl fun _ hne hnone => Or.inr ⟨hnone, interest_update _ _ _ hne⟩

/-- **The step lemma.** -/
theorem Stage.unlisted (hstage : Stage s s') (hb : Base s) (hl : Listening s) :
    Unlisted s' := by
  cases hstage with
  | receive fd session bytes h hopen => exact hu.put rfl rfl rfl
  | @line fd session line tail h hopen hline hquit s₁ reply es he =>
      have htake := Serve.take s session line tail h hline
      have htaken : Unlisted (s.taken fd session (stripCarriageReturn line) tail) :=
        hu.put rfl rfl rfl
      exact settle_invariant (I := Unlisted) (M := fun _ _ => True)
        (fun _ dest message _ hb hu => sendTo_unlisted hu hb dest message)
        (he.acts.base (htake.base hb)) (he.unlisted htaken) trivial fun e _ => noticesAre_any e
  | quit fd session line tail h hopen hline hquit =>
      have htaken : Unlisted (s.taken fd session (stripCarriageReturn line) tail) :=
        hu.put rfl rfl rfl
      exact beginOrderlyClose_unlisted htaken fd .quit
  | oversized fd session h hopen =>
      exact beginOrderlyClose_unlisted (sendTo_unlisted hu hb fd oversizedMessage) fd .oversized
  | fin fd session h hopen => exact beginOrderlyClose_unlisted hu fd .fin
  | writable fd =>
      unfold onWritable
      split
      · exact hu
      · next session h => exact flush_unlisted hu (hb.own fd session h)
  | abort fd reason h => exact drop_unlisted hu fd reason
  | accept fd peer hfd h hnonneg =>
      refine register_unlisted hu ?_ h
      rintro rfl
      exact hfd hl.isOpen
  | bounce fd hfd => exact hu
  | pause =>
      unfold pauseAccepting
      split
      · exact hu
      · exact hu.listener false false _
  | resume =>
      unfold resumeAcceptingIfDue
      split
      · exact hu
      · split
        · exact hu
        · exact hu.listener true false 0
  | reap =>
      obtain ⟨hlistener, hloop, _⟩ := reapClosed_loop s
      refine hu.same (fun fd hnone => ?_) hlistener hloop
      rw [(reapClosed_tables s).1] at hnone
      exact hnone

theorem Stages.unlisted (hstages : Stages s s') (hb : Base s) (hl : Listening s) :
    Unlisted s' := by
  induction hstages with
  | refl => exact hu
  | tail hbefore hstage ih =>
      have hmoves := Stages.moves hb hbefore
      exact hstage.unlisted ih (hmoves.base hb)
        (Moves.invariant hmoves (fun _ _ hmove hl => hmove.listening hl) hl)

end Unlisted

/-- **The run lemma.**  Descriptors without a session have no entry, whatever the kernel
answered. -/
theorem run_unlisted (c : Setup) (turns : List Turn) : Unlisted (run c turns) := by
  refine run_stage_invariant (P := fun _ => True) c ?_ ?_ ?_ (fun _ _ => trivial)
  · intro fd hne _
    have hempty : EventLoop.interest { backend := c.backend } fd = {} := by
      cases hb : c.backend <;> simp [EventLoop.interest]
    exact (interest_add _ true false hne).trans hempty
  · exact fun s a _ hu => hu
  · exact fun s s' hreach hstage hu => hstage.unlisted hu hreach.base hreach.listening

end SocketExchange.Server
