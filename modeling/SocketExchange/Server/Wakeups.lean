import SocketExchange.Network.Registration
import SocketExchange.Server.Rest

/-!
# No wakeup is lost

A session keeps copies of the interest it is registered with, and the event loop is
told only when a copy changes.  So the copies must be right at all times: a session
with output whose flag says that it has none would wait for ever.

The server determines a table of interests: the listening socket's, and one entry per
session made of its flags.  The invariant is that the event loop holds exactly this
table.
-/

namespace SocketExchange.Server

open SocketExchange.Lib
open SocketExchange.Lib.Bytes
open SocketExchange.Network
open SocketExchange.Protocol
open SocketExchange.Trading.OrderBook
open ExchangeServer

/-! ## The listening socket -/

/-- The listening socket is open, and is not the socket of a session. -/
structure Listening (s : ExchangeServer) : Prop where
  isOpen : s.listenerFd ∈ s.kernel.openFds
  noSession : s.sessions.lookup s.listenerFd = none
  notClosed : s.listenerFd ∉ s.closedFds

namespace Listening

variable {s s' : ExchangeServer} (hl : Listening s)

include hl

/-- A session is not the listener. -/
theorem ne {fd : Int} {session : ClientSession} (h : s.sessions.lookup fd = some session) :
    fd ≠ s.listenerFd := by
  rintro rfl
  rw [hl.noSession] at h
  cases h

private theorem put {fd : Int} {session session' : ClientSession}
    (h : s.sessions.lookup fd = some session) (hs : s'.sessions = s.sessions.insert fd session')
    (hf : s'.listenerFd = s.listenerFd) (hc : s'.closedFds = s.closedFds)
    (ho : s'.kernel.openFds = s.kernel.openFds) : Listening s' where
  isOpen := by
    rw [hf, ho]
    exact hl.isOpen
  noSession := by
    rw [hs, hf, lookup_insert, if_neg (hl.ne h).symm]
    exact hl.noSession
  notClosed := by
    rw [hf, hc]
    exact hl.notClosed

private theorem same (hs : s'.sessions = s.sessions) (hf : s'.listenerFd = s.listenerFd)
    (hc : s'.closedFds = s.closedFds) (ho : s'.kernel.openFds = s.kernel.openFds) :
    Listening s' where
  isOpen := by
    rw [hf, ho]
    exact hl.isOpen
  noSession := by
    rw [hs, hf]
    exact hl.noSession
  notClosed := by
    rw [hf, hc]
    exact hl.notClosed

private theorem drop (fd : Int) (reason : DropReason) : Listening (s.drop fd reason) := by
  cases h : s.sessions.lookup fd with
  | none =>
      rw [drop_of_lookup_none h]
      exact hl
  | some session =>
      have hlistener : (s.drop fd reason).listenerFd = s.listenerFd := by
        simp only [ExchangeServer.drop, h]
      refine ⟨?_, ?_, ?_⟩
      · rw [hlistener, drop_kernel]
        exact hl.isOpen
      · rw [hlistener, drop_sessions, if_neg (hl.ne h).symm]
        exact hl.noSession
      · simp only [ExchangeServer.drop, h, List.mem_append, List.mem_singleton, not_or]
        exact ⟨hl.notClosed, (hl.ne h).symm⟩

end Listening

theorem Act.listening {fd : Int} {s s' : ExchangeServer} (hact : Act fd s s')
    (hl : Listening s) : Listening s' := by
  cases hact with
  | queue dest session message h howed => exact hl.put h rfl rfl rfl rfl
  | write dest session h => exact hl.put h rfl rfl rfl rfl
  | drop dest reason h => exact hl.drop dest reason
  | relist loop => exact hl.same rfl rfl rfl rfl
  | leave session reason h => exact hl.put h rfl rfl rfl rfl
  | interest session wantRead wantWrite h => exact hl.put h rfl rfl rfl rfl
  | login session username h hrole hout hfree => exact hl.put h rfl rfl rfl rfl
  | subscribe session instrument h hrole => exact hl.put h rfl rfl rfl rfl
  | unsubscribe session instrument h hrole hin => exact hl.put h rfl rfl rfl rfl
  | submit session cmd h hrole hin hcmd => exact hl.same rfl rfl rfl rfl
  | cancel session orderId h hin hok => exact hl.same rfl rfl rfl rfl

/-- Closing descriptors is no business of the event loop. -/
theorem reapClosed_loop (s : ExchangeServer) :
    s.reapClosed.listenerFd = s.listenerFd ∧ s.reapClosed.loop = s.loop ∧
      s.reapClosed.acceptResumeAt = s.acceptResumeAt := by
  rw [reapClosed_eq]
  exact ⟨rfl, rfl, rfl⟩

theorem Env.listening {s s' : ExchangeServer} (henv : Env s s') (hl : Listening s) :
    Listening s' := by
  cases henv with
  | accept fd peer hfd h hnonneg =>
      have hne : s.listenerFd ≠ fd := by
        rintro rfl
        exact hfd hl.isOpen
      refine ⟨List.mem_cons_of_mem _ hl.isOpen, ?_, hl.notClosed⟩
      show (s.sessions.insert fd _).lookup s.listenerFd = none
      rw [lookup_insert, if_neg hne]
      exact hl.noSession
  | refuse fd peer h =>
      have hne := (hl.ne h).symm
      refine ⟨?_, ?_, hl.notClosed⟩
      · show s.listenerFd ∈ s.kernel.openFds.filter (· ≠ fd)
        simp [hl.isOpen, hne]
      · show (s.sessions.erase fd).lookup s.listenerFd = none
        rw [lookup_erase, if_neg hne]
        exact hl.noSession
  | bounce fd hfd =>
      have hne : s.listenerFd ≠ fd := by
        rintro rfl
        exact hfd hl.isOpen
      refine ⟨?_, hl.noSession, hl.notClosed⟩
      show s.listenerFd ∈ (fd :: s.kernel.openFds).filter (· ≠ fd)
      simp [hl.isOpen, hne]
  | reap =>
      have hlistener := (reapClosed_loop s).1
      refine ⟨?_, ?_, List.not_mem_nil⟩
      · rw [hlistener]
        exact (mem_reapClosed_open s s.listenerFd).mpr ⟨hl.isOpen, hl.notClosed⟩
      · rw [hlistener, (reapClosed_tables s).1]
        exact hl.noSession
  | timer resumeAt loop => exact hl.same rfl rfl rfl rfl
  | load a => exact hl.same rfl rfl rfl rfl

theorem Move.listening {s s' : ExchangeServer} (hmove : Move s s') (hl : Listening s) :
    Listening s' := by
  cases hmove with
  | serve hserve =>
      cases hserve with
      | act hact => exact hact.listening hl
      | receive session bytes h hopen => exact hl.put h rfl rfl rfl rfl
      | take session line tail h hline => exact hl.put h rfl rfl rfl rfl
      | handled line => exact hl.same rfl rfl rfl rfl
  | env henv => exact henv.listening hl

/-- The server listens on one socket throughout. -/
theorem Move.listenerFd {s s' : ExchangeServer} (hmove : Move s s') :
    s'.listenerFd = s.listenerFd := by
  cases hmove with
  | serve hserve =>
      cases hserve with
      | act hact =>
          cases hact with
          | drop dest reason h =>
              unfold ExchangeServer.drop
              split <;> rfl
          | queue | write | relist | leave | interest | login | subscribe | unsubscribe
          | submit | cancel => rfl
      | receive | take | handled => rfl
  | env henv =>
      cases henv with
      | reap => exact (reapClosed_loop s).1
      | accept | refuse | bounce | timer | load => rfl

theorem Moves.listenerFd {s s' : ExchangeServer} (hmoves : Moves s s') :
    s'.listenerFd = s.listenerFd := by
  induction hmoves with
  | refl => rfl
  | tail _ hmove ih => exact hmove.listenerFd.trans ih

theorem Reachable.listening {c : Setup} {s : ExchangeServer} (h : Reachable c s) :
    Listening s := by
  refine Moves.invariant h (fun _ _ hmove hl => hmove.listening hl) ⟨?_, ?_, ?_⟩
  · simp [ExchangeServer.start]
  · simp [ExchangeServer.start]
  · simp [ExchangeServer.start]

/-! ## The table the server asks for -/

/-- The interests of the listening socket and of every session, as the flags say. -/
def ExchangeServer.interests (s : ExchangeServer) : Interests := fun fd =>
  if fd = s.listenerFd then some ⟨decide (s.acceptResumeAt = 0), false⟩
  else (s.sessions.lookup fd).map fun session => ⟨session.readInterest, session.writeInterest⟩

/-- **The event loop holds what the flags say.** -/
def Registered (backend : Backend) (s : ExchangeServer) : Prop :=
  s.loop.Holds backend s.interests

section Interests

variable {s s' : ExchangeServer} {fd : Int}

theorem interests_of_lookup (hl : Listening s) {session : ClientSession}
    (h : s.sessions.lookup fd = some session) :
    s.interests fd = some ⟨session.readInterest, session.writeInterest⟩ := by
  rw [ExchangeServer.interests, if_neg (hl.ne h), h]
  rfl

/-- One session is written. -/
theorem interests_put (hne : fd ≠ s.listenerFd) {session : ClientSession}
    (hs : s'.sessions = s.sessions.insert fd session) (hf : s'.listenerFd = s.listenerFd)
    (ha : s'.acceptResumeAt = s.acceptResumeAt) :
    s'.interests = Function.update s.interests fd
      (some ⟨session.readInterest, session.writeInterest⟩) := by
  funext fd'
  rw [ExchangeServer.interests, hs, hf, ha, lookup_insert]
  by_cases hfd : fd' = fd
  · rw [hfd, Function.update_self, if_neg hne, if_pos rfl]
    rfl
  · rw [Function.update_of_ne hfd, if_neg hfd]
    rfl

/-- One session is erased. -/
theorem interests_erase (hne : fd ≠ s.listenerFd) (hs : s'.sessions = s.sessions.erase fd)
    (hf : s'.listenerFd = s.listenerFd) (ha : s'.acceptResumeAt = s.acceptResumeAt) :
    s'.interests = Function.update s.interests fd none := by
  funext fd'
  rw [ExchangeServer.interests, hs, hf, ha, lookup_erase]
  by_cases hfd : fd' = fd
  · rw [hfd, Function.update_self, if_neg hne, if_pos rfl]
    rfl
  · rw [Function.update_of_ne hfd, if_neg hfd]
    rfl

/-- A session whose flags stay as they are. -/
theorem interests_same (hl : Listening s) {session session' : ClientSession}
    (h : s.sessions.lookup fd = some session) (hs : s'.sessions = s.sessions.insert fd session')
    (hread : session'.readInterest = session.readInterest)
    (hwrite : session'.writeInterest = session.writeInterest)
    (hf : s'.listenerFd = s.listenerFd) (ha : s'.acceptResumeAt = s.acceptResumeAt) :
    s'.interests = s.interests := by
  rw [interests_put (hl.ne h) hs hf ha, hread, hwrite, ← interests_of_lookup hl h,
    Function.update_eq_self]

end Interests

/-! ## Every stage keeps the two together -/

section Keeps

variable {backend : Backend} {s : ExchangeServer} (hl : Listening s) (hr : Registered backend s)

include hl hr

theorem drop_registered (fd : Int) (reason : DropReason) :
    Registered backend (s.drop fd reason) := by
  cases h : s.sessions.lookup fd with
  | none =>
      rw [drop_of_lookup_none h]
      exact hr
  | some session =>
      have hinterests : (s.drop fd reason).interests = Function.update s.interests fd none := by
        refine interests_erase (hl.ne h) ?_ ?_ ?_
        all_goals simp only [ExchangeServer.drop, h]
      have hloop : (s.drop fd reason).loop = s.loop.remove fd := by
        simp only [ExchangeServer.drop, h]
      rw [Registered, hinterests, hloop]
      exact hr.remove fd

/-- A session is rewritten, and nothing the event loop depends on. -/
private theorem put_registered {s' : ExchangeServer} {fd : Int}
    {session session' : ClientSession} (h : s.sessions.lookup fd = some session)
    (hs : s'.sessions = s.sessions.insert fd session')
    (hread : session'.readInterest = session.readInterest)
    (hwrite : session'.writeInterest = session.writeInterest)
    (hf : s'.listenerFd = s.listenerFd) (ha : s'.acceptResumeAt = s.acceptResumeAt)
    (hloop : s'.loop = s.loop) : Registered backend s' := by
  rw [Registered, interests_same hl h hs hread hwrite hf ha, hloop]
  exact hr

/-- A session is rewritten, and the event loop is told its new flags. -/
private theorem update_registered {s' : ExchangeServer} {fd : Int}
    {session session' : ClientSession} (h : s.sessions.lookup fd = some session)
    (hs : s'.sessions = s.sessions.insert fd session') (hf : s'.listenerFd = s.listenerFd)
    (ha : s'.acceptResumeAt = s.acceptResumeAt)
    (hloop : s'.loop =
      (s.loop.update fd session'.readInterest session'.writeInterest).1) :
    Registered backend s' := by
  rw [Registered, interests_put (hl.ne h) hs hf ha, hloop]
  exact hr.update fd _ _

/-- **A flush tells the event loop exactly when a flag changes.** -/
theorem flush_registered {key : Int} {session : ClientSession}
    (h : s.sessions.lookup key = some session) (hkey : session.fd = key) :
    Registered backend (s.flush key session) := by
  subst hkey
  have hflags := flush_interest session (s.kernel.sends session.fd)
  rw [Prod.mk.injEq] at hflags
  unfold ExchangeServer.flush
  dsimp only
  split
  · next reason hend =>
    rw [hend] at hflags
    have hl' : Listening (s.written session.fd session.fd
        (session.flush (s.kernel.sends session.fd))) :=
      (Act.write s session.fd session h : Act session.fd s _).listening hl
    exact drop_registered hl'
      (put_registered hl hr h rfl hflags.1 hflags.2 rfl rfl rfl) _ _
  · next wantRead wantWrite hend =>
    rw [hend] at hflags
    refine update_registered hl hr h rfl rfl rfl ?_
    rw [hflags.1, hflags.2]
    rfl
  · next hend =>
    rw [hend] at hflags
    exact put_registered hl hr h rfl hflags.1 hflags.2 rfl rfl rfl

theorem beginOrderlyClose_registered (fd : Int) (reason : DropReason) :
    Registered backend (s.beginOrderlyClose fd reason) := by
  unfold beginOrderlyClose
  split
  · exact hr
  · next session h =>
    dsimp only
    have hl' := (Act.leave s session reason h).listening hl
    have hr' : Registered backend ((s.putSession fd
        { session with closing := true, inbuf := [] }).observe (.leaving fd reason)) :=
      put_registered hl hr h rfl rfl rfl rfl rfl rfl
    split
    · exact drop_registered hl' hr' fd reason
    · have hlookup : ((s.putSession fd
          { session with closing := true, inbuf := [] }).observe
            (.leaving fd reason)).sessions.lookup fd =
              some { session with closing := true, inbuf := [] } := by
        simp [observe, putSession]
      exact update_registered hl' hr' hlookup rfl rfl rfl rfl

end Keeps

theorem sendTo_registered {backend : Backend} {s : ExchangeServer} (hb : Base s) (hl : Listening s)
    (hr : Registered backend s) (dest : Int) (message : Response) :
    Listening (s.sendTo dest message) ∧ Registered backend (s.sendTo dest message) := by
  rcases sendTo_cases hb dest dest message with ⟨_, hsame⟩ | ⟨session, h, hb', hacts⟩
  · rw [hsame]
    exact ⟨hl, hr⟩
  · have hl' : Listening ((s.putSession dest (session.append message.render)).observe
        (.queued dest message)) := hl.put h rfl rfl rfl rfl
    have hr' : Registered backend ((s.putSession dest (session.append message.render)).observe
        (.queued dest message)) := put_registered hl hr h rfl rfl rfl rfl rfl rfl
    refine ⟨hacts.invariant (fun _ _ hact hl => hact.listening hl) hl', ?_⟩
    have hlookup : ((s.putSession dest (session.append message.render)).observe
        (.queued dest message)).sessions.lookup dest = some (session.append message.render) := by
      simp [observe, putSession]
    simp only [sendTo, h]
    exact flush_registered hl' hr' hlookup (hb.own dest session h)

theorem Effect.registered {backend : Backend} {fd : Int} {line : Bytes} {s s₁ : ExchangeServer}
    {reply : Response} {es : List TradeExecution} (he : Effect fd line s s₁ reply es)
    (hl : Listening s) (hr : Registered backend s) : Registered backend s₁ := by
  have hmarket : ∀ session : ClientSession,
      (assumeMarketData session).readInterest = session.readInterest ∧
        (assumeMarketData session).writeInterest = session.writeInterest := by
    intro session
    unfold assumeMarketData
    split <;> exact ⟨rfl, rfl⟩
  cases he with
  | refuse session reason h hplain => exact hr
  | login session username h hrole hout hfree hplain =>
      exact put_registered hl hr h rfl rfl rfl rfl rfl rfl
  | subscribe session instrument h hrole =>
      exact put_registered hl hr h rfl (hmarket session).1 (hmarket session).2 rfl rfl rfl
  | unsubscribe session instrument h hrole hin =>
      exact put_registered hl hr h rfl (hmarket session).1 (hmarket session).2 rfl rfl rfl
  | order session h hrole hin hcmd => exact hr
  | cancel session orderId h hin hok => exact hr

/-- **The step lemma.** -/
theorem Stage.registered {backend : Backend} {s s' : ExchangeServer} (hstage : Stage s s')
    (hb : Base s) (hl : Listening s) (hr : Registered backend s) : Registered backend s' := by
  cases hstage with
  | receive fd session bytes h hopen => exact put_registered hl hr h rfl rfl rfl rfl rfl rfl
  | line fd session line tail h hopen hline hquit he =>
      have htake := Serve.take s session line tail h hline
      have hl₀ : Listening (s.taken fd session (stripCarriageReturn line) tail) :=
        (Move.serve _ htake).listening hl
      have hr₀ : Registered backend (s.taken fd session (stripCarriageReturn line) tail) :=
        put_registered hl hr h rfl rfl rfl rfl rfl rfl
      have hb₁ := he.acts.base (htake.base hb)
      have hl₁ := he.acts.invariant (fun _ _ hact hl => hact.listening hl) hl₀
      exact (settle_invariant (I := fun s => Listening s ∧ Registered backend s)
        (M := fun _ _ => True)
        (fun _ dest message _ hb hi => sendTo_registered hb hi.1 hi.2 dest message) hb₁
        ⟨hl₁, he.registered hl₀ hr₀⟩ trivial fun e _ => noticesAre_any e).2
  | quit fd session line tail h hopen hline hquit =>
      have htake := Serve.take s session line tail h hline
      have hl₀ : Listening (s.taken fd session (stripCarriageReturn line) tail) :=
        (Move.serve _ htake).listening hl
      have hr₀ : Registered backend (s.taken fd session (stripCarriageReturn line) tail) :=
        put_registered hl hr h rfl rfl rfl rfl rfl rfl
      exact beginOrderlyClose_registered hl₀ hr₀ fd .quit
  | oversized fd session h hopen =>
      obtain ⟨hl', hr'⟩ := sendTo_registered hb hl hr fd oversizedMessage
      exact beginOrderlyClose_registered hl' hr' fd .oversized
  | fin fd session h hopen => exact beginOrderlyClose_registered hl hr fd .fin
  | writable fd =>
      unfold onWritable
      split
      · exact hr
      · next session h => exact flush_registered hl hr h (hb.own fd session h)
  | abort fd reason h => exact drop_registered hl hr fd reason
  | accept fd peer hfd h hnonneg =>
      have hne : fd ≠ s.listenerFd := by
        rintro rfl
        exact hfd hl.isOpen
      have hsessions : (s.welcome fd peer).sessions =
          s.sessions.insert fd { fd := fd, peer := peer } := rfl
      have hinterests : (s.welcome fd peer).interests =
          Function.update s.interests fd (some ⟨true, false⟩) :=
        interests_put hne hsessions rfl rfl
      obtain ⟨hok, hholds⟩ := hr.add fd true false
      have hok' : ((s.welcome fd peer).loop.add fd true false).2 = true := hok
      unfold register
      dsimp only
      rw [if_pos hok']
      show (s.loop.add fd true false).1.Holds backend (s.welcome fd peer).interests
      rw [hinterests]
      exact hholds
  | bounce fd hfd => exact hr
  | pause =>
      unfold pauseAccepting
      split
      · exact hr
      · have hinterests : ({ s with
            acceptResumeAt := s.kernel.clock + kAcceptBackoff
            loop := (s.loop.update s.listenerFd false false).1 } : ExchangeServer).interests =
            Function.update s.interests s.listenerFd (some ⟨false, false⟩) := by
          funext fd
          by_cases hfd : fd = s.listenerFd
          · rw [hfd, Function.update_self, ExchangeServer.interests, if_pos rfl]
            simp [kAcceptBackoff]
          · rw [Function.update_of_ne hfd, ExchangeServer.interests, ExchangeServer.interests,
              if_neg hfd, if_neg hfd]
        rw [Registered, hinterests]
        exact hr.update s.listenerFd false false
  | resume =>
      unfold resumeAcceptingIfDue
      split
      · exact hr
      · split
        · exact hr
        · have hinterests : ({ s with
              acceptResumeAt := 0
              loop := (s.loop.update s.listenerFd true false).1 } : ExchangeServer).interests =
              Function.update s.interests s.listenerFd (some ⟨true, false⟩) := by
            funext fd
            by_cases hfd : fd = s.listenerFd
            · rw [hfd, Function.update_self, ExchangeServer.interests, if_pos rfl]
              simp
            · rw [Function.update_of_ne hfd, ExchangeServer.interests,
                ExchangeServer.interests, if_neg hfd, if_neg hfd]
          rw [Registered, hinterests]
          exact hr.update s.listenerFd true false
  | reap =>
      obtain ⟨hlistener, hloop, hresume⟩ := reapClosed_loop s
      have hinterests : s.reapClosed.interests = s.interests := by
        funext fd
        rw [ExchangeServer.interests, ExchangeServer.interests, hlistener, hresume,
          (reapClosed_tables s).1]
      rw [Registered, hinterests, hloop]
      exact hr

/-! ## Runs -/

/-- No `kevent` call of the run fails. -/
def KeventsGranted (c : Setup) (turns : List Turn) : Prop :=
  c.backend = .kqueue → ∀ t ∈ turns, ∀ a ∈ t.answers.kevents, a = .applied

theorem loopRule_backend (backend : Backend) : LoopRule fun l => l.backend = backend :=
  ⟨fun l fd wantRead wantWrite h => (backend_add l fd wantRead wantWrite).trans h,
    fun l fd wantRead wantWrite h => (backend_update l fd wantRead wantWrite).trans h,
    fun l fd h => (backend_remove l fd).trans h⟩

theorem run_backend (c : Setup) (turns : List Turn) :
    (run c turns).loop.backend = c.backend := by
  refine run_stage_invariant (I := fun s => s.loop.backend = c.backend) (P := fun _ => True) c
    (backend_add { backend := c.backend } _ _ _) (fun _ _ _ h => h) ?_ fun _ _ => trivial
  intro s s' hreach hstage h
  exact (loopRule_backend c.backend).stage h hreach.base hstage

theorem run_registered (c : Setup) (turns : List Turn) (hk : KeventsGranted c turns) :
    Registered c.backend (run c turns) := by
  refine run_stage_invariant
    (P := fun a => c.backend = .kqueue → ∀ x ∈ a.kevents, x = .applied) c ?_ ?_ ?_ ?_
  · have hempty := (holds_empty c.backend).add c.listenerFd true false
    have hinterests : (ExchangeServer.start c.backend c.listenerFd c.openFds c.clock).interests =
        Function.update (fun _ => none) c.listenerFd (some ⟨true, false⟩) := by
      funext fd
      by_cases hfd : fd = c.listenerFd
      · rw [hfd, Function.update_self, ExchangeServer.interests]
        simp [ExchangeServer.start]
      · rw [Function.update_of_ne hfd, ExchangeServer.interests]
        simp [ExchangeServer.start, hfd]
    rw [Registered, hinterests]
    exact hempty.2
  · intro s a ha hr
    exact hr.answers ha
  · intro s s' hreach hstage hr
    exact hstage.registered hreach.base hreach.listening hr
  · intro t ht hkqueue
    exact hk hkqueue t ht

/-- **No wakeup is lost and no session is stranded.**  After any run in which no
`kevent` call fails, the flags of every session say what it waits for, the kernel
watches its socket for exactly that, a session that is leaving has something left to
write, and the listening socket is watched unless accepting is suspended. -/
theorem no_wakeup_lost (c : Setup) (turns : List Turn) (hk : KeventsGranted c turns) :
    (∀ fd session, (run c turns).sessions.lookup fd = some session →
      session.readInterest = !session.closing ∧
      session.writeInterest = session.backlogged ∧
      session.backlogged = decide (0 < session.pendingBytes) ∧
      (session.closing = true → 0 < session.pendingBytes) ∧
      (run c turns).loop.Watches fd ⟨session.readInterest, session.writeInterest⟩) ∧
    (run c turns).loop.Watches (run c turns).listenerFd
      ⟨decide ((run c turns).acceptResumeAt = 0), false⟩ := by
  have hl := (run_reachable c turns).listening
  have hr := run_registered c turns hk
  refine ⟨?_, ?_⟩
  · intro fd session h
    have hrest := run_rested c turns fd session h
    exact ⟨hrest.reading, hrest.writing.trans hrest.backlog.symm, hrest.backlog, hrest.closing,
      hr.watches (interests_of_lookup hl h)⟩
  · refine hr.watches ?_
    rw [ExchangeServer.interests, if_pos rfl]

/-- Client 5 logs in, and its socket takes one byte of the answer. -/
private def slowReader : List Turn :=
  [{ input := .event { fd := 3, readable := true }
     answers := { accepts := [.connection 5 [] true] } },
   { input := .event { fd := 5, readable := true }
     answers :=
       { recvs := [.data ⟨ascii "LOGIN a\n", by decide, by decide⟩]
         sends := fun _ => [.accepted 1]
         kevents := [.applied] } }]

theorem no_wakeup_lost_slow_reader :
    KeventsGranted { backend := .kqueue } slowReader ∧
      ((run { backend := .kqueue } slowReader).sessions.lookup 5).isSome = true ∧
      (run { backend := .kqueue } slowReader).loop.Watches 5 ⟨true, true⟩ := by
  have hk : KeventsGranted { backend := .kqueue } slowReader := by
    simp [KeventsGranted, slowReader]
  have hsession : ((run { backend := .kqueue } slowReader).sessions.lookup 5).any
      (fun session => session.readInterest && session.writeInterest) = true := by
    decide +kernel
  rw [Option.any_eq_true] at hsession
  obtain ⟨session, h, hflags⟩ := hsession
  rw [Bool.and_eq_true] at hflags
  obtain ⟨_, _, _, _, hwatch⟩ := (no_wakeup_lost _ slowReader hk).1 5 session h
  rw [hflags.1, hflags.2] at hwatch
  exact ⟨hk, by rw [h]; rfl, hwatch⟩

end SocketExchange.Server
