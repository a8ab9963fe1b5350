import SocketExchange.Network.Coalescing
import SocketExchange.Server.Descriptors
import SocketExchange.Server.Stretches
import SocketExchange.Server.Wakeups

/-!
# The main loop

`ExchangeServer::run` waits for a batch of events, resumes accepting if that is due,
handles the events one by one and then closes the descriptors that were given up on the
way.  It goes round until the stop flag is set or waiting fails, and then closes what is
left.

While a batch is handled no descriptor that was open when it was reported is closed.
So its number cannot come back from `accept`, and an event finds the connection it was
reported for, or none.
-/

namespace SocketExchange.Server

open SocketExchange.Lib
open SocketExchange.Lib.Bytes
open SocketExchange.Network
open SocketExchange.Protocol
open SocketExchange.Trading.OrderBook
open ExchangeServer

namespace ExchangeServer

/-- A kernel event there can be: of a filter that is installed, on a descriptor that is
open.  The kernel takes the filters of a descriptor out when it is closed. -/
def canReport (s : ExchangeServer) (k : Kevent) : Bool :=
  s.loop.kq.filters.any (fun (fd, f) => fd = k.fd && f.code = k.filter) &&
    s.kernel.openFds.contains k.fd

/-- `loop_.wait(events, 1000)`. -/
def wait (s : ExchangeServer) : WaitAnswer → Option (List Event)
  | .ready revents kevents => s.loop.wait (.ready revents (kevents.filter s.canReport))
  | .interrupted => s.loop.wait .interrupted
  | .failed => s.loop.wait .failed

/-- What the world does during one pass of the loop. -/
structure Pass where
  wait : WaitAnswer
  resume : Answers := {}
  /-- The answers while the events are handled, by their place in the batch. -/
  events : Nat → Answers := fun _ => {}
  reap : Answers := {}
  /-- The stop flag is set, and seen when this number of events has been handled. -/
  stop : Option Nat := none

/-- The events of a batch that are handled, with the answers to them. -/
def Pass.handled (p : Pass) (batch : List Event) : List (Event × Answers) :=
  let all := batch.zipIdx.map fun (e, i) => (e, p.events i)
  match p.stop with
  | none => all
  | some n => all.take n

/-- The turns of one pass, after `wait` has returned. -/
def Pass.turns (p : Pass) (batch : List Event) : List Turn :=
  { input := .resumeAccepting, answers := p.resume } ::
    ((p.handled batch).map fun (e, a) => { input := .event e, answers := a }) ++
    [{ input := .reapClosed, answers := p.reap }]

/-- `while (!g_stop)`.  `wait` does not fail with `EINTR`, so its failure ends the
loop. -/
def mainLoop : List Pass → ExchangeServer → ExchangeServer
  | [], s => s
  | p :: passes, s =>
      match s.wait p.wait with
      | none => s
      | some batch =>
          let s := Loop.run turn s (p.turns batch)
          if p.stop.isSome then s else mainLoop passes s

def shutdownAll (s : ExchangeServer) : ExchangeServer :=
  reapClosed
    { Loop.run closeFd s (s.kernel.order.walk s.sessions.keys) with sessions := ∅ }

end ExchangeServer

/-- `run`, to its return. -/
def runMain (c : Setup) (passes : List Pass) : ExchangeServer :=
  (mainLoop passes (ExchangeServer.start c.backend c.listenerFd c.openFds c.clock)).shutdownAll

/-! ## The moments at which events are taken up -/

/-- An event of a batch, the server when `wait` returned the batch, and the server when
the event is taken up. -/
structure Moment where
  event : Event
  waited : ExchangeServer
  now : ExchangeServer

/-- The events of a batch, one after the other. -/
def momentsFrom (waited : ExchangeServer) :
    ExchangeServer → List (Event × Answers) → List Moment
  | _, [] => []
  | now, (e, a) :: rest =>
      ⟨e, waited, now⟩ :: momentsFrom waited (now.turn { input := .event e, answers := a }) rest

/-- All events of a run. -/
def moments : List Pass → ExchangeServer → List Moment
  | [], _ => []
  | p :: passes, s =>
      match s.wait p.wait with
      | none => []
      | some batch =>
          momentsFrom s (s.turn { input := .resumeAccepting, answers := p.resume })
            (p.handled batch) ++
          if p.stop.isSome then [] else moments passes (Loop.run turn s (p.turns batch))

/-- The event meets the connection that was there when it was reported, if any. -/
def Moment.Meets (m : Moment) : Prop :=
  m.now.connected m.event.fd = true → m.waited.connected m.event.fd = true ∧
    ∃ new, m.now.trace = m.waited.trace ++ new ∧ ∀ o ∈ new, o ≠ .accepted m.event.fd

/-! ## A number that is open stays with its connection -/

/-- `fd` is open, and the connection that has it, if any, is the one that had it. -/
structure Continues (fd : Int) (s s' : ExchangeServer) : Prop where
  isOpen : fd ∈ s'.kernel.openFds
  connected : s'.connected fd = true → s.connected fd = true
  trace : ∃ new, s'.trace = s.trace ++ new ∧ ∀ o ∈ new, o ≠ .accepted fd

theorem Continues.trans {fd : Int} {s s' s'' : ExchangeServer} (h : Continues fd s s')
    (h' : Continues fd s' s'') : Continues fd s s'' := by
  obtain ⟨new, htrace, hnew⟩ := h.trace
  obtain ⟨new', htrace', hnew'⟩ := h'.trace
  refine ⟨h'.isOpen, fun hc => h.connected (h'.connected hc), new ++ new', ?_, ?_⟩
  · rw [htrace', htrace, List.append_assoc]
  · intro o ho
    rcases List.mem_append.mp ho with ho | ho
    · exact hnew o ho
    · exact hnew' o ho

/-- No descriptor is opened or closed, and no session appears. -/
def Confined (s s' : ExchangeServer) : Prop :=
  s'.kernel.openFds = s.kernel.openFds ∧ ∀ fd, s'.connected fd = true → s.connected fd = true

private theorem confined_put {s s' : ExchangeServer} {fd : Int} {session session' : ClientSession}
    (h : s.sessions.lookup fd = some session) (hs : s'.sessions = s.sessions.insert fd session')
    (ho : s'.kernel.openFds = s.kernel.openFds) : Confined s s' := by
  refine ⟨ho, fun fd' hconnected => ?_⟩
  rw [ExchangeServer.connected, hs, lookup_insert] at hconnected
  split at hconnected
  · next heq => rw [ExchangeServer.connected, heq, h]; rfl
  · exact hconnected

private theorem confined_same {s s' : ExchangeServer} (hs : s'.sessions = s.sessions)
    (ho : s'.kernel.openFds = s.kernel.openFds) : Confined s s' := by
  refine ⟨ho, fun fd hconnected => ?_⟩
  rwa [ExchangeServer.connected, hs] at hconnected

theorem Act.confined {fd : Int} {s s' : ExchangeServer} (hact : Act fd s s') : Confined s s' := by
  cases hact with
  | queue dest session message h howed => exact confined_put h rfl rfl
  | write dest session h => exact confined_put h rfl rfl
  | drop dest reason h =>
      refine ⟨by rw [drop_kernel], fun fd' hconnected => ?_⟩
      rw [ExchangeServer.connected, drop_sessions] at hconnected
      split at hconnected
      · cases hconnected
      · exact hconnected
  | relist loop => exact confined_same rfl rfl
  | leave session reason h => exact confined_put h rfl rfl
  | interest session wantRead wantWrite h => exact confined_put h rfl rfl
  | login session username h hrole hout hfree => exact confined_put h rfl rfl
  | subscribe session instrument h hrole => exact confined_put h rfl rfl
  | unsubscribe session instrument h hrole hin => exact confined_put h rfl rfl
  | submit session cmd h hrole hin hcmd => exact confined_same rfl rfl
  | cancel session orderId h hin hok => exact confined_same rfl rfl

theorem Serve.continues {fd fd' : Int} {s s' : ExchangeServer} (hserve : Serve fd' s s')
    (h : fd ∈ s.kernel.openFds) : Continues fd s s' := by
  have hconfined : Confined s s' := by
    cases hserve with
    | act hact => exact hact.confined
    | receive session bytes h hopen => exact confined_put h rfl rfl
    | take session line tail h hline => exact confined_put h rfl rfl
    | handled line => exact confined_same rfl rfl
  refine ⟨by rw [hconfined.1]; exact h, hconfined.2 fd, ?_⟩
  cases hserve with
  | act hact =>
      obtain ⟨new, htrace, hnew⟩ := hact.trace
      exact ⟨new, htrace, fun o ho => hnew o ho fd⟩
  | receive | take | handled => exact ⟨_, rfl, by simp⟩

theorem continues_refl {fd : Int} {s : ExchangeServer} (h : fd ∈ s.kernel.openFds) :
    Continues fd s s :=
  ⟨h, id, [], (List.append_nil _).symm, by simp⟩

theorem Serves.continues {fd fd' : Int} {s s' : ExchangeServer} (hserves : Serves fd' s s')
    (h : fd ∈ s.kernel.openFds) : Continues fd s s' := by
  induction hserves with
  | refl => exact continues_refl h
  | tail _ hserve ih => exact ih.trans (hserve.continues ih.isOpen)

/-- A new connection, registered or given up again, has another number. -/
private theorem register_continues {fd fd' : Int} {s : ExchangeServer} (peer : Bytes)
    (h : fd ∈ s.kernel.openFds) (hne : fd' ≠ fd) :
    Continues fd s ((s.welcome fd' peer).register fd') := by
  obtain ⟨new, htrace, hcalm⟩ := register_calm (s.welcome fd' peer) fd'
  have hlookup : (s.sessions.insert fd' { fd := fd', peer := peer }).lookup fd =
      s.sessions.lookup fd := by
    rw [lookup_insert, if_neg (Ne.symm hne)]
  have hthere : fd ∈ ((s.welcome fd' peer).register fd').kernel.openFds ∧
      ((s.welcome fd' peer).register fd').sessions.lookup fd = s.sessions.lookup fd := by
    unfold register
    dsimp only
    split
    · exact ⟨List.mem_cons_of_mem _ h, hlookup⟩
    · refine ⟨List.mem_filter.mpr ⟨List.mem_cons_of_mem _ h, ?_⟩, ?_⟩
      · simpa using Ne.symm hne
      · show ((s.sessions.insert fd' { fd := fd', peer := peer }).erase fd').lookup fd = _
        rw [lookup_erase, if_neg (Ne.symm hne), hlookup]
  refine ⟨hthere.1, ?_, .accepted fd' :: new, ?_, ?_⟩
  · rw [ExchangeServer.connected, hthere.2]
    exact id
  · rw [htrace]
    simp [welcome, observe, putSession, openFd]
  · intro o ho
    rcases List.mem_cons.mp ho with rfl | ho
    · simpa using hne
    · exact ne_accepted_of_calm (hcalm o ho) fd

theorem acceptPending_continues {fd : Int} (script : List AcceptOutcome) {s : ExchangeServer}
    (hb : Base s) (h : fd ∈ s.kernel.openFds) : Continues fd s (acceptPending script s) := by
  induction script generalizing s with
  | nil => exact continues_refl h
  | cons outcome script ih =>
      cases outcome with
      | again | aborted | failed => exact continues_refl h
      | exhausted =>
          unfold acceptPending pauseAccepting
          split
          · exact continues_refl h
          · exact ⟨h, id, [], (List.append_nil _).symm, by simp⟩
      | connection fd' peer nonblocking =>
          unfold acceptPending
          split
          · exact continues_refl h
          · next hfree =>
            have hne : (fd' : Int) ≠ fd := by
              rintro rfl
              exact hfree h
            dsimp only
            split
            · refine ⟨?_, id, _, bounce_trace s fd', by simp⟩
              show fd ∈ ((fd' : Int) :: s.kernel.openFds).filter (· ≠ (fd' : Int))
              simp [h, Ne.symm hne]
            · have hnone := hb.lookup_none hfree
              have hstep := register_continues peer h hne
              have hb' : Base ((s.welcome fd' peer).register fd') :=
                (register_envs hfree hnone (Int.natCast_nonneg fd')).moves.base hb
              rw [hb.emplace hfree]
              exact hstep.trans (ih hb' hstep.isOpen)

/-- **No turn but the reaping gives a number away.** -/
theorem turn_continues {fd : Int} {s : ExchangeServer} (hb : Base s)
    (h : fd ∈ s.kernel.openFds) {t : Turn} (ht : t.input ≠ .reapClosed) :
    Continues fd s (s.turn t) := by
  have hload : Continues fd s (s.load t.answers) :=
    ⟨h, id, [], (List.append_nil _).symm, by simp⟩
  have hb' : Base (s.load t.answers) := (Env.load s t.answers).base hb
  refine hload.trans ?_
  unfold turn
  dsimp only
  split
  · unfold resumeAcceptingIfDue
    split
    · exact continues_refl h
    · split
      · exact continues_refl h
      · exact ⟨h, id, [], (List.append_nil _).symm, by simp⟩
  · next e heq =>
    by_cases hlistener : e.fd = (s.load t.answers).listenerFd
    · rw [onEvent, if_pos hlistener]
      exact acceptPending_continues t.answers.accepts hb' h
    · exact (onEvent_serves hb' hlistener t.answers).continues h
  · next heq => exact absurd heq ht

/-! ## What is reported is open -/

/-- The poll array has entries for the listening socket and the sessions only. -/
private theorem open_of_pollfds {c : Setup} (hpoll : c.backend = .poll) (turns : List Turn)
    {entry : PollFd} (hentry : entry ∈ (run c turns).loop.pollfds) :
    entry.fd ∈ (run c turns).kernel.openFds := by
  have hgranted : KeventsGranted c turns := by
    intro hkqueue
    rw [hpoll] at hkqueue
    cases hkqueue
  have hreach := run_reachable c turns
  have hregistered := run_registered c turns hgranted
  rw [hpoll] at hregistered
  have hholds : (run c turns).loop.PollHolds (run c turns).interests := hregistered.2
  obtain ⟨i, hi⟩ := List.mem_iff_getElem?.mp hentry
  obtain ⟨_, hinterest⟩ := (hholds.entry i entry).mp hi
  rw [ExchangeServer.interests] at hinterest
  split at hinterest
  · next hlistener =>
    rw [hlistener]
    exact hreach.listening.isOpen
  · obtain ⟨session, hsession, _⟩ := Option.map_eq_some_iff.mp hinterest
    exact hreach.base.isOpen _ session hsession

theorem wait_open {c : Setup} {turns : List Turn} {answer : WaitAnswer} {batch : List Event}
    (hwait : (run c turns).wait answer = some batch) {e : Event} (he : e ∈ batch) :
    e.fd ∈ (run c turns).kernel.openFds := by
  cases answer with
  | failed =>
      simp only [ExchangeServer.wait, EventLoop.wait] at hwait
      split at hwait <;> cases hwait
      cases he
  | interrupted =>
      simp only [ExchangeServer.wait, EventLoop.wait] at hwait
      split at hwait <;> cases hwait <;> cases he
  | ready revents kevents =>
      simp only [ExchangeServer.wait, EventLoop.wait] at hwait
      split at hwait
      · cases hwait
        cases he
      · split at hwait
        · next hbackend =>
          rw [run_backend] at hbackend
          cases hwait
          obtain ⟨entry, hentry, hfd⟩ := mem_pollWait he
          rw [← hfd]
          exact open_of_pollfds hbackend turns hentry
        · cases hwait
          obtain ⟨k, hk, hfd⟩ := mem_kqWait he
          have hreport := (List.mem_filter.mp hk).2
          rw [canReport, Bool.and_eq_true] at hreport
          rw [← hfd]
          exact List.contains_iff_mem.mp hreport.2

/-! ## Events and connections -/

private theorem mem_handled {p : Pass} {batch : List Event} {x : Event × Answers}
    (h : x ∈ p.handled batch) : x.1 ∈ batch := by
  have hall : ∀ x ∈ batch.zipIdx.map fun (e, i) => (e, p.events i), x.1 ∈ batch := by
    intro x hx
    obtain ⟨⟨e, i⟩, hmem, rfl⟩ := List.mem_map.mp hx
    exact List.fst_mem_of_mem_zipIdx hmem
  unfold Pass.handled at h
  dsimp only at h
  split at h
  · exact hall x h
  · exact hall x (List.mem_of_mem_take h)

/-- The events of one batch, as long as their numbers are still with their
connections. -/
private theorem momentsFrom_meet {c : Setup} {waited : ExchangeServer}
    (hwaited : Reachable c waited) (events : List (Event × Answers)) {now : ExchangeServer}
    (hreach : Reachable c now) (h : ∀ x ∈ events, Continues x.1.fd waited now) :
    ∀ m ∈ momentsFrom waited now events,
      Reachable c m.waited ∧ Reachable c m.now ∧ m.Meets := by
  induction events generalizing now with
  | nil =>
      intro m hm
      cases hm
  | cons x events ih =>
      obtain ⟨e, a⟩ := x
      intro m hm
      rcases List.mem_cons.mp hm with rfl | hm
      · have hcontinues := h (e, a) (by simp)
        exact ⟨hwaited, hreach, fun hconnected =>
          ⟨hcontinues.connected hconnected, hcontinues.trace⟩⟩
      · refine ih (hreach.trans (turn_moves hreach.base _)) (fun x hx => ?_) m hm
        have hcontinues := h x (by simp [hx])
        exact hcontinues.trans (turn_continues hreach.base hcontinues.isOpen (by simp))

/-- **Events meet their connections**, in every batch of every run. -/
theorem moments_meet {c : Setup} (passes : List Pass) (turns : List Turn) :
    ∀ m ∈ moments passes (run c turns),
      Reachable c m.waited ∧ Reachable c m.now ∧ m.Meets := by
  induction passes generalizing turns with
  | nil =>
      intro m hm
      cases hm
  | cons p passes ih =>
      have hreach := run_reachable c turns
      intro m hm
      unfold moments at hm
      split at hm
      · cases hm
      · next batch hwait =>
        rcases List.mem_append.mp hm with hm | hm
        · refine momentsFrom_meet hreach (p.handled batch)
            (hreach.trans (turn_moves hreach.base _)) (fun x hx => ?_) m hm
          exact turn_continues hreach.base (wait_open hwait (mem_handled hx)) (by simp)
        · split at hm
          · cases hm
          · have hrun : Loop.run turn (run c turns) (p.turns batch) =
                run c (turns ++ p.turns batch) := (Loop.run_append _ _ _ _).symm
            rw [hrun] at hm
            exact ih _ m hm

/-! ## Shutting down -/

/-- The loop is left after some sequence of turns. -/
theorem mainLoop_run (c : Setup) (passes : List Pass) (turns : List Turn) :
    ∃ turns', mainLoop passes (run c turns) = run c turns' := by
  induction passes generalizing turns with
  | nil => exact ⟨turns, rfl⟩
  | cons p passes ih =>
      unfold mainLoop
      split
      · exact ⟨turns, rfl⟩
      · next batch hwait =>
        have hrun : Loop.run turn (run c turns) (p.turns batch) =
            run c (turns ++ p.turns batch) := (Loop.run_append _ _ _ _).symm
        dsimp only
        rw [hrun]
        split
        · exact ⟨_, rfl⟩
        · exact ih _

/-- `shutdown_all` closes the sockets of the sessions, and then what is left to be
closed. -/
private theorem shutdownAll_trace (s : ExchangeServer) : s.shutdownAll.trace =
    s.trace ++ (s.kernel.order.walk s.sessions.keys ++ s.closedFds).map Obs.closed := by
  rw [shutdownAll, reapClosed_trace, run_closeFd]
  dsimp only
  rw [List.map_append, List.append_assoc]

private theorem mem_walk_keys {s : ExchangeServer} {fd : Int} :
    fd ∈ s.kernel.order.walk s.sessions.keys ↔ (s.sessions.lookup fd).isSome = true := by
  rw [HashOrder.mem_walk, AList.lookup_isSome, AList.mem_keys]

/-- **Shutting down closes everything the server holds, once.** -/
theorem shutdownAll_closes {c : Setup} {s : ExchangeServer} (hreach : Reachable c s) (fd : Int) :
    Alternating fd s.shutdownAll.trace ∧ heldIn fd s.shutdownAll.trace = false := by
  have hb := hreach.base
  have hi := hreach.descriptors
  have hnodup : (s.kernel.order.walk s.sessions.keys ++ s.closedFds).Nodup := by
    rw [List.nodup_append]
    refine ⟨(s.kernel.order.walk_perm _).nodup_iff.mpr s.sessions.keys_nodup, hb.closedNodup, ?_⟩
    rintro fd' hkey _ hclosed rfl
    have hsome := mem_walk_keys.mp hkey
    rw [hb.closedGone fd' hclosed] at hsome
    cases hsome
  have hheld : ∀ fd ∈ s.kernel.order.walk s.sessions.keys ++ s.closedFds,
      heldIn fd s.trace = true := by
    intro fd' hfd'
    rw [List.mem_append, mem_walk_keys] at hfd'
    exact hi.held hb hfd'
  obtain ⟨halt, hafter⟩ := closeAll hi.past hnodup hheld fd
  rw [shutdownAll_trace]
  refine ⟨halt, ?_⟩
  rw [hafter]
  cases hthere : heldIn fd s.trace with
  | false => rfl
  | true =>
      obtain ⟨hopen, hnew⟩ := (hi.held_iff fd).mp hthere
      have hmem : fd ∈ s.kernel.order.walk s.sessions.keys ++ s.closedFds := by
        rw [List.mem_append, mem_walk_keys]
        exact (hi.owned fd hopen).resolve_left hnew
      rw [Bool.true_and]
      exact decide_eq_false fun hnot => hnot hmem

/-! ## The theorem -/

/-- **Descriptors are closed exactly once and events never reach the wrong connection.**
In every state of the server, also in the middle of a handler, `closed_fds_` has no
duplicates and no entry that is a key of `sessions_`, and `emplace` of a number that
`accept` can return stores the new session.  In every run of the main loop, an event finds
the connection that was there when `wait` returned it, or none; and when the loop has
returned, every number that `accept` returned has been closed exactly once for each time
that it was returned, and nothing else has been closed. -/
theorem descriptors_closed_once (c : Setup) (passes : List Pass) :
    (∀ s, Reachable c s → s.closedFds.Nodup ∧
      (∀ fd ∈ s.closedFds, s.sessions.lookup fd = none) ∧
      ∀ fd, fd ∉ s.kernel.openFds → ∀ session,
        (s.openFd fd).emplace fd session = (s.openFd fd).putSession fd session) ∧
    (∀ m ∈ moments passes (ExchangeServer.start c.backend c.listenerFd c.openFds c.clock),
      Reachable c m.waited ∧ Reachable c m.now ∧ m.Meets) ∧
    ∀ fd, Alternating fd (runMain c passes).trace ∧
      ∀ before o rest, (runMain c passes).trace = before ++ o :: rest → o.opens fd = true →
        Brackets.ClosedOnce (Obs.opens fd) (Obs.closes fd) rest := by
  refine ⟨?_, moments_meet passes [], ?_⟩
  · intro s hreach
    have hb := hreach.base
    refine ⟨hb.closedNodup, hb.closedGone, ?_⟩
    intro fd hfd session
    cases h : s.sessions.lookup fd with
    | none => simp [emplace, ExchangeServer.connected, openFd, h]
    | some x => exact absurd (hb.isOpen fd x h) hfd
  · intro fd
    obtain ⟨turns, hturns⟩ := mainLoop_run c passes []
    have hclosed := shutdownAll_closes (run_reachable c turns) fd
    rw [← hturns] at hclosed
    obtain ⟨halt, hend⟩ := hclosed
    refine ⟨halt, ?_⟩
    intro before o rest hsplit hopens
    exact Brackets.Alternates.closedOnce halt hend hsplit hopens

/-- Only `fd` has something to read. -/
private def onlyReadable (fd : Int) : WaitAnswer :=
  .ready (fun fd' => { pollin := fd' = fd }) []

/-- Client 5 comes and quits, and the next client gets its number; then the server is
told to stop. -/
private def numberReused : List Pass :=
  [{ wait := onlyReadable 3
     events := fun _ => { accepts := [.connection 5 [] true] } },
   { wait := onlyReadable 5
     events := fun _ => { recvs := [.data ⟨ascii "QUIT\n", by decide, by decide⟩] } },
   { wait := onlyReadable 3
     events := fun _ => { accepts := [.connection 5 [] true] }
     stop := some 1 }]

theorem descriptors_closed_once_number_reused :
    ((moments numberReused (ExchangeServer.start .poll 3 [0, 1, 2] 1)).map
        fun m => m.event.fd) = [3, 5, 3] ∧
      (runMain {} numberReused).trace.filter (fun o => o.opens 5 || o.closes 5) =
        [.accepted 5, .closed 5, .accepted 5, .closed 5] ∧
      Alternating 5 (runMain {} numberReused).trace :=
  ⟨by decide +kernel, by decide +kernel, ((descriptors_closed_once {} numberReused).2.2 5).1⟩

end SocketExchange.Server
