import SocketExchange.Server.Wakeups

/-!
# Backing off

When the system has run out of descriptors `accept` fails, and the listening socket stays
readable.  The server then suspends accepting for a while, and complains once.

Whatever the kernel answers, it does so at most once in each such while, in every stretch of
every run.
-/

namespace SocketExchange.Server

open SocketExchange.Lib
open SocketExchange.Network
open ExchangeServer

/-! ## What a turn does to the clock -/

/-- The time, and when accepting is to be resumed; 0 if it is not suspended. -/
def ExchangeServer.times (s : ExchangeServer) : Nat × Nat := (s.kernel.clock, s.acceptResumeAt)

/-- What one turn can do to the two. -/
inductive Ticks : Nat × Nat → Nat × Nat → Prop where
  | stay (now later resumeAt : Nat) (h : now ≤ later) : Ticks (now, resumeAt) (later, resumeAt)
  | pause (now later : Nat) (h : now ≤ later) : Ticks (now, 0) (later, later + kAcceptBackoff)
  | resume (now later resumeAt : Nat) (h : now ≤ later) (hdue : resumeAt ≤ later) :
      Ticks (now, resumeAt) (later, 0)

theorem drop_times (s : ExchangeServer) (fd : Int) (reason : DropReason) :
    (s.drop fd reason).times = s.times := by
  unfold ExchangeServer.drop
  split <;> rfl

theorem Serve.times {fd : Int} {s s' : ExchangeServer} (h : Serve fd s s') :
    s'.times = s.times := by
  cases h with
  | act hact =>
      cases hact with
      | drop dest reason => exact drop_times s dest reason
      | queue | write | relist | leave | interest => rfl
      | login | subscribe | unsubscribe | submit | cancel => rfl
  | receive | take | handled => rfl

theorem Serves.times {fd : Int} {s s' : ExchangeServer} (h : Serves fd s s') :
    s'.times = s.times :=
  h.invariant (I := fun t => t.times = s.times) (fun _ _ hserve ht => hserve.times.trans ht) rfl

theorem register_times (s : ExchangeServer) (fd : Int) : (s.register fd).times = s.times := by
  unfold ExchangeServer.register
  dsimp only
  split <;> rfl

theorem emplace_times (s : ExchangeServer) (fd : Int) (session : ClientSession) :
    (s.emplace fd session).times = s.times := by
  unfold ExchangeServer.emplace
  split <;> rfl

/-- `accept_pending` suspends accepting only if it is not suspended. -/
theorem acceptPending_times (script : List AcceptOutcome) (s : ExchangeServer) :
    (acceptPending script s).times = s.times ∨
      s.acceptResumeAt = 0 ∧
        (acceptPending script s).times = (s.kernel.clock, s.kernel.clock + kAcceptBackoff) := by
  induction script generalizing s with
  | nil => exact Or.inl rfl
  | cons outcome script ih =>
      cases outcome with
      | again | aborted | failed => exact Or.inl rfl
      | exhausted =>
          unfold acceptPending pauseAccepting
          split
          · exact Or.inl rfl
          · next hopen => exact Or.inr ⟨not_not.mp hopen, rfl⟩
      | connection fd peer nonblocking =>
          unfold acceptPending
          split
          · exact Or.inl rfl
          · dsimp only
            split
            · exact Or.inl rfl
            · -- the connection leaves both as they were
              have hwelcome : ((((s.openFd fd).emplace fd { fd := fd, peer := peer }).observe
                  (.accepted fd)).register fd).times = s.times :=
                (register_times _ fd).trans (emplace_times (s.openFd fd) fd _)
              obtain ⟨hclock, hresume⟩ := Prod.mk.inj hwelcome
              have hrest := ih ((((s.openFd fd).emplace fd { fd := fd, peer := peer }).observe
                (.accepted fd)).register fd)
              rw [hwelcome, hclock, hresume] at hrest
              exact hrest

theorem turn_ticks {s : ExchangeServer} (hb : Base s) (t : Turn) :
    Ticks s.times (s.turn t).times := by
  have hlater : s.kernel.clock ≤ (s.load t.answers).kernel.clock := Nat.le_add_right _ _
  have hload : (s.load t.answers).acceptResumeAt = s.acceptResumeAt := rfl
  have hstay : ∀ s' : ExchangeServer, s'.times = (s.load t.answers).times →
      Ticks s.times s'.times := by
    intro s' hsame
    rw [hsame]
    exact Ticks.stay _ _ _ hlater
  unfold turn
  dsimp only
  split
  · unfold resumeAcceptingIfDue
    split
    · exact hstay _ rfl
    · split
      · exact hstay _ rfl
      · next hdue => exact Ticks.resume _ _ _ hlater (Nat.not_lt.mp hdue)
  · next e hinput =>
      by_cases hlistener : e.fd = (s.load t.answers).listenerFd
      · unfold onEvent
        rw [if_pos hlistener]
        rcases acceptPending_times t.answers.accepts (s.load t.answers) with hsame | ⟨hopen, hpause⟩
        · exact hstay _ hsame
        · rw [hpause, times, ← hload, hopen]
          exact Ticks.pause _ _ hlater
      · have hb' := (Env.load s t.answers).base hb
        exact hstay _ (onEvent_serves hb' hlistener t.answers).times
  · refine hstay _ ?_
    rw [times, (reapClosed_loop _).2.2, reapClosed_eq]
    rfl

/-! ## Whole runs -/

/-- How often accepting is suspended, and the complaint printed, in the turns from `s` on. -/
def pausesFrom : ExchangeServer → List Turn → Nat
  | _, [] => 0
  | s, t :: turns =>
      (if s.acceptResumeAt = 0 ∧ (s.turn t).acceptResumeAt ≠ 0 then 1 else 0) +
        pausesFrom (s.turn t) turns

/-- **The step lemma.**  `n` suspensions follow until `last`.  The first of them does not come
before the present one is over, and each takes its time. -/
theorem Ticks.spaced {now later resumeAt resumeAt' n last : Nat}
    (h : Ticks (now, resumeAt) (later, resumeAt')) (hlast : later ≤ last)
    (hn : n = 0 ∨ n * kAcceptBackoff + max resumeAt' later ≤ last + kAcceptBackoff) :
    let paused := if resumeAt = 0 ∧ resumeAt' ≠ 0 then 1 else 0
    paused + n = 0 ∨
      (paused + n) * kAcceptBackoff + max resumeAt now ≤ last + kAcceptBackoff := by
  intro paused
  cases h with
  | stay _ _ _ hle =>
      have hpaused : paused = 0 := if_neg fun h => h.2 h.1
      rw [hpaused, Nat.zero_add]
      omega
  | pause _ _ hle =>
      have hpaused : paused = 1 := if_pos ⟨rfl, by simp [kAcceptBackoff]⟩
      rw [hpaused, Nat.add_mul, Nat.one_mul]
      rcases hn with rfl | hn
      · rw [Nat.zero_mul]
        omega
      · omega
  | resume _ _ _ hle hdue =>
      have hpaused : paused = 0 := if_neg fun h => h.2 rfl
      rw [hpaused, Nat.zero_add]
      omega

theorem Ticks.le {now later resumeAt resumeAt' : Nat}
    (h : Ticks (now, resumeAt) (later, resumeAt')) : now ≤ later := by
  cases h with
  | stay _ _ _ hle => exact hle
  | pause _ _ hle => exact hle
  | resume _ _ _ hle hdue => exact hle

/-- **The run lemma.** -/
theorem pausesFrom_spaced {s : ExchangeServer} (hb : Base s) (turns : List Turn) :
    s.kernel.clock ≤ (Loop.run turn s turns).kernel.clock ∧
      (pausesFrom s turns = 0 ∨
        pausesFrom s turns * kAcceptBackoff + max s.acceptResumeAt s.kernel.clock ≤
          (Loop.run turn s turns).kernel.clock + kAcceptBackoff) := by
  induction turns generalizing s with
  | nil => exact ⟨Nat.le_refl _, Or.inl rfl⟩
  | cons t turns ih =>
      have hticks : Ticks (s.kernel.clock, s.acceptResumeAt)
          ((s.turn t).kernel.clock, (s.turn t).acceptResumeAt) := turn_ticks hb t
      obtain ⟨hlast, hspaced⟩ := ih ((turn_moves hb t).base hb)
      exact ⟨hticks.le.trans hlast, hticks.spaced hlast hspaced⟩

/-- The bound is met when accepting fails again as soon as it is resumed. -/
example :
    let fails : Turn :=
      { input := .event { fd := 3, readable := true }, answers := { accepts := [.exhausted] } }
    let resumes : Turn :=
      { input := .resumeAccepting, answers := { elapsed := kAcceptBackoff } }
    pausesFrom (run {} []) [fails, fails, resumes, fails] = 2 ∧
      (run {} [fails, fails, resumes, fails]).kernel.clock = 1 + kAcceptBackoff := by
  decide +kernel

end SocketExchange.Server
