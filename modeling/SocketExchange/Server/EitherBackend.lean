import SocketExchange.Server.Beats
import SocketExchange.Server.Wakeups

/-!
# Either backend

The server tells the event loop what to watch and hardly ever asks it anything: of all the
calls of `add`, `update` and `remove`, only the result of the `add` for a new connection is
looked at.  So whatever `poll` or `kqueue` do with the rest, the server does the same.

`SameBut` relates two servers that differ in the event loop only.  Every function of the
server keeps it, as long as both loops take the new connections.
-/

namespace SocketExchange.Server

open SocketExchange.Lib
open SocketExchange.Lib.Bytes
open SocketExchange.Network
open SocketExchange.Protocol
open SocketExchange.Trading.OrderBook
open ExchangeServer

/-- Two servers that differ in the event loop only. -/
def SameBut (s t : ExchangeServer) : Prop := ∃ loop, t = { s with loop := loop }

theorem SameBut.refl (s : ExchangeServer) : SameBut s s := ⟨s.loop, rfl⟩

section Steps

variable {s t : ExchangeServer} (h : SameBut s t)

include h

theorem SameBut.relist (l l' : EventLoop) :
    SameBut { s with loop := l } { t with loop := l' } := by
  obtain ⟨loop, rfl⟩ := h
  exact ⟨l', rfl⟩

theorem SameBut.observe (o : Obs) : SameBut (s.observe o) (t.observe o) := by
  obtain ⟨loop, rfl⟩ := h
  exact ⟨loop, rfl⟩

theorem SameBut.putSession (fd : Int) (session : ClientSession) :
    SameBut (s.putSession fd session) (t.putSession fd session) := by
  obtain ⟨loop, rfl⟩ := h
  exact ⟨loop, rfl⟩

theorem SameBut.lookup (fd : Int) : t.sessions.lookup fd = s.sessions.lookup fd := by
  obtain ⟨loop, rfl⟩ := h
  rfl

theorem SameBut.connected (fd : Int) : t.connected fd = s.connected fd := by
  rw [ExchangeServer.connected, h.lookup]
  rfl

theorem SameBut.drop (fd : Int) (reason : DropReason) :
    SameBut (s.drop fd reason) (t.drop fd reason) := by
  obtain ⟨loop, rfl⟩ := h
  unfold ExchangeServer.drop
  cases s.sessions.lookup fd with
  | none => exact ⟨loop, rfl⟩
  | some session => exact ⟨_, rfl⟩

theorem SameBut.closeFd (fd : Int) : SameBut (s.closeFd fd) (t.closeFd fd) := by
  obtain ⟨loop, rfl⟩ := h
  exact ⟨loop, rfl⟩

theorem SameBut.flush (key : Int) (session : ClientSession) :
    SameBut (s.flush key session) (t.flush key session) := by
  have hwritten : SameBut (s.written key session.fd (session.flush (s.kernel.sends session.fd)))
      (t.written key session.fd (session.flush (t.kernel.sends session.fd))) := by
    obtain ⟨loop, rfl⟩ := h
    exact ⟨loop, rfl⟩
  have hsends : t.kernel.sends = s.kernel.sends := by
    obtain ⟨loop, rfl⟩ := h
    rfl
  rw [hsends] at hwritten
  unfold ExchangeServer.flush
  simp only [hsends]
  cases (session.flush (s.kernel.sends session.fd)).outcome with
  | drop reason => exact hwritten.drop session.fd reason
  | reregister wantRead wantWrite => exact hwritten.relist _ _
  | keep => exact hwritten

theorem SameBut.sendTo (fd : Int) (message : Response) :
    SameBut (s.sendTo fd message) (t.sendTo fd message) := by
  unfold ExchangeServer.sendTo
  rw [h.lookup]
  cases s.sessions.lookup fd with
  | none => exact h
  | some session => exact ((h.putSession fd _).observe _).flush fd _

theorem SameBut.onWritable (fd : Int) : SameBut (s.onWritable fd) (t.onWritable fd) := by
  unfold ExchangeServer.onWritable
  rw [h.lookup]
  cases s.sessions.lookup fd with
  | none => exact h
  | some session => exact h.flush fd session

theorem SameBut.beginOrderlyClose (fd : Int) (reason : DropReason) :
    SameBut (s.beginOrderlyClose fd reason) (t.beginOrderlyClose fd reason) := by
  unfold ExchangeServer.beginOrderlyClose
  rw [h.lookup]
  cases s.sessions.lookup fd with
  | none => exact h
  | some session =>
      simp only
      split
      · exact ((h.putSession fd _).observe _).drop fd reason
      · exact (((h.putSession fd _).observe _).putSession fd _).relist _ _

/-! ## Lines -/

theorem SameBut.sessionAt (fd : Int) :
    SameBut (s.sessionAt fd).1 (t.sessionAt fd).1 ∧ (t.sessionAt fd).2 = (s.sessionAt fd).2 := by
  unfold ExchangeServer.sessionAt
  rw [h.lookup]
  cases s.sessions.lookup fd with
  | none => exact ⟨h.putSession fd {}, rfl⟩
  | some session => exact ⟨h, rfl⟩

theorem SameBut.rejectWrongRole (fd : Int) (required : ClientRole) (type : CommandType) :
    SameBut (s.rejectWrongRole fd required type).1 (t.rejectWrongRole fd required type).1 ∧
      (t.rejectWrongRole fd required type).2 = (s.rejectWrongRole fd required type).2 := by
  obtain ⟨hat, hsession⟩ := h.sessionAt fd
  simp only [ExchangeServer.rejectWrongRole, hsession]
  split
  · exact ⟨hat, rfl⟩
  · exact ⟨hat.sendTo fd _, rfl⟩

theorem SameBut.requireLoggedInTrader (fd : Int) (type : CommandType) :
    SameBut (s.requireLoggedInTrader fd type).1 (t.requireLoggedInTrader fd type).1 ∧
      (t.requireLoggedInTrader fd type).2 = (s.requireLoggedInTrader fd type).2 := by
  obtain ⟨hrole, hrejected⟩ := h.rejectWrongRole fd .trader type
  simp only [ExchangeServer.requireLoggedInTrader, hrejected]
  split
  · exact ⟨hrole, rfl⟩
  · obtain ⟨hat, hsession⟩ := hrole.sessionAt fd
    simp only [hsession]
    split
    · exact ⟨hat.sendTo fd _, rfl⟩
    · exact ⟨hat, rfl⟩

theorem SameBut.handleLogin (fd : Int) (cmd : ParsedCommand) :
    SameBut (s.handleLogin fd cmd) (t.handleLogin fd cmd) := by
  obtain ⟨hrole, hrejected⟩ := h.rejectWrongRole fd .trader cmd.type
  simp only [ExchangeServer.handleLogin, hrejected]
  split
  · exact hrole
  · obtain ⟨hat, hsession⟩ := hrole.sessionAt fd
    have hnames : ((t.rejectWrongRole fd .trader cmd.type).1.sessionAt fd).1.usernames =
        ((s.rejectWrongRole fd .trader cmd.type).1.sessionAt fd).1.usernames := by
      obtain ⟨loop, hloop⟩ := hat
      rw [hloop]
    simp only [hsession, hnames]
    split
    · exact hat.sendTo fd _
    · split
      · exact hat.sendTo fd _
      · refine SameBut.sendTo (SameBut.observe ?_ _) fd _
        obtain ⟨loop, hloop⟩ := hat
        rw [hloop]
        exact ⟨loop, rfl⟩

theorem SameBut.handleSubscription (fd : Int) (cmd : ParsedCommand) :
    SameBut (s.handleSubscription fd cmd) (t.handleSubscription fd cmd) := by
  obtain ⟨hrole, hrejected⟩ := h.rejectWrongRole fd .marketData cmd.type
  simp only [ExchangeServer.handleSubscription, hrejected]
  split
  · exact hrole
  · obtain ⟨hat, hsession⟩ := hrole.sessionAt fd
    simp only [hsession]
    split
    · exact hat.sendTo fd _
    · split
      · refine SameBut.sendTo (SameBut.observe ?_ _) fd _
        obtain ⟨loop, hloop⟩ := hat
        rw [hloop]
        exact ⟨loop, rfl⟩
      · refine SameBut.sendTo (SameBut.observe ?_ _) fd _
        obtain ⟨loop, hloop⟩ := hat
        rw [hloop]
        exact ⟨loop, rfl⟩

theorem SameBut.sendAll (message : Response) (fds : List Int) :
    SameBut (Loop.run (fun s fd => ExchangeServer.sendTo s fd message) s fds)
      (Loop.run (fun s fd => ExchangeServer.sendTo s fd message) t fds) := by
  induction fds generalizing s t with
  | nil => exact h
  | cons fd fds ih => exact ih (h.sendTo fd message)

theorem SameBut.publish (execution : TradeExecution) :
    SameBut (s.publish execution) (t.publish execution) := by
  unfold ExchangeServer.publish
  simp only
  have htold := (h.sendTo execution.buyerFd
    (.bought execution.instrument execution.quantity execution.price)).sendTo execution.sellerFd
      (.sold execution.instrument execution.quantity execution.price)
  obtain ⟨loop, hloop⟩ := id htold
  rw [hloop] at htold ⊢
  simp only
  split
  · exact htold
  · exact htold.sendAll _ _

theorem SameBut.publishAll (fd : Int) (executions : List TradeExecution) :
    SameBut (publishAll fd executions s) (publishAll fd executions t) := by
  induction executions generalizing s t with
  | nil => exact h
  | cons execution executions ih =>
      have hpublished := h.publish execution
      simp only [ExchangeServer.publishAll, hpublished.connected]
      split
      · exact hpublished
      · exact ih hpublished

theorem SameBut.handleOrder (fd : Int) (cmd : ParsedCommand) :
    SameBut (s.handleOrder fd cmd) (t.handleOrder fd cmd) := by
  obtain ⟨hlogged, hok⟩ := h.requireLoggedInTrader fd cmd.type
  simp only [ExchangeServer.handleOrder, hok]
  split
  · exact hlogged
  · obtain ⟨loop, hloop⟩ := hlogged
    rw [hloop]
    exact SameBut.publishAll (SameBut.sendTo ⟨loop, rfl⟩ fd _) fd _

theorem SameBut.handleCancel (fd : Int) (cmd : ParsedCommand) :
    SameBut (s.handleCancel fd cmd) (t.handleCancel fd cmd) := by
  obtain ⟨hlogged, hok⟩ := h.requireLoggedInTrader fd cmd.type
  simp only [ExchangeServer.handleCancel, hok]
  split
  · exact hlogged
  · obtain ⟨loop, hloop⟩ := hlogged
    rw [hloop]
    simp only
    split
    · exact SameBut.sendTo ⟨loop, rfl⟩ fd _
    · exact SameBut.sendTo ⟨loop, rfl⟩ fd _

theorem SameBut.handleMessage (fd : Int) (line : Bytes) :
    SameBut (s.handleMessage fd line) (t.handleMessage fd line) := by
  simp only [ExchangeServer.handleMessage]
  split
  · exact h.sendTo fd _
  · split
    · exact h.beginOrderlyClose fd .quit
    · exact h.handleLogin fd _
    · exact h.handleSubscription fd _
    · exact h.handleSubscription fd _
    · exact h.handleOrder fd _
    · exact h.handleOrder fd _
    · exact h.handleCancel fd _
    · exact h.sendTo fd _

/-! ## Input -/

theorem SameBut.lineOutcome (fd : Int) : t.lineOutcome fd = s.lineOutcome fd := by
  rw [ExchangeServer.lineOutcome, h.lookup]
  rfl

theorem SameBut.handleLine (fd : Int) (session : ClientSession) (line tail : Bytes) :
    SameBut (s.handleLine fd session line tail) (t.handleLine fd session line tail) := by
  have hhandled := ((h.putSession fd { session with inbuf := tail }).observe
    (.handling fd line)).handleMessage fd line
  simp only [ExchangeServer.handleLine, hhandled.lineOutcome]
  exact hhandled.observe _

theorem SameBut.consumeLoop (fd : Int) (fuel : Nat) :
    SameBut (consumeLoop fd fuel s).1 (consumeLoop fd fuel t).1 ∧
      (consumeLoop fd fuel t).2 = (consumeLoop fd fuel s).2 := by
  induction fuel generalizing s t with
  | zero => exact ⟨h, rfl⟩
  | succ fuel ih =>
      simp only [ExchangeServer.consumeLoop, h.lookup]
      cases s.sessions.lookup fd with
      | none => exact ⟨h, rfl⟩
      | some session =>
          simp only
          cases splitLine session.inbuf with
          | none =>
              simp only
              split
              · exact ⟨(h.sendTo fd oversizedMessage).beginOrderlyClose fd .oversized, rfl⟩
              · exact ⟨h, rfl⟩
          | some split =>
              have hline := h.handleLine fd session (stripCarriageReturn split.1) split.2
              simp only [hline.lineOutcome]
              cases (s.handleLine fd session (stripCarriageReturn split.1) split.2).lineOutcome fd with
              | dropped => exact ⟨hline, rfl⟩
              | closing => exact ⟨hline, rfl⟩
              | stillOpen => exact ih hline

theorem SameBut.consumeMessages (fd : Int) :
    SameBut (s.consumeMessages fd).1 (t.consumeMessages fd).1 ∧
      (t.consumeMessages fd).2 = (s.consumeMessages fd).2 := by
  simp only [ExchangeServer.consumeMessages, h.lookup]
  exact h.consumeLoop fd _

theorem SameBut.onReadable (fd : Int) (script : List RecvOutcome) :
    SameBut (onReadable fd script s) (onReadable fd script t) := by
  induction script generalizing s t with
  | nil => exact h
  | cons outcome script ih =>
      simp only [ExchangeServer.onReadable, h.lookup]
      cases s.sessions.lookup fd with
      | none => exact h
      | some session =>
          simp only
          split
          · exact h
          · cases outcome with
            | data chunk =>
                have hreceived : SameBut (s.receive fd session chunk.bytes)
                    (t.receive fd session chunk.bytes) := (h.putSession fd _).observe _
                obtain ⟨hconsumed, hmore⟩ := hreceived.consumeMessages fd
                simp only [hmore]
                split
                · exact hconsumed
                · split
                  · exact hconsumed
                  · exact ih hconsumed
            | fin => exact h.beginOrderlyClose fd .fin
            | eintr => exact ih h
            | eagain => exact h
            | failed => exact h.drop fd .recvFailed

/-! ## The rest of the loop -/

theorem SameBut.openFd (fd : Int) : SameBut (s.openFd fd) (t.openFd fd) := by
  obtain ⟨loop, rfl⟩ := h
  exact ⟨loop, rfl⟩

theorem SameBut.emplace (fd : Int) (session : ClientSession) :
    SameBut (s.emplace fd session) (t.emplace fd session) := by
  unfold ExchangeServer.emplace
  rw [h.connected]
  split
  · exact h
  · exact h.putSession fd session

theorem SameBut.pauseAccepting : SameBut s.pauseAccepting t.pauseAccepting := by
  obtain ⟨loop, rfl⟩ := h
  unfold ExchangeServer.pauseAccepting
  split
  · exact ⟨loop, rfl⟩
  · exact ⟨_, rfl⟩

theorem SameBut.resumeAcceptingIfDue :
    SameBut s.resumeAcceptingIfDue t.resumeAcceptingIfDue := by
  obtain ⟨loop, rfl⟩ := h
  unfold ExchangeServer.resumeAcceptingIfDue
  split
  · exact ⟨loop, rfl⟩
  · split
    · exact ⟨loop, rfl⟩
    · exact ⟨_, rfl⟩

theorem SameBut.reapClosed : SameBut s.reapClosed t.reapClosed := by
  have hclosed : ∀ fds : List Int, ∀ a b : ExchangeServer, SameBut a b →
      SameBut (Loop.run ExchangeServer.closeFd a fds) (Loop.run ExchangeServer.closeFd b fds) := by
    intro fds
    induction fds with
    | nil => exact fun a b hab => hab
    | cons fd fds ih => exact fun a b hab => ih _ _ (hab.closeFd fd)
  have hfds : t.closedFds = s.closedFds := by
    obtain ⟨loop, rfl⟩ := h
    rfl
  obtain ⟨loop, hloop⟩ := hclosed s.closedFds s t h
  unfold ExchangeServer.reapClosed
  rw [hfds, hloop]
  exact ⟨loop, rfl⟩

theorem SameBut.load (a : Answers) : SameBut (s.load a) (t.load a) := by
  obtain ⟨loop, rfl⟩ := h
  exact ⟨_, rfl⟩

end Steps

/-! ## New connections -/

/-- Nobody was turned away by the event loop. -/
def Welcoming (trace : List Obs) : Prop := ∀ fd, .refused fd ∉ trace

theorem Welcoming.of_append {trace new : List Obs} (h : Welcoming (trace ++ new)) :
    Welcoming trace :=
  fun fd hmem => h fd (List.mem_append_left _ hmem)

/-- Whoever is turned away is in the trace. -/
theorem add_of_welcoming {s : ExchangeServer} {fd : Int} (h : Welcoming (s.register fd).trace) :
    (s.loop.add fd true false).2 = true := by
  by_contra hno
  refine h fd ?_
  rw [register]
  simp only [Bool.not_eq_true] at hno
  simp [hno, closeFd, observe]

theorem SameBut.register {s t : ExchangeServer} (h : SameBut s t) {fd : Int}
    (hs : Welcoming (s.register fd).trace) (ht : Welcoming (t.register fd).trace) :
    SameBut (s.register fd) (t.register fd) := by
  have hok := add_of_welcoming hs
  have hok' := add_of_welcoming ht
  unfold ExchangeServer.register
  simp only [hok, hok', if_true]
  exact h.relist _ _

theorem register_trace (s : ExchangeServer) (fd : Int) :
    ∃ new, (s.register fd).trace = s.trace ++ new := by
  unfold register
  simp only
  split
  · exact ⟨[], (List.append_nil _).symm⟩
  · exact ⟨[.refused fd, .closed fd], refuse_trace _ fd⟩

theorem acceptPending_trace (script : List AcceptOutcome) (s : ExchangeServer) :
    ∃ new, (acceptPending script s).trace = s.trace ++ new := by
  induction script generalizing s with
  | nil => exact ⟨[], (List.append_nil _).symm⟩
  | cons outcome script ih =>
      cases outcome with
      | again | aborted | failed => exact ⟨[], (List.append_nil _).symm⟩
      | exhausted =>
          simp only [acceptPending, pauseAccepting]
          split <;> exact ⟨[], (List.append_nil _).symm⟩
      | connection fd peer nonblocking =>
          simp only [acceptPending]
          split
          · exact ⟨[], (List.append_nil _).symm⟩
          · split
            · exact ⟨_, bounce_trace s fd⟩
            · obtain ⟨new, hnew⟩ := ih
                ((((s.openFd fd).emplace fd { fd := fd, peer := peer }).observe
                  (.accepted fd)).register fd)
              obtain ⟨first, hfirst⟩ := register_trace
                (((s.openFd fd).emplace fd { fd := fd, peer := peer }).observe (.accepted fd)) fd
              have hmade : (((s.openFd fd).emplace fd { fd := fd, peer := peer }).observe
                  (.accepted fd)).trace = s.trace ++ [.accepted fd] := by
                unfold emplace
                split <;> rfl
              exact ⟨_, by rw [hnew, hfirst, hmade, List.append_assoc, List.append_assoc]⟩

theorem Welcoming.before_accepts {s : ExchangeServer} {script : List AcceptOutcome}
    (h : Welcoming (acceptPending script s).trace) : Welcoming s.trace := by
  obtain ⟨new, hnew⟩ := acceptPending_trace script s
  rw [hnew] at h
  exact h.of_append

theorem SameBut.acceptPending {s t : ExchangeServer} (h : SameBut s t)
    (script : List AcceptOutcome) (hs : Welcoming (acceptPending script s).trace)
    (ht : Welcoming (acceptPending script t).trace) :
    SameBut (acceptPending script s) (acceptPending script t) := by
  induction script generalizing s t with
  | nil => exact h
  | cons outcome script ih =>
      cases outcome with
      | again | aborted | failed => exact h
      | exhausted => exact h.pauseAccepting
      | connection fd peer nonblocking =>
          have hopen : t.kernel.openFds = s.kernel.openFds := by
            obtain ⟨loop, rfl⟩ := h
            rfl
          simp only [ExchangeServer.acceptPending, hopen] at hs ht ⊢
          split
          · exact h
          · next hnew =>
              rw [if_neg hnew] at hs ht
              split
              · exact ((h.openFd fd).observe (.bounced fd)).closeFd fd
              · next hnonblocking =>
                  rw [if_neg hnonblocking] at hs ht
                  have hmade := ((h.openFd fd).emplace fd { fd := fd, peer := peer }).observe
                    (.accepted fd)
                  exact ih (hmade.register hs.before_accepts ht.before_accepts) hs ht

/-! ## Turns and runs -/

theorem SameBut.onEvent {s t : ExchangeServer} (h : SameBut s t) (e : Event) (a : Answers)
    (hs : Welcoming (s.onEvent e a).trace) (ht : Welcoming (t.onEvent e a).trace) :
    SameBut (s.onEvent e a) (t.onEvent e a) := by
  have hlistener : t.listenerFd = s.listenerFd := by
    obtain ⟨loop, rfl⟩ := h
    rfl
  unfold ExchangeServer.onEvent at hs ht ⊢
  rw [hlistener] at ht ⊢
  split
  · next hfd =>
      rw [if_pos hfd] at hs ht
      exact h.acceptPending a.accepts hs ht
  · rw [h.connected]
    split
    · exact h
    · have hwritten : SameBut (if e.writable then s.onWritable e.fd else s)
          (if e.writable then t.onWritable e.fd else t) := by
        split
        · exact h.onWritable e.fd
        · exact h
      clear hs ht
      generalize (if e.writable then s.onWritable e.fd else s) = s₁ at hwritten ⊢
      generalize (if e.writable then t.onWritable e.fd else t) = t₁ at hwritten ⊢
      simp only [hwritten.connected]
      split
      · exact hwritten
      · have hread : SameBut
            (if e.readable then ExchangeServer.onReadable e.fd a.recvs s₁ else s₁)
            (if e.readable then ExchangeServer.onReadable e.fd a.recvs t₁ else t₁) := by
          split
          · exact hwritten.onReadable e.fd a.recvs
          · exact hwritten
        generalize (if e.readable then ExchangeServer.onReadable e.fd a.recvs s₁ else s₁) = s₂
          at hread ⊢
        generalize (if e.readable then ExchangeServer.onReadable e.fd a.recvs t₁ else t₁) = t₂
          at hread ⊢
        simp only [hread.connected]
        split
        · exact hread
        · split
          · exact hread.drop e.fd .hangup
          · exact hread

/-- **The step lemma.** -/
theorem SameBut.turn {s t : ExchangeServer} (h : SameBut s t) (x : Turn)
    (hs : Welcoming (s.turn x).trace) (ht : Welcoming (t.turn x).trace) :
    SameBut (s.turn x) (t.turn x) := by
  have hloaded := h.load x.answers
  unfold ExchangeServer.turn at hs ht ⊢
  cases hinput : x.input with
  | resumeAccepting => exact hloaded.resumeAcceptingIfDue
  | event e =>
      rw [hinput] at hs ht
      exact hloaded.onEvent e x.answers hs ht
  | reapClosed => exact hloaded.reapClosed

/-- The trace only ever grows. -/
theorem Moves.trace {s s' : ExchangeServer} (h : Moves s s') :
    ∃ new, s'.trace = s.trace ++ new := by
  induction h with
  | refl => exact ⟨[], (List.append_nil _).symm⟩
  | tail _ hmove ih =>
      obtain ⟨new, hnew⟩ := ih
      obtain ⟨last, hlast⟩ := hmove.trace
      exact ⟨new ++ last, by rw [hlast, hnew, List.append_assoc]⟩

theorem run_turn (c : Setup) (turns : List Turn) (t : Turn) :
    run c (turns ++ [t]) = (run c turns).turn t :=
  Loop.run_concat _ _ _ _

theorem Welcoming.before_turn {c : Setup} {turns : List Turn} {t : Turn}
    (h : Welcoming (run c (turns ++ [t])).trace) : Welcoming (run c turns).trace := by
  have hmoves : Moves (run c turns) ((run c turns).turn t) :=
    turn_moves (run_reachable c turns).base t
  obtain ⟨new, hnew⟩ := Moves.trace hmoves
  rw [run_turn, hnew] at h
  exact h.of_append

theorem run_sameBut (c : Setup) (backend backend' : Backend) (turns : List Turn)
    (hs : Welcoming (run { c with backend := backend } turns).trace)
    (ht : Welcoming (run { c with backend := backend' } turns).trace) :
    SameBut (run { c with backend := backend } turns)
      (run { c with backend := backend' } turns) := by
  induction turns using List.reverseRecOn with
  | nil => exact ⟨_, rfl⟩
  | append_singleton turns t ih =>
      have hbefore := ih hs.before_turn ht.before_turn
      rw [run_turn] at hs ht
      rw [run_turn, run_turn]
      exact hbefore.turn t hs ht

/-! ## `poll` turns nobody away -/

theorem Welcoming.append {trace new : List Obs} (h : Welcoming trace) (hnew : Welcoming new) :
    Welcoming (trace ++ new) := by
  intro fd hmem
  rcases List.mem_append.mp hmem with hmem | hmem
  · exact h fd hmem
  · exact hnew fd hmem

theorem Serves.welcoming {fd : Int} {s s' : ExchangeServer} (hserves : Serves fd s s')
    (h : Welcoming s.trace) : Welcoming s'.trace := by
  refine hserves.invariant (I := fun s => Welcoming s.trace) ?_ h
  intro a b hserve ha
  cases hserve with
  | act hact =>
      cases hact with
      | drop dest reason horderly =>
          cases hdest : a.sessions.lookup dest with
          | none => rwa [drop_of_lookup_none hdest]
          | some session =>
              rw [drop_trace hdest reason]
              exact ha.append (by simp [Welcoming])
      | relist | interest => exact ha
      | queue | write | leave | login | subscribe | unsubscribe | submit | cancel =>
          exact ha.append (by simp [Welcoming])
  | receive | take | handled => exact ha.append (by simp [Welcoming])

theorem Beat.welcoming {s s' : ExchangeServer} (hbeat : Beat s s') (hb : Base s)
    (hpoll : s.loop.backend = .poll) (h : Welcoming s.trace) : Welcoming s'.trace := by
  cases hbeat with
  | receive => exact h.append (by simp [Welcoming])
  | line fd session line tail hsession hopen hline =>
      exact (handleLine_serves hb hsession hline).welcoming h
  | oversized fd session hsession hopen => exact (oversized_acts hb fd).serves.welcoming h
  | fin fd session hsession hopen =>
      have hacts : Acts fd s (s.beginOrderlyClose fd .fin) := beginOrderlyClose_acts fd .fin
      exact hacts.serves.welcoming h
  | writable fd => exact (onWritable_acts hb fd fd).serves.welcoming h
  | abort fd reason horderly =>
      cases hdest : s.sessions.lookup fd with
      | none => rwa [drop_of_lookup_none hdest]
      | some session =>
          rw [drop_trace hdest reason]
          exact h.append (by simp [Welcoming])
  | accept fd peer hfd hnone hnonneg =>
      have hok : ((s.welcome fd peer).loop.add fd true false).2 = true := by
        have hbackend : (s.welcome fd peer).loop.backend = .poll := hpoll
        rw [EventLoop.add, hbackend]
      unfold register
      simp only [hok, if_true]
      exact h.append (by simp [Welcoming])
  | bounce fd hfd =>
      rw [bounce_trace s fd]
      exact h.append (by simp [Welcoming])
  | pause =>
      unfold pauseAccepting
      split <;> exact h
  | resume =>
      unfold resumeAcceptingIfDue
      split
      · exact h
      · split <;> exact h
  | reap =>
      rw [reapClosed_trace s]
      exact h.append (by simp [Welcoming])

theorem run_welcoming (c : Setup) (hpoll : c.backend = .poll) (turns : List Turn) :
    Welcoming (run c turns).trace := by
  have hrun : (run c turns).loop.backend = .poll ∧ Welcoming (run c turns).trace := by
    refine run_beat_invariant (I := fun s => s.loop.backend = .poll ∧ Welcoming s.trace) c
      ⟨(backend_add { backend := c.backend } _ _ _).trans hpoll, by simp [Welcoming, start]⟩
      (fun s a h => h) (fun s s' hreach hbeat h => ?_) turns
    exact ⟨(loopRule_backend .poll).stage h.1 hreach.base hbeat.stage,
      hbeat.welcoming hreach.base h.1 h.2⟩
  exact hrun.2

end SocketExchange.Server
