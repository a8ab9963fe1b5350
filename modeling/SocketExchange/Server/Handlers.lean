import SocketExchange.Server.Steps

/-!
# Handlers are sequences of steps

For each function of the server, the sequence of elementary steps it takes.
The guards of the steps are discharged here, once: a handler is only entered for
a connected session, a login only happens under a free name, an order is only
submitted by a trader that is logged in.
-/

namespace SocketExchange.Server

open SocketExchange.Lib
open SocketExchange.Lib.Bytes
open SocketExchange.Network
open SocketExchange.Protocol
open SocketExchange.Trading.OrderBook
open ExchangeServer

/-! ## Output -/

section Output

variable {s : ExchangeServer} (hb : Base s) (fd : Int)

include hb

theorem flush_acts {key : Int} {session : ClientSession}
    (h : s.sessions.lookup key = some session) : Acts fd s (s.flush key session) := by
  have hkey : session.fd = key := hb.own key session h
  have hwrite : Act fd s _ := Act.write s key session h
  unfold ExchangeServer.flush
  dsimp only
  split
  · next reason hend =>
    refine Relation.ReflTransGen.tail (Relation.ReflTransGen.single hwrite) (Act.drop _ _ _ ?_)
    -- the session just written is the one that is dropped
    intro ho x hx
    rw [hkey] at hx hend
    simp only [written, observe, putSession, lookup_insert, if_pos] at hx
    cases hx
    rw [← hkey] at hend ⊢
    exact flush_orderly hend ho
  · exact Relation.ReflTransGen.tail (Relation.ReflTransGen.single hwrite) (Act.relist _ _)
  · exact Relation.ReflTransGen.single hwrite

/-- `send_to` is an append and a flush, whatever the message. -/
theorem sendTo_cases (dest : Int) (message : Response) :
    (s.sessions.lookup dest = none ∧ s.sendTo dest message = s) ∨
    ∃ session, s.sessions.lookup dest = some session ∧
      Base ((s.putSession dest (session.append message.render)).observe
        (.queued dest message)) ∧
      Acts fd ((s.putSession dest (session.append message.render)).observe
        (.queued dest message)) (s.sendTo dest message) := by
  unfold sendTo
  split
  · next h => exact Or.inl ⟨h, rfl⟩
  · next session h =>
    have hbase : Base ((s.putSession dest (session.append message.render)).observe
        (.queued dest message)) := hb.put h rfl rfl rfl rfl
    exact Or.inr ⟨session, h, hbase, flush_acts hbase fd (by simp [observe, putSession])⟩

theorem sendTo_base (dest : Int) (message : Response) : Base (s.sendTo dest message) := by
  rcases sendTo_cases hb dest dest message with ⟨_, hsame⟩ | ⟨_, _, hbase, hacts⟩
  · rw [hsame]
    exact hb
  · exact hacts.base hbase

theorem sendTo_acts (dest : Int) {message : Response} (howed : Owed s.trace dest message) :
    Acts fd s (s.sendTo dest message) := by
  rcases sendTo_cases hb fd dest message with ⟨_, hsame⟩ | ⟨session, h, _, hacts⟩
  · rw [hsame]
  · exact Relation.ReflTransGen.head (Act.queue s dest session message h howed) hacts

theorem onWritable_acts (dest : Int) : Acts fd s (s.onWritable dest) := by
  unfold onWritable
  split
  · exact Relation.ReflTransGen.refl
  · next session h => exact flush_acts hb fd h

omit hb in
theorem beginOrderlyClose_acts (reason : DropReason) :
    Acts fd s (s.beginOrderlyClose fd reason) := by
  unfold beginOrderlyClose
  split
  · exact Relation.ReflTransGen.refl
  · next session h =>
    have hleave := Act.leave s session reason h
    refine Relation.ReflTransGen.head hleave ?_
    dsimp only
    split
    · next hp =>
      refine Relation.ReflTransGen.single (Act.drop _ _ _ ?_)
      intro _ x hx
      simp only [observe, putSession, lookup_insert, if_pos] at hx
      cases hx
      exact pending_of_not_hasPendingOutput (by simpa using hp)
    · have hinterest : Act fd _ _ := Act.interest
        ((s.putSession fd { session with closing := true, inbuf := [] }).observe
          (.leaving fd reason))
        { session with closing := true, inbuf := [] } false true (by simp [observe, putSession])
      exact Relation.ReflTransGen.head hinterest
        (Relation.ReflTransGen.single (Act.relist _ _))

/-- A client is told that its line is too long, and is to leave. -/
theorem oversized_acts :
    Acts fd s ((s.sendTo fd oversizedMessage).beginOrderlyClose fd .oversized) := by
  have hsend : Acts fd s (s.sendTo fd oversizedMessage) := sendTo_acts hb fd fd trivial
  exact hsend.trans (beginOrderlyClose_acts fd .oversized)

/-- Sending an update to each of a list of clients. -/
theorem run_sendTrade_acts {e : TradeExecution} (he : Awaiting s.trace e) (dests : List Int) :
    Acts fd s (Loop.run
      (fun s dest => sendTo s dest (.trade e.instrument e.quantity e.price)) s dests) := by
  induction dests generalizing s with
  | nil => exact Relation.ReflTransGen.refl
  | cons dest dests ih =>
      rw [Loop.run_cons]
      have hsend : Acts fd s (s.sendTo dest (.trade e.instrument e.quantity e.price)) :=
        sendTo_acts hb fd dest ⟨e, he, rfl, rfl, rfl⟩
      exact hsend.trans (ih (hsend.base hb) (hsend.awaiting he))

theorem publish_acts {e : TradeExecution} (he : Awaiting s.trace e) :
    Acts fd s (s.publish e) := by
  have hbuyer : Acts fd s (s.sendTo e.buyerFd (.bought e.instrument e.quantity e.price)) :=
    sendTo_acts hb fd e.buyerFd ⟨e, he, rfl, rfl, rfl, rfl⟩
  have hseller : Owed (s.sendTo e.buyerFd (.bought e.instrument e.quantity e.price)).trace
      e.sellerFd (.sold e.instrument e.quantity e.price) :=
    ⟨e, hbuyer.awaiting he, rfl, rfl, rfl, rfl⟩
  have hboth : Acts fd s _ := hbuyer.trans (sendTo_acts (hbuyer.base hb) fd e.sellerFd hseller)
  unfold publish
  dsimp only
  split
  · exact hboth
  · exact hboth.trans (run_sendTrade_acts (hboth.base hb) fd (hboth.awaiting he) _)

theorem publishAll_acts {executions : List TradeExecution}
    (he : ∀ e ∈ executions, Awaiting s.trace e) :
    Acts fd s (publishAll fd executions s) := by
  induction executions generalizing s with
  | nil => exact Relation.ReflTransGen.refl
  | cons e executions ih =>
      have hpublish := publish_acts hb fd (he e (by simp))
      unfold publishAll
      dsimp only
      split
      · exact hpublish
      · exact hpublish.trans (ih (hpublish.base hb)
          fun e' he' => hpublish.awaiting (he e' (by simp [he'])))

end Output

/-! ## Commands -/

section Commands

variable {s : ExchangeServer} {fd : Int} {session : ClientSession}
  (h : s.sessions.lookup fd = some session)

include h

/-- A command is let through for a fitting role, or answered. -/
theorem rejectWrongRole_cases (required : ClientRole) (type : CommandType) :
    ((session.role = .unknown ∨ session.role = required) ∧
      s.rejectWrongRole fd required type = (s, false)) ∨
    ∃ reason, s.rejectWrongRole fd required type = (s.sendTo fd (.error reason), true) := by
  unfold rejectWrongRole
  rw [sessionAt_of_lookup h]
  dsimp only
  split
  · next hrole => exact Or.inl ⟨hrole, rfl⟩
  · exact Or.inr ⟨_, rfl⟩

/-- A trading command is let through for a trader that is logged in, or
answered. -/
theorem requireLoggedInTrader_cases (type : CommandType) :
    ((session.role = .unknown ∨ session.role = .trader) ∧ session.loggedIn = true ∧
      s.requireLoggedInTrader fd type = (s, true)) ∨
    ∃ reason, s.requireLoggedInTrader fd type = (s.sendTo fd (.error reason), false) := by
  unfold requireLoggedInTrader
  rcases rejectWrongRole_cases h .trader type with ⟨hrole, hreject⟩ | ⟨reason, hreject⟩
  · rw [hreject]
    dsimp only
    rw [sessionAt_of_lookup h]
    dsimp only
    cases hin : session.loggedIn with
    | false => exact Or.inr ⟨_, rfl⟩
    | true => exact Or.inl ⟨hrole, rfl, rfl⟩
  · rw [hreject]
    exact Or.inr ⟨reason, rfl⟩

variable (hb : Base s)

include hb

theorem handleLogin_acts (cmd : ParsedCommand) : Acts fd s (s.handleLogin fd cmd) := by
  unfold handleLogin
  rcases rejectWrongRole_cases h .trader cmd.type with ⟨hrole, hreject⟩ | ⟨reason, hreject⟩
  · rw [hreject]
    dsimp only
    rw [sessionAt_of_lookup h]
    dsimp only
    split
    · next hfalse => exact absurd hfalse (by decide)
    · split
      · exact sendTo_acts hb fd fd trivial
      · next hout =>
        split
        · exact sendTo_acts hb fd fd trivial
        · next hfree =>
          have hlogin := Act.login s session (cmd.arg 0) h hrole (by simpa using hout) hfree
          exact Relation.ReflTransGen.head hlogin (sendTo_acts (hlogin.base hb) fd fd trivial)
  · rw [hreject]
    exact sendTo_acts hb fd fd trivial

theorem handleSubscription_acts (cmd : ParsedCommand) :
    Acts fd s (s.handleSubscription fd cmd) := by
  unfold handleSubscription
  rcases rejectWrongRole_cases h .marketData cmd.type with ⟨hrole, hreject⟩ | ⟨reason, hreject⟩
  · rw [hreject]
    dsimp only
    rw [sessionAt_of_lookup h]
    dsimp only
    split
    · next hfalse => exact absurd hfalse (by decide)
    · split
      · exact sendTo_acts hb fd fd trivial
      · next hin =>
        split
        · have hsub := Act.subscribe s session cmd.instrument h hrole
          exact Relation.ReflTransGen.head hsub (sendTo_acts (hsub.base hb) fd fd trivial)
        · next htype =>
          have hmem : cmd.instrument ∈ session.subscriptions := by
            by_contra hnot
            exact hin ⟨htype, hnot⟩
          have hunsub := Act.unsubscribe s session cmd.instrument h hrole hmem
          exact Relation.ReflTransGen.head hunsub (sendTo_acts (hunsub.base hb) fd fd trivial)
  · rw [hreject]
    exact sendTo_acts hb fd fd trivial

theorem handleOrder_acts (cmd : ParsedCommand) (hcmd : 0 < cmd.quantity) :
    Acts fd s (s.handleOrder fd cmd) := by
  unfold handleOrder
  rcases requireLoggedInTrader_cases h cmd.type with ⟨hrole, hin, hpass⟩ | ⟨reason, hpass⟩
  · rw [hpass]
    dsimp only
    have hsubmit := Act.submit s session cmd h hrole hin hcmd
    have haccept : Acts fd (s.submit fd cmd)
        ((s.submit fd cmd).sendTo fd (.orderAccepted (s.addResult fd cmd).orderId)) :=
      sendTo_acts (hsubmit.base hb) fd fd trivial
    have hawait : ∀ e ∈ (s.addResult fd cmd).executions, Awaiting (s.submit fd cmd).trace e := by
      intro e he
      exact ⟨s.trace, _, _, _, [], rfl, by simp, List.mem_map.mp he⟩
    exact Relation.ReflTransGen.head hsubmit (haccept.trans
      (publishAll_acts (haccept.base (hsubmit.base hb)) fd
        fun e he => haccept.awaiting (hawait e he)))
  · rw [hpass]
    exact sendTo_acts hb fd fd trivial

omit h hb in
/-- A refused cancel leaves the book as it is. -/
theorem cancelOrder_book_of_not_ok {b : Book} {id requesterFd : Int}
    (hok : (b.cancelOrder id requesterFd).ok = false) :
    (b.cancelOrder id requesterFd).book = b := by
  unfold Book.cancelOrder at hok ⊢
  split
  · rfl
  · split
    · rfl
    · next loc hloc howner =>
      simp only [hloc] at hok
      rw [if_neg howner] at hok
      cases hok

theorem handleCancel_acts (cmd : ParsedCommand) : Acts fd s (s.handleCancel fd cmd) := by
  unfold handleCancel
  rcases requireLoggedInTrader_cases h cmd.type with ⟨hrole, hin, hpass⟩ | ⟨reason, hpass⟩
  · rw [hpass]
    dsimp only
    cases hok : (s.book.cancelOrder cmd.orderId fd).ok with
    | true =>
        have hcancel := Act.cancel s session cmd.orderId h hin hok
        exact Relation.ReflTransGen.head hcancel (sendTo_acts (hcancel.base hb) fd fd trivial)
    | false =>
        rw [cancelOrder_book_of_not_ok hok]
        exact sendTo_acts hb fd fd trivial
  · rw [hpass]
    exact sendTo_acts hb fd fd trivial

/-- **Handling a line is a sequence of acts of its sender.** -/
theorem handleMessage_acts (line : Bytes) : Acts fd s (s.handleMessage fd line) := by
  unfold handleMessage
  dsimp only
  split
  · exact sendTo_acts hb fd fd trivial
  · next hvalid =>
    have hvalid' : (parse line).valid = true := by simpa using hvalid
    split
    · exact beginOrderlyClose_acts fd .quit
    · exact handleLogin_acts h hb _
    · exact handleSubscription_acts h hb _
    · exact handleSubscription_acts h hb _
    · next htype => exact handleOrder_acts h hb _ (parse_order_pos hvalid' (Or.inl htype)).1
    · next htype => exact handleOrder_acts h hb _ (parse_order_pos hvalid' (Or.inr htype)).1
    · exact handleCancel_acts h hb _
    · exact sendTo_acts hb fd fd trivial

end Commands

/-- A drop that does not wait for the output. -/
theorem drop_act (s : ExchangeServer) (actor fd : Int) {reason : DropReason}
    (hreason : reason.orderly = false) : Act actor s (s.drop fd reason) :=
  Act.drop s fd reason (by simp [hreason])

/-! ## Rules for the loops over the input -/

/-- What `recv` has put at the end of the input buffer. -/
theorem receive_lookup (s : ExchangeServer) (fd : Int) (session : ClientSession)
    (bytes : Bytes) : (s.receive fd session bytes).sessions.lookup fd =
      some { session with inbuf := session.inbuf ++ bytes } := by
  simp [receive, observe, putSession]

theorem lineOutcome_stillOpen {s : ExchangeServer} {fd : Int} {session : ClientSession}
    (hstill : s.lineOutcome fd = .stillOpen) (h : s.sessions.lookup fd = some session) :
    session.closing = false := by
  cases hclosing : session.closing with
  | false => rfl
  | true => simp [lineOutcome, h, hclosing] at hstill

section Rules

variable {I : ExchangeServer → Prop} {fd : Int}

/-- **Invariant rule for the loop of `consume_messages`.**  A line is only ever taken
from a session that is open. -/
theorem consumeLoop_invariant
    (hline : ∀ s session line tail, s.sessions.lookup fd = some session →
      session.closing = false → splitLine session.inbuf = some (line, tail) → I s →
      I (s.handleLine fd session (stripCarriageReturn line) tail))
    (hlong : ∀ s session, s.sessions.lookup fd = some session → session.closing = false →
      splitLine session.inbuf = none → kMaxLineBytes < session.inbuf.length → I s →
      I ((s.sendTo fd oversizedMessage).beginOrderlyClose fd .oversized))
    (fuel : Nat) {s : ExchangeServer}
    (hopen : ∀ session, s.sessions.lookup fd = some session → session.closing = false)
    (hi : I s) : I (consumeLoop fd fuel s).1 := by
  induction fuel generalizing s with
  | zero => exact hi
  | succ fuel ih =>
      unfold consumeLoop
      split
      · exact hi
      · next session h =>
        split
        · next hnone =>
          split
          · next hlength => exact hlong s session h (hopen session h) hnone hlength hi
          · exact hi
        · next line tail hsplit =>
          have hi' := hline s session line tail h (hopen session h) hsplit hi
          dsimp only
          split
          · exact hi'
          · exact hi'
          · next hstill => exact ih (fun _ hx => lineOutcome_stillOpen hstill hx) hi'

/-- **Invariant rule for the loop of `on_readable`.** -/
theorem onReadable_invariant
    (hchunk : ∀ s session (chunk : Chunk), s.sessions.lookup fd = some session →
      session.closing = false → I s →
      I ((s.receive fd session chunk.bytes).consumeMessages fd).1)
    (hfin : ∀ s session, s.sessions.lookup fd = some session → session.closing = false →
      I s → I (s.beginOrderlyClose fd .fin))
    (hfailed : ∀ s, I s → I (s.drop fd .recvFailed))
    (script : List RecvOutcome) {s : ExchangeServer} (hi : I s) :
    I (onReadable fd script s) := by
  induction script generalizing s with
  | nil => exact hi
  | cons outcome script ih =>
      unfold onReadable
      split
      · exact hi
      · next session h =>
        split
        · exact hi
        · next hclosing =>
          have hopen : session.closing = false := by simpa using hclosing
          split
          · next chunk =>
            have hi' := hchunk s session chunk h hopen hi
            dsimp only
            split
            · exact hi'
            · split
              · exact hi'
              · exact ih hi'
          · exact hfin s session h hopen hi
          · exact ih hi
          · exact hi
          · exact hfailed s hi

/-- **Invariant rule for an event of a connection.** -/
theorem onEvent_invariant {e : Event} {a : Answers}
    (hwrite : ∀ s, I s → I (s.onWritable e.fd))
    (hread : ∀ s, I s → I (onReadable e.fd a.recvs s))
    (hhangup : ∀ s, I s → I (s.drop e.fd .hangup))
    {s : ExchangeServer} (hne : e.fd ≠ s.listenerFd) (hi : I s) : I (s.onEvent e a) := by
  unfold onEvent
  rw [if_neg hne]
  split
  · exact hi
  · have hi₁ : I (if e.writable then s.onWritable e.fd else s) := by
      split
      · exact hwrite s hi
      · exact hi
    dsimp only
    generalize (if e.writable = true then s.onWritable e.fd else s) = s₁ at hi₁ ⊢
    split
    · exact hi₁
    · have hi₂ : I (if e.readable then onReadable e.fd a.recvs s₁ else s₁) := by
        split
        · exact hread s₁ hi₁
        · exact hi₁
      generalize (if e.readable = true then onReadable e.fd a.recvs s₁ else s₁) = s₂ at hi₂ ⊢
      split
      · exact hi₂
      · split
        · exact hhangup s₂ hi₂
        · exact hi₂

end Rules

/-! ## Input -/

section Input

variable {s : ExchangeServer} (hb : Base s)

include hb

theorem handleLine_serves {fd : Int} {session : ClientSession} {line tail : Bytes}
    (h : s.sessions.lookup fd = some session)
    (hline : splitLine session.inbuf = some (line, tail)) :
    Serves fd s (s.handleLine fd session (stripCarriageReturn line) tail) := by
  have htake := Serve.take s session line tail h hline
  have hlookup : ((s.putSession fd { session with inbuf := tail }).observe
      (.handling fd (stripCarriageReturn line))).sessions.lookup fd =
        some { session with inbuf := tail } := by
    simp [observe, putSession]
  have hacts := handleMessage_acts hlookup (htake.base hb) (stripCarriageReturn line)
  exact Relation.ReflTransGen.head htake
    (hacts.serves.trans (Relation.ReflTransGen.single (Serve.handled _ _)))

/-- What has arrived is taken into the buffer, and the lines in it are handled. -/
theorem consume_serves {fd : Int} {session : ClientSession} (chunk : Chunk)
    (h : s.sessions.lookup fd = some session) (hopen : session.closing = false) :
    Serves fd s ((s.receive fd session chunk.bytes).consumeMessages fd).1 := by
  have hreceive := Serve.receive s session chunk.bytes h hopen
  refine consumeLoop_invariant (I := Serves fd s) ?_ ?_ _ ?_
    (Relation.ReflTransGen.single hreceive)
  · intro s₁ x line tail hx _ hline hserves
    exact hserves.trans (handleLine_serves (hserves.base hb) hx hline)
  · intro s₁ x _ _ _ _ hserves
    exact hserves.trans (oversized_acts (hserves.base hb) fd).serves
  · intro x hx
    rw [receive_lookup] at hx
    cases hx
    exact hopen

theorem onReadable_serves (fd : Int) (script : List RecvOutcome) :
    Serves fd s (onReadable fd script s) := by
  refine onReadable_invariant (I := Serves fd s) ?_ ?_ ?_ script Relation.ReflTransGen.refl
  · intro s₁ session chunk h hopen hserves
    exact hserves.trans (consume_serves (hserves.base hb) chunk h hopen)
  · intro s₁ session _ _ hserves
    exact hserves.trans (beginOrderlyClose_acts fd .fin).serves
  · intro s₁ hserves
    exact hserves.tail (Serve.act _ (drop_act s₁ fd fd rfl))

/-! ## Accepting -/

theorem acceptPending_envs (script : List AcceptOutcome) :
    Envs s (acceptPending script s) := by
  induction script generalizing s with
  | nil => exact Relation.ReflTransGen.refl
  | cons outcome script ih =>
      cases outcome with
      | again => exact Relation.ReflTransGen.refl
      | aborted => exact Relation.ReflTransGen.refl
      | failed => exact Relation.ReflTransGen.refl
      | exhausted =>
          unfold acceptPending pauseAccepting
          split
          · exact Relation.ReflTransGen.refl
          · exact Relation.ReflTransGen.single (Env.timer _ _ _)
      | connection fd peer nonblocking =>
          unfold acceptPending
          split
          · exact Relation.ReflTransGen.refl
          · next hfd =>
            dsimp only
            split
            · exact Relation.ReflTransGen.single (Env.bounce _ _ hfd)
            · rw [hb.emplace hfd]
              have haccept := Env.accept s fd peer hfd (hb.lookup_none hfd)
                (Int.natCast_nonneg fd)
              set s₁ := ((s.openFd fd).putSession fd { fd := fd, peer := peer }).observe
                (.accepted fd) with hs₁
              have hlookup : s₁.sessions.lookup (fd : Int) =
                  some { fd := fd, peer := peer } := by
                simp [hs₁, observe, putSession]
              have hregister : Envs s₁ (s₁.register fd) := by
                unfold register
                dsimp only
                have hrelist := Env.timer s₁ s₁.acceptResumeAt (s₁.loop.add fd true false).1
                split
                · exact Relation.ReflTransGen.single hrelist
                · exact Relation.ReflTransGen.tail (Relation.ReflTransGen.single hrelist)
                    (Env.refuse _ fd peer hlookup)
              have henvs : Envs s (s₁.register fd) :=
                Relation.ReflTransGen.head haccept hregister
              exact henvs.trans (ih (henvs.moves.base hb))

/-! ## Turns and runs -/

/-- An event of a connection is served for that connection alone. -/
theorem onEvent_serves {e : Event} (hne : e.fd ≠ s.listenerFd) (a : Answers) :
    Serves e.fd s (s.onEvent e a) := by
  refine onEvent_invariant (I := Serves e.fd s) ?_ ?_ ?_ hne Relation.ReflTransGen.refl
  · intro s₁ hserves
    exact hserves.trans (onWritable_acts (hserves.base hb) e.fd e.fd).serves
  · intro s₁ hserves
    exact hserves.trans (onReadable_serves (hserves.base hb) e.fd a.recvs)
  · intro s₁ hserves
    exact hserves.tail (Serve.act _ (drop_act s₁ e.fd e.fd rfl))

theorem onEvent_moves (e : Event) (a : Answers) : Moves s (s.onEvent e a) := by
  by_cases hne : e.fd = s.listenerFd
  · unfold onEvent
    rw [if_pos hne]
    exact (acceptPending_envs hb _).moves
  · exact (onEvent_serves hb hne a).moves

/-- **A turn of the server is a sequence of moves.** -/
theorem turn_moves (t : Turn) : Moves s (s.turn t) := by
  have hload := Env.load s t.answers
  have hb' := hload.base hb
  unfold turn
  dsimp only
  refine Relation.ReflTransGen.head (Move.env _ hload) ?_
  split
  · unfold resumeAcceptingIfDue
    split
    · exact Relation.ReflTransGen.refl
    · split
      · exact Relation.ReflTransGen.refl
      · exact Relation.ReflTransGen.single (Move.env _ (Env.timer _ _ _))
  · exact onEvent_moves hb' _ t.answers
  · exact Relation.ReflTransGen.single (Move.env _ (Env.reap _))

theorem run_turn_moves (turns : List Turn) : Moves s (Loop.run turn s turns) := by
  induction turns generalizing s with
  | nil => exact Relation.ReflTransGen.refl
  | cons t turns ih =>
      rw [Loop.run_cons]
      have hturn := turn_moves hb t
      exact hturn.trans (ih (hturn.base hb))

end Input

/-- A state the server can be in, between events or in the middle of a handler. -/
def Reachable (c : Setup) (s : ExchangeServer) : Prop :=
  Moves (ExchangeServer.start c.backend c.listenerFd c.openFds c.clock) s

theorem run_reachable (c : Setup) (turns : List Turn) : Reachable c (run c turns) :=
  run_turn_moves (base_start c) turns

theorem Reachable.base {c : Setup} {s : ExchangeServer} (h : Reachable c s) : Base s :=
  Moves.base h (base_start c)

end SocketExchange.Server
