import SocketExchange.Network.ClientSession
import SocketExchange.Network.EventLoop
import SocketExchange.Protocol.MessageParser
import SocketExchange.Trading.OrderBook

/-!
# The exchange server

A translation of `class ExchangeServer` in `src/exchange_server.cpp`, as state
passing.  One record holds the members of the class, the kernel it talks to,
and a trace.

* The kernel answers system calls from scripts.  Scripts are handed out anew
  with every event, per descriptor, and are arbitrary; nothing is assumed of
  them except that `accept` returns a number that is not open.
* The trace records what happened at the boundary of the server.  No definition
  of this file reads it; it is there so that a statement can speak of the bytes
  accepted so far or of the connection an order came from.

A C++ reference into `sessions_` is the key it is stored under.  `flush` writes
to the session under its key and addresses the socket by `session.fd`, as the
source does; that the two agree is a theorem, not a convention.  Logging is left
out.
-/

namespace SocketExchange.Server

open SocketExchange.Lib
open SocketExchange.Lib.Bytes
open SocketExchange.Network
open SocketExchange.Protocol
open SocketExchange.Trading.OrderBook

/-- `kMaxLineBytes`: the largest application message accepted from a client. -/
def kMaxLineBytes : Nat := 64 * 1024

/-- `kAcceptBackoffSeconds`, in the nanoseconds of the clock. -/
def kAcceptBackoff : Nat := 1000000000

/-! ## The kernel -/

/-- The bytes of one successful `recv` into a buffer of `kReadChunk` bytes. -/
structure Chunk where
  bytes : Bytes
  nonempty : 0 < bytes.length
  fits : bytes.length ≤ kReadChunk
  deriving Repr, DecidableEq

/-- The result of one `recv` call. -/
inductive RecvOutcome where
  | data (chunk : Chunk)
  /-- The peer has shut down its sending direction. -/
  | fin
  | eintr
  | eagain
  | failed
  deriving Repr, DecidableEq

/-- The result of one `accept` call, and of `set_nonblocking` after it. -/
inductive AcceptOutcome where
  | connection (fd : Nat) (peer : Bytes) (nonblocking : Bool)
  | again
  /-- `ECONNABORTED` or `EINTR`. -/
  | aborted
  /-- `EMFILE`, `ENFILE`, `ENOBUFS` or `ENOMEM`. -/
  | exhausted
  | failed
  deriving Repr, DecidableEq

/-- The kernel as the server sees it while it handles one event. -/
structure Kernel where
  /-- What the next `send` calls on each socket will return. -/
  sends : Int → List SendOutcome := fun _ => []
  /-- `CLOCK_MONOTONIC`. -/
  clock : Nat := 0
  openFds : List Int := []
  /-- How the unordered containers are walked. -/
  order : HashOrder := .stored

def Kernel.setSends (k : Kernel) (fd : Int) (script : List SendOutcome) : Kernel :=
  { k with sends := fun fd' => if fd' = fd then script else k.sends fd' }

/-! ## The state -/

/-- What became of the sender while one of its lines was handled. -/
inductive LineOutcome where
  | stillOpen
  | closing
  | dropped
  deriving Repr, DecidableEq

/-- What happens at the boundary of the server. -/
inductive Obs where
  /-- `accept` returned a descriptor and a session was made for it. -/
  | accepted (fd : Int)
  /-- The event loop did not take it. -/
  | refused (fd : Int)
  /-- `accept` returned a descriptor that could not be made non-blocking. -/
  | bounced (fd : Int)
  | dropped (fd : Int) (reason : DropReason)
  | closed (fd : Int)
  | received (fd : Int) (chunk : Bytes)
  /-- `handle_message` is entered. -/
  | handling (fd : Int) (line : Bytes)
  /-- `handle_message` has returned. -/
  | handled (fd : Int) (line : Bytes) (outcome : LineOutcome)
  /-- `begin_orderly_close` was applied. -/
  | leaving (fd : Int) (reason : DropReason)
  /-- A message was appended to the output of a session. -/
  | queued (fd : Int) (message : Response)
  /-- The kernel took these bytes. -/
  | sent (fd : Int) (bytes : Bytes)
  | loggedIn (fd : Int) (username : Bytes)
  | subscribed (fd : Int) (instrument : Bytes)
  | unsubscribed (fd : Int) (instrument : Bytes)
  /-- `add_order` was called, and made these fills. -/
  | submitted (o : Incoming) (quantity : Int) (fills : List Fill)
  /-- A `cancel_order` succeeded. -/
  | cancelled (fd orderId : Int)
  deriving Repr, DecidableEq

abbrev SessionMap := AList fun _ : Int => ClientSession

abbrev SubscriberMap := AList fun _ : Bytes => List Int

/-- `subscribers_[instrument]`, a missing entry being empty. -/
def subscribersOf (m : SubscriberMap) (instrument : Bytes) : List Int :=
  (m.lookup instrument).getD []

/-- `subscribers_[instrument].insert(fd)`. -/
def addSubscriber (fd : Int) (m : SubscriberMap) (instrument : Bytes) : SubscriberMap :=
  m.insert instrument ((subscribersOf m instrument).insert fd)

/-- `subscribers_[instrument].erase(fd)`. -/
def eraseSubscriber (fd : Int) (m : SubscriberMap) (instrument : Bytes) : SubscriberMap :=
  m.insert instrument ((subscribersOf m instrument).filter (· ≠ fd))

/-- `class ExchangeServer`, its kernel, and the trace. -/
structure ExchangeServer where
  listenerFd : Int
  loop : EventLoop
  sessions : SessionMap := ∅
  subscribers : SubscriberMap := ∅
  usernames : List Bytes := []
  closedFds : List Int := []
  book : Book := Book.empty
  /-- While non-zero, accepting is suspended until this time. -/
  acceptResumeAt : Nat := 0
  kernel : Kernel := {}
  trace : List Obs := []

namespace ExchangeServer

def observe (s : ExchangeServer) (o : Obs) : ExchangeServer :=
  { s with trace := s.trace ++ [o] }

/-- Writes to a session through a reference into `sessions_`. -/
def putSession (s : ExchangeServer) (fd : Int) (session : ClientSession) : ExchangeServer :=
  { s with sessions := s.sessions.insert fd session }

/-- `sessions_.find(fd) != sessions_.end()`. -/
def connected (s : ExchangeServer) (fd : Int) : Bool := (s.sessions.lookup fd).isSome

/-- `sessions_[fd]`: a missing entry is created. -/
def sessionAt (s : ExchangeServer) (fd : Int) : ExchangeServer × ClientSession :=
  match s.sessions.lookup fd with
  | some session => (s, session)
  | none => (s.putSession fd {}, {})

/-! ## Connection lifecycle -/

/-- `close(fd)`. -/
def closeFd (s : ExchangeServer) (fd : Int) : ExchangeServer :=
  { s.observe (.closed fd) with
    kernel := { s.kernel with openFds := s.kernel.openFds.filter (· ≠ fd) } }

/-- Detaches a session from all server state.  The descriptor itself is closed
later, by `reapClosed`. -/
def drop (s : ExchangeServer) (fd : Int) (reason : DropReason) : ExchangeServer :=
  match s.sessions.lookup fd with
  | none => s
  | some session =>
      { s with
        subscribers := Loop.run (eraseSubscriber fd) s.subscribers
          (s.kernel.order.walk session.subscriptions)
        usernames :=
          if session.loggedIn then s.usernames.filter (· ≠ session.username) else s.usernames
        book := s.book.removeOrdersOf s.kernel.order fd
        sessions := s.sessions.erase fd
        loop := s.loop.remove fd
        closedFds := s.closedFds ++ [fd]
        trace := s.trace ++ [.dropped fd reason] }

def reapClosed (s : ExchangeServer) : ExchangeServer :=
  { Loop.run closeFd s s.closedFds with closedFds := [] }

def pauseAccepting (s : ExchangeServer) : ExchangeServer :=
  if s.acceptResumeAt ≠ 0 then s
  else
    { s with
      acceptResumeAt := s.kernel.clock + kAcceptBackoff
      loop := (s.loop.update s.listenerFd false false).1 }

def resumeAcceptingIfDue (s : ExchangeServer) : ExchangeServer :=
  if s.acceptResumeAt = 0 then s
  else if s.kernel.clock < s.acceptResumeAt then s
  else
    { s with
      acceptResumeAt := 0
      loop := (s.loop.update s.listenerFd true false).1 }

/-- `accept` has returned `fd`. -/
def openFd (s : ExchangeServer) (fd : Int) : ExchangeServer :=
  { s with kernel := { s.kernel with openFds := fd :: s.kernel.openFds } }

/-- `sessions_.emplace(fd, session)`, which does not replace an entry. -/
def emplace (s : ExchangeServer) (fd : Int) (session : ClientSession) : ExchangeServer :=
  if s.connected fd then s else s.putSession fd session

/-- The session is registered with the event loop, or given up again. -/
def register (s : ExchangeServer) (fd : Int) : ExchangeServer :=
  let (loop, ok) := s.loop.add fd true false
  let s := { s with loop := loop }
  if ok then s
  else closeFd ({ s with sessions := s.sessions.erase fd }.observe (.refused fd)) fd

/-- `accept_pending`, over the results of its `accept` calls.  A number that is
open is not one that `accept` can return; the script is then read as ended. -/
def acceptPending : List AcceptOutcome → ExchangeServer → ExchangeServer
  | [], s => s
  | .connection fd peer nonblocking :: rest, s =>
      if (fd : Int) ∈ s.kernel.openFds then s
      else
        let s := s.openFd fd
        if !nonblocking then (s.observe (.bounced fd)).closeFd fd
        else
          let s := (s.emplace fd { fd := fd, peer := peer }).observe (.accepted fd)
          acceptPending rest (s.register fd)
  | .exhausted :: _, s => s.pauseAccepting
  | .again :: _, s => s
  | .aborted :: _, s => s
  | .failed :: _, s => s

/-! ## Output path -/

/-- The session stored under `key` after the writes of a flush. -/
def written (s : ExchangeServer) (key fd : Int) (f : Flushed) : ExchangeServer :=
  { (s.putSession key f.session).observe (.sent fd f.sent) with
    kernel := s.kernel.setSends fd f.script }

/-- `flush(session)`, for the session stored under `key`. -/
def flush (s : ExchangeServer) (key : Int) (session : ClientSession) : ExchangeServer :=
  let f := session.flush (s.kernel.sends session.fd)
  let s := s.written key session.fd f
  match f.outcome with
  | .drop reason => s.drop session.fd reason
  | .reregister wantRead wantWrite =>
      { s with loop := (s.loop.update session.fd wantRead wantWrite).1 }
  | .keep => s

def sendTo (s : ExchangeServer) (fd : Int) (message : Response) : ExchangeServer :=
  match s.sessions.lookup fd with
  | none => s
  | some session =>
      let session := session.append message.render
      ((s.putSession fd session).observe (.queued fd message)).flush fd session

def onWritable (s : ExchangeServer) (fd : Int) : ExchangeServer :=
  match s.sessions.lookup fd with
  | none => s
  | some session => s.flush fd session

def beginOrderlyClose (s : ExchangeServer) (fd : Int) (reason : DropReason) :
    ExchangeServer :=
  match s.sessions.lookup fd with
  | none => s
  | some session =>
      let session := { session with closing := true, inbuf := [] }
      let s := (s.putSession fd session).observe (.leaving fd reason)
      if !session.hasPendingOutput then s.drop fd reason
      else
        let s := s.putSession fd { session with readInterest := false, writeInterest := true }
        { s with loop := (s.loop.update fd false true).1 }

/-! ## Protocol -/

/-- Rejects a command the client's role does not permit; true if rejected. -/
def rejectWrongRole (s : ExchangeServer) (fd : Int) (required : ClientRole)
    (type : CommandType) : ExchangeServer × Bool :=
  let (s, session) := s.sessionAt fd
  if session.role = .unknown ∨ session.role = required then (s, false)
  else
    let actual := if session.role = .trader then ascii "trader" else ascii "market-data"
    (s.sendTo fd (.error (verb type ++ ascii " is not permitted for a " ++ actual ++
      ascii " client")), true)

def handleLogin (s : ExchangeServer) (fd : Int) (cmd : ParsedCommand) : ExchangeServer :=
  let (s, rejected) := s.rejectWrongRole fd .trader cmd.type
  if rejected then s
  else
    let (s, session) := s.sessionAt fd
    if session.loggedIn then
      s.sendTo fd (.error (ascii "Already logged in as " ++ session.username))
    else
      let username := cmd.arg 0
      if username ∈ s.usernames then
        s.sendTo fd (.error (ascii "Username " ++ username ++ ascii " is already in use"))
      else
        let s := s.putSession fd
          { session with role := .trader, username := username, loggedIn := true }
        let s := { s with usernames := s.usernames.insert username }
        (s.observe (.loggedIn fd username)).sendTo fd .ok

/-- The first role-specific command fixes the role. -/
def assumeMarketData (session : ClientSession) : ClientSession :=
  if session.role = .unknown then { session with role := .marketData } else session

def handleSubscription (s : ExchangeServer) (fd : Int) (cmd : ParsedCommand) :
    ExchangeServer :=
  let (s, rejected) := s.rejectWrongRole fd .marketData cmd.type
  if rejected then s
  else
    let (s, session) := s.sessionAt fd
    let instrument := cmd.instrument
    if cmd.type ≠ .subscribe ∧ instrument ∉ session.subscriptions then
      s.sendTo fd (.error (ascii "Not subscribed to " ++ instrument))
    else
      let session := assumeMarketData session
      if cmd.type = .subscribe then
        let s := s.putSession fd
          { session with subscriptions := session.subscriptions.insert instrument }
        let s := { s with subscribers := addSubscriber fd s.subscribers instrument }
        (s.observe (.subscribed fd instrument)).sendTo fd .ok
      else
        let s := s.putSession fd
          { session with subscriptions := session.subscriptions.filter (· ≠ instrument) }
        let s := { s with subscribers := eraseSubscriber fd s.subscribers instrument }
        (s.observe (.unsubscribed fd instrument)).sendTo fd .ok

/-- Trading commands additionally require a completed LOGIN. -/
def requireLoggedInTrader (s : ExchangeServer) (fd : Int) (type : CommandType) :
    ExchangeServer × Bool :=
  let (s, rejected) := s.rejectWrongRole fd .trader type
  if rejected then (s, false)
  else
    let (s, session) := s.sessionAt fd
    if !session.loggedIn then
      (s.sendTo fd (.error (ascii "Not logged in: send LOGIN <username> before trading")),
        false)
    else (s, true)

/-- One execution: both parties, then every subscriber of the instrument, from a
copy of the set. -/
def publish (s : ExchangeServer) (execution : TradeExecution) : ExchangeServer :=
  let s := s.sendTo execution.buyerFd
    (.bought execution.instrument execution.quantity execution.price)
  let s := s.sendTo execution.sellerFd
    (.sold execution.instrument execution.quantity execution.price)
  match s.subscribers.lookup execution.instrument with
  | none => s
  | some targets =>
      Loop.run (fun s fd => sendTo s fd
          (.trade execution.instrument execution.quantity execution.price))
        s (s.kernel.order.walk targets)

/-- The publishing loop of `handle_order`, which is left when the submitter is
no longer connected. -/
def publishAll (fd : Int) : List TradeExecution → ExchangeServer → ExchangeServer
  | [], s => s
  | execution :: executions, s =>
      let s := s.publish execution
      if !s.connected fd then s else publishAll fd executions s

/-- The side of a trading command. -/
def sideOf (type : CommandType) : Side := if type = .buy then .buy else .sell

/-- What `book_.add_order` returns for a command of `fd`. -/
def addResult (s : ExchangeServer) (fd : Int) (cmd : ParsedCommand) : AddResult :=
  s.book.addOrder fd cmd.instrument (sideOf cmd.type) cmd.quantity cmd.price

/-- `book_.add_order`, with its record in the trace. -/
def submit (s : ExchangeServer) (fd : Int) (cmd : ParsedCommand) : ExchangeServer :=
  let r := s.addResult fd cmd
  { s with book := r.book }.observe
    (.submitted ⟨r.orderId, fd, cmd.instrument, sideOf cmd.type, cmd.price⟩ cmd.quantity
      r.fills)

def handleOrder (s : ExchangeServer) (fd : Int) (cmd : ParsedCommand) : ExchangeServer :=
  let (s, ok) := s.requireLoggedInTrader fd cmd.type
  if !ok then s
  else
    let r := s.addResult fd cmd
    let s := (s.submit fd cmd).sendTo fd (.orderAccepted r.orderId)
    publishAll fd r.executions s

def handleCancel (s : ExchangeServer) (fd : Int) (cmd : ParsedCommand) : ExchangeServer :=
  let (s, ok) := s.requireLoggedInTrader fd cmd.type
  if !ok then s
  else
    let r := s.book.cancelOrder cmd.orderId fd
    let s := { s with book := r.book }
    if r.ok then
      (s.observe (.cancelled fd cmd.orderId)).sendTo fd (.orderCancelled cmd.orderId)
    else s.sendTo fd (.error r.error)

def handleMessage (s : ExchangeServer) (fd : Int) (line : Bytes) : ExchangeServer :=
  let cmd := parse line
  if !cmd.valid then s.sendTo fd (.error cmd.error)
  else
    match cmd.type with
    | .quit => s.beginOrderlyClose fd .quit
    | .login => s.handleLogin fd cmd
    | .subscribe => s.handleSubscription fd cmd
    | .unsubscribe => s.handleSubscription fd cmd
    | .buy => s.handleOrder fd cmd
    | .sell => s.handleOrder fd cmd
    | .cancel => s.handleCancel fd cmd
    | .unknown => s.sendTo fd (.error (ascii "Unknown command"))

/-! ## Input path -/

/-- `inbuf.find('\n')`: the bytes before the first newline and those after. -/
def splitLine : Bytes → Option (Bytes × Bytes)
  | [] => none
  | c :: rest =>
      if c = newline then some ([], rest)
      else (splitLine rest).map fun (line, tail) => (c :: line, tail)

/-- Tolerate CRLF from line-oriented tools. -/
def stripCarriageReturn (line : Bytes) : Bytes :=
  if line.getLast? = some carriageReturn then line.dropLast else line

def oversizedMessage : Response :=
  .error (ascii "Message exceeds " ++ decimal kMaxLineBytes ++
    ascii " bytes without a newline")

/-- The state of the sender after one of its lines. -/
def lineOutcome (s : ExchangeServer) (fd : Int) : LineOutcome :=
  match s.sessions.lookup fd with
  | none => .dropped
  | some session => if session.closing then .closing else .stillOpen

/-- A line leaves the input buffer and is handled. -/
def handleLine (s : ExchangeServer) (fd : Int) (session : ClientSession)
    (line tail : Bytes) : ExchangeServer :=
  let s := (s.putSession fd { session with inbuf := tail }).observe (.handling fd line)
  let s := s.handleMessage fd line
  s.observe (.handled fd line (s.lineOutcome fd))

/-- The loop of `consume_messages`; false if the session is gone or leaving. -/
def consumeLoop (fd : Int) : Nat → ExchangeServer → ExchangeServer × Bool
  | 0, s => (s, true)
  | fuel + 1, s =>
      match s.sessions.lookup fd with
      | none => (s, false)
      | some session =>
          match splitLine session.inbuf with
          | none =>
              if kMaxLineBytes < session.inbuf.length then
                ((s.sendTo fd oversizedMessage).beginOrderlyClose fd .oversized, false)
              else (s, true)
          | some (line, tail) =>
              let s := s.handleLine fd session (stripCarriageReturn line) tail
              match s.lineOutcome fd with
              | .dropped => (s, false)
              | .closing => (s, true)
              | .stillOpen => consumeLoop fd fuel s

/-- `consume_messages`.  Every pass takes at least one byte out of the input
buffer and no handler puts one in. -/
def consumeMessages (s : ExchangeServer) (fd : Int) : ExchangeServer × Bool :=
  let buffered := match s.sessions.lookup fd with
    | none => 0
    | some session => session.inbuf.length
  consumeLoop fd (buffered + 1) s

/-- `session.inbuf.append(buffer, received)`. -/
def receive (s : ExchangeServer) (fd : Int) (session : ClientSession) (bytes : Bytes) :
    ExchangeServer :=
  (s.putSession fd { session with inbuf := session.inbuf ++ bytes }).observe
    (.received fd bytes)

/-- `on_readable`, over the results of its `recv` calls. -/
def onReadable (fd : Int) : List RecvOutcome → ExchangeServer → ExchangeServer
  | [], s => s
  | outcome :: script, s =>
      match s.sessions.lookup fd with
      | none => s
      | some session =>
          if session.closing then s
          else
            match outcome with
            | .data chunk =>
                let (s, more) := (s.receive fd session chunk.bytes).consumeMessages fd
                if !more then s
                -- fewer bytes than the buffer holds: the socket is drained
                else if chunk.bytes.length < kReadChunk then s
                else onReadable fd script s
            | .fin => s.beginOrderlyClose fd .fin
            | .eintr => onReadable fd script s
            | .eagain => s
            | .failed => s.drop fd .recvFailed

/-! ## The main loop -/

/-- What the world does while one event is handled. -/
structure Answers where
  sends : Int → List SendOutcome := fun _ => []
  recvs : List RecvOutcome := []
  accepts : List AcceptOutcome := []
  kevents : List KeventAnswer := []
  elapsed : Nat := 0
  order : HashOrder := .stored

/-- The points of `run` at which control returns to the loop. -/
inductive Input where
  | resumeAccepting
  | event (e : Event)
  | reapClosed
  deriving Repr, DecidableEq

structure Turn where
  input : Input
  answers : Answers := {}

def load (s : ExchangeServer) (a : Answers) : ExchangeServer :=
  { s with
    kernel := { s.kernel with
      sends := a.sends
      clock := s.kernel.clock + a.elapsed
      order := a.order }
    loop := { s.loop with kq := { s.loop.kq with answers := a.kevents } } }

/-- The body of the loop over a batch of events. -/
def onEvent (s : ExchangeServer) (e : Event) (a : Answers) : ExchangeServer :=
  if e.fd = s.listenerFd then acceptPending a.accepts s
  else if !s.connected e.fd then s
  else
    let s := if e.writable then s.onWritable e.fd else s
    if !s.connected e.fd then s
    else
      let s := if e.readable then onReadable e.fd a.recvs s else s
      if !s.connected e.fd then s
      else if e.hangup then s.drop e.fd .hangup
      else s

def turn (s : ExchangeServer) (t : Turn) : ExchangeServer :=
  let s := s.load t.answers
  match t.input with
  | .resumeAccepting => s.resumeAcceptingIfDue
  | .event e => s.onEvent e t.answers
  | .reapClosed => s.reapClosed

/-- The server once `start` has registered the listening socket. -/
def start (backend : Backend) (listenerFd : Int) (openFds : List Int) (clock : Nat) :
    ExchangeServer where
  listenerFd := listenerFd
  loop := (EventLoop.add { backend := backend } listenerFd true false).1
  kernel := { clock := clock, openFds := listenerFd :: openFds }

end ExchangeServer

/-- Where a server is started. -/
structure Setup where
  backend : Backend := .poll
  listenerFd : Int := 3
  openFds : List Int := [0, 1, 2]
  clock : Nat := 1

/-- The server after a sequence of turns: accepts, events and reaps in any order,
with any answers of the kernel. -/
def run (c : Setup) (turns : List ExchangeServer.Turn) : ExchangeServer :=
  Loop.run ExchangeServer.turn
    (ExchangeServer.start c.backend c.listenerFd c.openFds c.clock) turns

end SocketExchange.Server
