import SocketExchange.Client.TcpClient

/-!
# The client shell

A translation of `run_client_shell` in `src/client_shell.cpp` and of
`TCPClient::send_message` in `src/network/tcp_client.cpp`.

The shell is one loop over `poll`.  A pass of it is given what the kernel answers in
that pass: the result of `poll`, of the `recv` calls, and of the `send` calls.  The
results of `read` are a stream of their own, because a pass that finds standard input
closed leaves it alone.  After the `send` results that are listed, the kernel takes the
rest of a message at once; so every pattern of results under which `send_message`
returns is one of these lists.

Echo and error texts on the terminal are left out.
-/

namespace SocketExchange.Client

open SocketExchange.Lib
open SocketExchange.Lib.Bytes
open SocketExchange.Server
open ExchangeServer

/-! ## Sending -/

/-- The result of the `poll` that waits for room. -/
inductive WaitResult where
  | room
  | eintr
  | failed
  deriving Repr, DecidableEq

/-- The result of one `send` call of the client. -/
inductive SendResult where
  /-- The kernel takes up to `count` bytes. -/
  | wrote (count : Nat) (pos : 0 < count)
  | eintr
  /-- The send buffer is full, and the client waits. -/
  | eagain (wait : WaitResult)
  /-- Any other error, or nothing written. -/
  | failed
  deriving Repr, DecidableEq

/-- What `send_message` reports. -/
inductive SendError where
  | pollFailed
  | sendFailed
  deriving Repr, DecidableEq

/-- What a call of `send_message` leaves: the bytes the kernel took, the error if it
failed, and the results of later `send` calls. -/
structure Sent where
  taken : Bytes
  error : Option SendError
  rest : List SendResult
  deriving Repr

/-- `send_message`, for the part of the line that is not yet written. -/
def sendMessage : List SendResult → Bytes → Sent
  | script, [] => ⟨[], none, script⟩
  | [], line => ⟨line, none, []⟩
  | .wrote count _ :: script, line =>
      let r := sendMessage script (line.drop count)
      { r with taken := line.take count ++ r.taken }
  | .eintr :: script, line => sendMessage script line
  | .eagain .failed :: script, _ => ⟨[], some .pollFailed, script⟩
  | .eagain .room :: script, line => sendMessage script line
  | .eagain .eintr :: script, line => sendMessage script line
  | .failed :: script, _ => ⟨[], some .sendFailed, script⟩

/-! ## The shell -/

/-- The size of the buffer `read` is given. -/
def kStdinBuffer : Nat := 4096

/-- The bytes of one successful `read`. -/
structure Typed where
  bytes : Bytes
  nonempty : 0 < bytes.length
  fits : bytes.length ≤ kStdinBuffer
  deriving Repr

/-- The result of one `read` of standard input. -/
inductive ReadResult where
  | data (typed : Typed)
  | endOfInput
  | eintr
  | failed
  deriving Repr

/-- The result of `poll` on the socket and on standard input. -/
inductive PollResult where
  /-- What is ready to be read, or closed. -/
  | ready (socket stdin : Bool)
  | eintr
  | failed
  deriving Repr, DecidableEq

/-- What the kernel does in one pass of the loop. -/
structure Pass where
  /-- `SIGINT` or `SIGTERM` has arrived when `g_stop` is looked at. -/
  signal : Bool := false
  poll : PollResult
  recvs : List Received := []
  sends : List SendResult := []
  deriving Repr

/-- The variables of `run_client_shell`, its client, and what it did to the socket. -/
structure Shell where
  client : TcpClient := {}
  stdinBuffer : Bytes := []
  stdinOpen : Bool := true
  sentQuit : Bool := false
  status : Nat := 0
  /-- The results of later `read` calls. -/
  reads : List ReadResult := []
  /-- The bytes the kernel took. -/
  wire : Bytes := []
  /-- `shutdown(fd, SHUT_WR)` was called. -/
  halfClosed : Bool := false
  error : Option SendError := none
  /-- The messages of the server. -/
  printed : List Bytes := []
  /-- The loop has been left. -/
  left : Bool := false
  deriving Repr

namespace Shell

/-- `client.send_message(message)`. -/
def send (s : Shell) (script : List SendResult) (message : Bytes) : Shell × Sent :=
  let r := sendMessage script message
  ({ s with wire := s.wire ++ r.taken, error := r.error.or s.error }, r)

/-- The end of `run_client_shell`. -/
def leave (s : Shell) : Shell :=
  { s with halfClosed := s.halfClosed || !s.sentQuit, left := true }

/-- The commands sent right after connecting; the shell is given up if one fails. -/
def sendInitial : List Bytes → List SendResult → Shell → Shell
  | [], _, s => s
  | command :: commands, script, s =>
      let (s, r) := s.send script (command ++ [newline])
      if r.error.isSome then { s with status := 1, left := true }
      else sendInitial commands r.rest s

/-- `while ((newline = stdin_buffer.find('\n')) != npos)`.  A message that cannot be sent
sets `g_stop`, which ends the main loop too. -/
def sendLines : Nat → List SendResult → Shell → Shell
  | 0, _, s => s
  | fuel + 1, script, s =>
      match splitLine s.stdinBuffer with
      | none => s
      | some (line, rest) =>
          let s := { s with stdinBuffer := rest }
          let line := stripCarriageReturn line
          if line = [] then sendLines fuel script s
          else
            let (s, r) := s.send script (line ++ [newline])
            if r.error.isSome then { s with status := 1 }.leave
            else if line = ascii "QUIT" then
              { s with sentQuit := true, stdinOpen := false, halfClosed := true }
            else sendLines fuel r.rest s

/-- Standard input is ready.  If there is nothing, `read` would wait. -/
def readStdin (s : Shell) (script : List SendResult) : Shell :=
  match s.reads with
  | [] => s
  | .failed :: reads => { s with reads := reads, stdinOpen := false }
  | .eintr :: reads => { s with reads := reads }
  | .endOfInput :: reads =>
      let s := { s with reads := reads, stdinOpen := false }
      if s.sentQuit then s
      else
        let s := { s with sentQuit := true }
        { (s.send script (ascii "QUIT" ++ [newline])).1 with halfClosed := true }
  | .data typed :: reads =>
      let buffer := s.stdinBuffer ++ typed.bytes
      sendLines buffer.length script { s with reads := reads, stdinBuffer := buffer }

/-- `client.receive_messages`, and its messages printed. -/
def receive (s : Shell) (results : List Received) : Shell × Bool :=
  let r := receiveMessages results s.client []
  ({ s with client := r.client, printed := s.printed ++ r.out }, r.alive)

/-- One pass of `while (!g_stop)`. -/
def pass (s : Shell) (p : Pass) : Shell :=
  if s.left then s
  else if p.signal then s.leave
  else
    match p.poll with
    | .eintr => s
    | .failed => { s with status := 1 }.leave
    | .ready socket stdin =>
        let (s, alive) := if socket then s.receive p.recvs else (s, true)
        if !alive then s.leave
        else if !s.stdinOpen then s
        else if !stdin then s
        else s.readStdin p.sends

end Shell

/-- `run_client_shell` after some passes of its loop. -/
def runClientShell (connected : Bool) (initialCommands : List Bytes)
    (script : List SendResult) (reads : List ReadResult) (passes : List Pass) : Shell :=
  if !connected then { status := 1, left := true }
  else
    Loop.run Shell.pass (Shell.sendInitial initialCommands script { reads := reads }) passes

end SocketExchange.Client
