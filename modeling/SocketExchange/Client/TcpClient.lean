import SocketExchange.Protocol.Texts
import SocketExchange.Server.Framing

/-!
# The receiving end

A translation of `TCPClient::receive_messages` in `src/network/tcp_client.cpp`, over
the results of its `recv` calls, and of the loop in `src/client_shell.cpp` that calls
it as long as the connection is alive.

One call may end in the middle of a message, or of a `recv` result's worth of
messages: what is left over stays in `inbuf_` for the next call.  The client does not
know the server's messages; it recovers them because each is one line.
-/

namespace SocketExchange.Client

open SocketExchange.Lib
open SocketExchange.Lib.Bytes
open SocketExchange.Protocol
open SocketExchange.Server
open ExchangeServer

/-- The size of the buffer of `receive_messages`. -/
def kReceiveBuffer : Nat := 8192

/-- The bytes of one successful `recv` into the buffer. -/
structure Segment where
  bytes : Bytes
  nonempty : 0 < bytes.length
  fits : bytes.length ≤ kReceiveBuffer
  deriving Repr

/-- The result of one `recv` call of the client. -/
inductive Received where
  | data (segment : Segment)
  | fin
  | eintr
  | eagain
  | failed
  deriving Repr

/-- What the client reports when the connection is gone. -/
inductive ReceiveError where
  /-- `server closed the connection`. -/
  | serverClosed
  /-- `recv() failed`. -/
  | recvFailed
  deriving Repr, DecidableEq

/-- The part of `class TCPClient` that receives. -/
structure TcpClient where
  inbuf : Bytes := []
  error : Option ReceiveError := none
  deriving Repr, DecidableEq

/-- What a call of `receive_messages` leaves: the client, the messages appended to
`out`, whether the connection is alive, and the results of later `recv` calls. -/
structure Reception where
  client : TcpClient
  out : List Bytes
  alive : Bool
  rest : List Received
  deriving Repr

/-- `while ((newline = inbuf_.find('\n')) != npos)`. -/
def extractLines : Nat → Bytes → List Bytes → Bytes × List Bytes
  | 0, inbuf, out => (inbuf, out)
  | fuel + 1, inbuf, out =>
      match splitLine inbuf with
      | none => (inbuf, out)
      | some (line, rest) => extractLines fuel rest (out ++ [stripCarriageReturn line])

/-- `receive_messages`.  When the results run out, the next `recv` would block. -/
def receiveMessages : List Received → TcpClient → List Bytes → Reception
  | [], client, out => ⟨client, out, true, []⟩
  | .data segment :: results, client, out =>
      let inbuf := client.inbuf ++ segment.bytes
      let (inbuf, out) := extractLines inbuf.length inbuf out
      let client := { client with inbuf := inbuf }
      if segment.bytes.length < kReceiveBuffer then ⟨client, out, true, results⟩
      else receiveMessages results client out
  | .fin :: results, client, out =>
      ⟨{ client with error := some .serverClosed }, out, false, results⟩
  | .eintr :: results, client, out => receiveMessages results client out
  | .eagain :: results, client, out => ⟨client, out, true, results⟩
  | .failed :: results, client, out =>
      ⟨{ client with error := some .recvFailed }, out, false, results⟩

/-- The calls of the client's main loop, which is left when the connection is gone.
What one call appends is printed before the next, so `out` is what was printed. -/
def receiveCalls : Nat → List Received → TcpClient → List Bytes → Reception
  | 0, results, client, out => ⟨client, out, true, results⟩
  | calls + 1, results, client, out =>
      let r := receiveMessages results client []
      if r.alive then receiveCalls calls r.rest r.client (out ++ r.out)
      else { r with out := out ++ r.out }

/-! ## Any cut of the stream gives the same messages -/

/-- The bytes of a `recv` result. -/
def Received.bytes : Received → Bytes
  | .data segment => segment.bytes
  | _ => []

/-- The stream is still open. -/
def Received.live : Received → Bool
  | .fin => false
  | .failed => false
  | _ => true

/-- The stream that was received in these pieces. -/
def stream (results : List Received) : Bytes := results.flatMap Received.bytes

/-- The lines of a buffer, and what follows the last of them. -/
theorem extractLines_eq (fuel : Nat) (inbuf : Bytes) (out : List Bytes)
    (hfuel : inbuf.length ≤ fuel) :
    extractLines fuel inbuf out =
      (Framing.tail newline inbuf, out ++ messagesOf inbuf) := by
  induction fuel generalizing inbuf out with
  | zero =>
      have hnil : inbuf = [] := List.length_eq_zero_iff.mp (Nat.le_zero.mp hfuel)
      subst hnil
      simp [extractLines, messagesOf, Framing.lines, Framing.tail, Framing.cut]
  | succ fuel ih =>
      unfold extractLines
      split
      · next hnone =>
        have hnot := splitLine_none hnone
        rw [messagesOf_of_notMem hnot, Framing.tail_of_notMem hnot, List.append_nil]
      · next line rest hline =>
        obtain ⟨hmessages, htail⟩ := messagesOf_splitLine hline
        have hlength : rest.length ≤ fuel := by
          rw [(splitLine_some hline).1] at hfuel
          simp at hfuel
          omega
        rw [ih rest _ hlength, hmessages, htail, List.append_assoc]
        rfl

/-- The client has printed the messages of the stream so far, and holds the rest of
it. -/
structure CaughtUp (sofar : Bytes) (client : TcpClient) (out : List Bytes) : Prop where
  out : out = messagesOf sofar
  inbuf : client.inbuf = Framing.tail newline sofar

/-- **One piece of the stream**, wherever it was cut. -/
theorem CaughtUp.segment {sofar : Bytes} {client : TcpClient} {printed out : List Bytes}
    (h : CaughtUp sofar client (printed ++ out)) (bytes : Bytes) :
    CaughtUp (sofar ++ bytes)
      { client with inbuf := (extractLines (client.inbuf ++ bytes).length
        (client.inbuf ++ bytes) out).1 }
      (printed ++ (extractLines (client.inbuf ++ bytes).length
        (client.inbuf ++ bytes) out).2) := by
  rw [extractLines_eq _ _ _ (Nat.le_refl _), h.inbuf, ← List.append_assoc, h.out]
  exact ⟨(messagesOf_append sofar bytes).symm, (Framing.tail_append sofar bytes).symm⟩

/-- Only the last result may end the stream. -/
def EndsLast (results : List Received) : Prop := ∀ r ∈ results.dropLast, r.live = true

theorem EndsLast.tail {r : Received} {results : List Received}
    (h : EndsLast (r :: results)) : EndsLast results := by
  intro x hx
  cases results with
  | nil => cases hx
  | cons y results => exact h x (List.mem_cons_of_mem _ hx)

theorem EndsLast.nil_of_not_live {r : Received} {results : List Received}
    (h : EndsLast (r :: results)) (hr : r.live = false) : results = [] := by
  cases results with
  | nil => rfl
  | cons y results =>
      have hlive := h r List.mem_cons_self
      rw [hr] at hlive
      cases hlive

/-- A call keeps up with the results it uses, and uses at least one. -/
structure CallOk (sofar : Bytes) (results : List Received) (printed : List Bytes)
    (r : Reception) : Prop where
  used : ∃ used, results = used ++ r.rest ∧
    CaughtUp (sofar ++ stream used) r.client (printed ++ r.out)
  ended : r.alive = false → r.rest = []
  shorter : results ≠ [] → r.rest.length < results.length

theorem receiveMessages_ok (results : List Received) {sofar : Bytes} {client : TcpClient}
    {printed out : List Bytes} (h : CaughtUp sofar client (printed ++ out))
    (hend : EndsLast results) :
    CallOk sofar results printed (receiveMessages results client out) := by
  induction results generalizing sofar client out with
  | nil => exact ⟨⟨[], rfl, by simpa [stream, receiveMessages] using h⟩,
      by simp [receiveMessages], by simp⟩
  | cons x results ih =>
      -- the results used by the rest of the call, after `x`
      have hmore : ∀ {client' : TcpClient} {out' : List Bytes},
          CaughtUp (sofar ++ x.bytes) client' (printed ++ out') →
          CallOk sofar (x :: results) printed (receiveMessages results client' out') := by
        intro client' out' h'
        obtain ⟨⟨used, hused, hcaught⟩, hended, _⟩ := ih h' hend.tail
        refine ⟨⟨x :: used, ?_, ?_⟩, hended, ?_⟩
        · rw [List.cons_append, ← hused]
        · rw [List.append_assoc] at hcaught
          exact hcaught
        · intro _
          have hlength := congrArg List.length hused
          rw [List.length_append] at hlength
          rw [List.length_cons]
          omega
      have hsame : x.bytes = [] → CaughtUp (sofar ++ x.bytes) client (printed ++ out) := by
        intro hx
        rw [hx, List.append_nil]
        exact h
      have hone : x.bytes = [] → ∃ used, x :: results = used ++ results ∧
          CaughtUp (sofar ++ stream used) client (printed ++ out) := by
        intro hx
        refine ⟨[x], rfl, ?_⟩
        rw [stream, List.flatMap_cons, List.flatMap_nil, List.append_nil]
        exact hsame hx
      cases x with
      | data segment =>
          have hsegment := h.segment segment.bytes
          unfold receiveMessages
          dsimp only
          split
          · refine ⟨⟨[.data segment], rfl, ?_⟩, by simp, by simp⟩
            rw [stream, List.flatMap_cons, List.flatMap_nil, List.append_nil]
            exact hsegment
          · exact hmore hsegment
      | eintr => exact hmore (hsame rfl)
      | eagain => exact ⟨hone rfl, by simp [receiveMessages], by simp [receiveMessages]⟩
      | fin =>
          obtain ⟨used, hused, hcaught⟩ := hone rfl
          refine ⟨⟨used, hused, hcaught.out, hcaught.inbuf⟩, ?_, by simp [receiveMessages]⟩
          exact fun _ => hend.nil_of_not_live rfl
      | failed =>
          obtain ⟨used, hused, hcaught⟩ := hone rfl
          refine ⟨⟨used, hused, hcaught.out, hcaught.inbuf⟩, ?_, by simp [receiveMessages]⟩
          exact fun _ => hend.nil_of_not_live rfl

theorem EndsLast.rest {used rest : List Received} (h : EndsLast (used ++ rest)) :
    EndsLast rest := by
  induction used with
  | nil => exact h
  | cons x used ih => exact ih h.tail

/-- **Enough calls use up the stream**, however it was cut. -/
theorem receiveCalls_caughtUp (calls : Nat) (results : List Received) {sofar : Bytes}
    {client : TcpClient} {out : List Bytes} (h : CaughtUp sofar client out)
    (hend : EndsLast results) (hcalls : results.length ≤ calls) :
    (receiveCalls calls results client out).rest = [] ∧
      CaughtUp (sofar ++ stream results) (receiveCalls calls results client out).client
        (receiveCalls calls results client out).out := by
  induction calls generalizing results sofar client out with
  | zero =>
      have hnil : results = [] := List.length_eq_zero_iff.mp (Nat.le_zero.mp hcalls)
      subst hnil
      exact ⟨rfl, by simpa [stream, receiveCalls] using h⟩
  | succ calls ih =>
      have hcall : CallOk sofar results out (receiveMessages results client []) :=
        receiveMessages_ok results (by rw [List.append_nil]; exact h) hend
      obtain ⟨used, hused, hcaught⟩ := hcall.used
      unfold receiveCalls
      dsimp only
      split
      · have hlength : (receiveMessages results client []).rest.length ≤ calls := by
          by_cases hnil : results = []
          · subst hnil
            exact Nat.zero_le _
          · have hshorter := hcall.shorter hnil
            omega
        have hrest : EndsLast (receiveMessages results client []).rest := by
          rw [hused] at hend
          exact hend.rest
        obtain ⟨hdone, hall⟩ := ih _ hcaught hrest hlength
        refine ⟨hdone, ?_⟩
        have hstream : sofar ++ stream results =
            (sofar ++ stream used) ++ stream (receiveMessages results client []).rest := by
          rw [List.append_assoc, stream, stream, stream, ← List.flatMap_append, ← hused]
        rw [hstream]
        exact hall
      · next hdead =>
        have hnil := hcall.ended (by simpa using hdead)
        refine ⟨hnil, ?_⟩
        have hstream : stream results = stream used := by
          conv => lhs; rw [hused, hnil, List.append_nil]
        rw [hstream]
        exact hcaught

/-! ## Streams of messages -/

/-- A message whose text is plain comes out as that text. -/
theorem messagesOf_render {messages : List Response}
    (h : ∀ m ∈ messages, Plain m.body) :
    messagesOf (messages.flatMap Response.render) = messages.map Response.body := by
  induction messages with
  | nil => rfl
  | cons m messages ih =>
      have hplain := h m List.mem_cons_self
      have hstrip : stripCarriageReturn m.body = m.body := by
        refine if_neg ?_
        intro hlast
        exact hplain.no_return (List.mem_of_getLast? hlast)
      have hstream : (m :: messages).flatMap Response.render =
          m.body ++ newline :: messages.flatMap Response.render := by
        rw [List.flatMap_cons, render_eq_body, List.append_assoc]
        rfl
      have hmessages := ih fun x hx => h x (List.mem_cons_of_mem _ hx)
      rw [messagesOf] at hmessages ⊢
      rw [hstream, Framing.lines_line hplain.no_newline, List.map_cons, hstrip, hmessages,
        List.map_cons]

/-- **The client recovers the messages.**  Whatever the messages, as long as their texts
are plain, and however their concatenation is cut into `recv` results. -/
theorem receiveCalls_messages {messages : List Response} (h : ∀ m ∈ messages, Plain m.body)
    {results : List Received} (hcut : stream results = messages.flatMap Response.render)
    (hend : EndsLast results) {calls : Nat} (hcalls : results.length ≤ calls) :
    (receiveCalls calls results {} []).out = messages.map Response.body := by
  have hstart : CaughtUp [] {} [] := ⟨rfl, rfl⟩
  obtain ⟨_, hcaught⟩ := receiveCalls_caughtUp calls results hstart hend hcalls
  rw [hcaught.out, List.nil_append, hcut, messagesOf_render h]

end SocketExchange.Client
