import SocketExchange.Server.Notifications

/-!
# A refused command changes nothing

Commands are refused all over the server: by the parser, by the role check, by the
login check, by every handler, and by the book.  Whatever refuses one, the answer is an
`ERROR`, and no other line is answered with one.  So the refusals are the lines of one
effect (`Effect.refuse`), and that effect is none: what is left of the line is the send.

The send may still drop the client, if its socket is broken or its backlog too long.
That is the one way a refused command reaches a table.
-/

namespace SocketExchange.Server

open SocketExchange.Lib
open SocketExchange.Lib.Bytes
open SocketExchange.Network
open SocketExchange.Protocol
open SocketExchange.Trading.OrderBook
open ExchangeServer

/-- The line is answered with an `ERROR`. -/
def AnsweredWithError (s : ExchangeServer) (fd : Int) (line : Bytes) : Prop :=
  ∃ reason, (fd, .error reason) ∈ queuedSince s (s.handleMessage fd line)

/-- What a client has registered. -/
def registration (session : ClientSession) : ClientRole × Bytes × Bool × List Bytes :=
  (session.role, session.username, session.loggedIn, session.subscriptions)

/-- Nothing a client can see or use has changed: the book with its counter, the names in
use, the subscribers, the sessions there are and what each has registered. -/
structure Unchanged (s s' : ExchangeServer) : Prop where
  book : s'.book = s.book
  usernames : s'.usernames = s.usernames
  subscribers : s'.subscribers = s.subscribers
  sessions : ∀ fd, (s'.sessions.lookup fd).map registration =
    (s.sessions.lookup fd).map registration

theorem registration_of_client {x y : ClientSession} (h : y.client = x.client) :
    registration y = registration x := by
  rw [registration, registration, role_of_client h, username_of_client h, loggedIn_of_client h,
    subscriptions_of_client h]

/-- **A send that its receiver survives changes nothing.** -/
theorem sendTo_unchanged {s : ExchangeServer} (hb : Base s) {dest : Int} {message : Response}
    (hkept : (s.sendTo dest message).connected dest = true) :
    Unchanged s (s.sendTo dest message) := by
  obtain ⟨hbook, husernames, hsubscribers⟩ := sendTo_tables hb dest message hkept
  refine ⟨hbook, husernames, hsubscribers, fun fd => ?_⟩
  by_cases hfd : fd = dest
  · subst hfd
    obtain ⟨y, hy⟩ := connected_iff.mp hkept
    obtain ⟨x, hx, hclient⟩ := sendTo_client hb fd message hy
    rw [hx, hy]
    exact congrArg some (registration_of_client hclient)
  · rw [sendTo_lookup_ne hb hfd]

section Line

variable {s : ExchangeServer} {fd : Int} {line : Bytes}

private theorem queued_of_answered {reason : Bytes} {new : List Obs}
    (htrace : (s.handleMessage fd line).trace = s.trace ++ new)
    (h : (fd, .error reason) ∈ queuedSince s (s.handleMessage fd line)) :
    .queued fd (.error reason) ∈ new := by
  rw [queuedSince_of_trace htrace] at h
  obtain ⟨o, ho, hpair⟩ := List.mem_filterMap.mp h
  cases o with
  | queued dest message =>
      cases hpair
      exact ho
  | _ => cases hpair

/-- A line that ends the connection is not answered. -/
private theorem not_quits_of_answered (h : AnsweredWithError s fd line) : ¬ Quits line := by
  intro hquit
  obtain ⟨reason, hqueued⟩ := h
  obtain ⟨new, htrace, hcalm, _⟩ := beginOrderlyClose_calm s fd .quit
  rw [← handleMessage_quit line hquit] at htrace
  cases hcalm _ (queued_of_answered htrace hqueued)

/-- **Only a refusal is answered with an `ERROR`.** -/
theorem handleMessage_of_answered (hb : Base s) {session : ClientSession}
    (hsession : s.sessions.lookup fd = some session) (h : AnsweredWithError s fd line) :
    ∃ reason, s.handleMessage fd line = s.sendTo fd (.error reason) := by
  obtain ⟨s₁, reply, es, he, hhandle⟩ :=
    handleMessage_effect hsession line (not_quits_of_answered h)
  obtain ⟨reason, hqueued⟩ := h
  obtain ⟨pre, hpre, hprelude⟩ := he.prelude
  obtain ⟨new, hnew, htell⟩ := settle_telling (he.acts.base hb) he.connected.2 reply es
  have htrace : (s.handleMessage fd line).trace =
      s.trace ++ (pre ++ .queued fd reply :: new) := by
    rw [hhandle, hnew, hpre, List.append_assoc]
  have hreply : reply = .error reason := by
    rcases List.mem_append.mp (queued_of_answered htrace hqueued) with hmem | hmem
    · -- before the answer stands a record of what the line did
      cases hprelude with
      | answer => cases hmem
      | note ho =>
          rw [← List.mem_singleton.mp hmem] at ho
          cases ho
      | submit => cases List.mem_singleton.mp hmem
    · rcases List.mem_cons.mp hmem with heq | hmem
      · cases heq
        rfl
      · rcases htell.only _ hmem with hcalm | hnotice
        · cases hcalm
        · cases hnotice
  subst hreply
  cases he with
  | refuse session reason hlookup hplain => exact ⟨reason, hhandle⟩

end Line

/-- **A refused command changes nothing.**  In every reachable state, a line that is
answered with an `ERROR` leaves the book, the tables and what every session has registered
as they were, unless sending the `ERROR` drops the sender. -/
theorem refused_command_changes_nothing (c : Setup) (s : ExchangeServer) (hs : Reachable c s)
    (fd : Int) (session : ClientSession) (hsession : s.sessions.lookup fd = some session)
    (line : Bytes) (hrefused : AnsweredWithError s fd line)
    (hkept : (s.handleMessage fd line).connected fd = true) :
    Unchanged s (s.handleMessage fd line) := by
  obtain ⟨reason, hsend⟩ := handleMessage_of_answered hs.base hsession hrefused
  rw [hsend] at hkept ⊢
  exact sendTo_unchanged hs.base hkept

/-- Client 5 trades; client 6 has connected and not said anything. -/
private def traderAndStranger : List Turn :=
  [{ input := .event { fd := 3, readable := true },
     answers := { accepts := [.connection 5 [] true, .connection 6 [] true] } },
   { input := .event { fd := 5, readable := true },
     answers := { recvs := [.data ⟨ascii "LOGIN erin\nSELL IMCT 4 9\n", by decide, by decide⟩] } }]

theorem refused_command_changes_nothing_name_taken :
    (run {} traderAndStranger).usernames = [ascii "erin"] ∧
      Unchanged (run {} traderAndStranger)
        ((run {} traderAndStranger).handleMessage 6 (ascii "LOGIN erin")) := by
  refine ⟨by decide +kernel, ?_⟩
  have hsession : ((run {} traderAndStranger).sessions.lookup 6).isSome = true := by
    decide +kernel
  obtain ⟨session, hsession⟩ := Option.isSome_iff_exists.mp hsession
  exact refused_command_changes_nothing {} _ (run_reachable {} traderAndStranger) 6 session
    hsession (ascii "LOGIN erin")
    ⟨ascii "Username erin is already in use", by decide +kernel⟩ (by decide +kernel)

end SocketExchange.Server
