import SocketExchange.Client.Failures
import SocketExchange.Client.Recovery
import SocketExchange.Protocol.Wire
import SocketExchange.Server.LineLimit

/-!
# A user and the server

One connection from end to end: the keyboard, the shell, the stream in one direction, the
server, the stream in the other direction, the screen.

The network is TCP, and that is all that is assumed of it: what has come out of a stream
is a beginning of what was put into it.  Everything else may fail at any time, on either
side.
-/

namespace SocketExchange.Client

open SocketExchange.Lib
open SocketExchange.Lib.Bytes
open SocketExchange.Network
open SocketExchange.Protocol
open SocketExchange.Server
open ExchangeServer

/-! ## Streams of lines -/

theorem messagesOf_isPrefix {x y : Bytes} (h : x <+: y) : messagesOf x <+: messagesOf y :=
  (Framing.lines_isPrefix h).map stripCarriageReturn

theorem tail_onTheWire (lines : List Bytes) : Framing.tail newline (onTheWire lines) = [] := by
  induction lines with
  | nil => rfl
  | cons line lines ih =>
      have hwire : onTheWire (line :: lines) = line ++ newline :: onTheWire lines := by
        simp [onTheWire]
      have hend : Framing.tail newline (line ++ [newline]) = [] := by
        rw [Framing.tail_append, Framing.tail_line (Framing.notMem_tail _)]
        rfl
      rw [hwire, List.append_cons, Framing.tail_append, hend, List.nil_append]
      exact ih

theorem messagesOf_onTheWire_append (commands lines : List Bytes) :
    messagesOf (onTheWire (commands ++ lines)) =
      messagesOf (onTheWire commands) ++ messagesOf (onTheWire lines) := by
  rw [onTheWire_append, messagesOf_append, tail_onTheWire, List.nil_append]

/-- Lines without a newline in them come out as they were, but for a carriage return. -/
theorem messagesOf_onTheWire {lines : List Bytes} (h : ∀ line ∈ lines, newline ∉ line) :
    messagesOf (onTheWire lines) = lines.map stripCarriageReturn := by
  induction lines with
  | nil => rfl
  | cons line lines ih =>
      have hwire : onTheWire (line :: lines) = line ++ newline :: onTheWire lines := by
        simp [onTheWire]
      have hrest := ih fun x hx => h x (List.mem_cons_of_mem _ hx)
      rw [messagesOf] at hrest ⊢
      rw [hwire, Framing.lines_line (h line List.mem_cons_self), List.map_cons, hrest,
        List.map_cons]

/-- A line of a stream holds no newline. -/
theorem notMem_of_mem_messagesOf {stream line : Bytes} (h : line ∈ messagesOf stream) :
    newline ∉ line := by
  obtain ⟨raw, hraw, rfl⟩ := List.mem_map.mp h
  have hnot : newline ∉ raw := Framing.notMem_of_mem_lines hraw
  unfold stripCarriageReturn
  split
  · exact fun hmem => hnot (List.dropLast_subset raw hmem)
  · exact hnot

theorem mem_of_mem_untilQuit {lines : List Bytes} {line : Bytes} (h : line ∈ untilQuit lines) :
    line = quit ∨ line ∈ lines := by
  induction lines with
  | nil => exact Or.inl (List.mem_singleton.mp h)
  | cons first lines ih =>
      rw [untilQuit] at h
      split at h
      · rw [List.mem_singleton.mp h]
        exact Or.inr List.mem_cons_self
      · rcases List.mem_cons.mp h with rfl | h
        · exact Or.inr List.mem_cons_self
        · exact (ih h).imp_right (List.mem_cons_of_mem first)

theorem notMem_of_mem_typedLines {input line : Bytes} (h : line ∈ typedLines input) :
    newline ∉ line :=
  notMem_of_mem_messagesOf (List.mem_of_mem_filter h)

theorem notMem_of_mem_untilQuit {input line : Bytes}
    (h : line ∈ untilQuit (typedLines input)) : newline ∉ line := by
  rcases mem_of_mem_untilQuit h with rfl | h
  · decide
  · exact notMem_of_mem_typedLines h

/-! ## What the server has sent -/

/-- What the kernel has taken begins what was queued, also for a connection that is gone. -/
def SentQueued (trace : List Obs) : Prop := ∀ fd, sentTo fd trace <+: queuedTo fd trace

theorem SentQueued.concat {trace : List Obs} (h : SentQueued trace) {o : Obs}
    (ho : ∀ dest bytes, o ≠ .sent dest bytes) : SentQueued (trace ++ [o]) := by
  intro fd
  by_cases hfd : o = .accepted fd
  · simp [hfd, sentTo, sinceAccept, Log.since_concat]
  · have hnothing : o.sentBytes fd = [] := by
      cases o <;> first | rfl | exact absurd rfl (ho _ _)
    rw [sentTo_concat hfd, queuedTo_concat hfd, hnothing, List.append_nil]
    exact (h fd).trans (List.prefix_append _ _)

theorem SentQueued.append {trace : List Obs} (h : SentQueued trace) {new : List Obs}
    (hnew : ∀ o ∈ new, ∀ dest bytes, o ≠ .sent dest bytes) : SentQueued (trace ++ new) := by
  induction new generalizing trace with
  | nil => rwa [List.append_nil]
  | cons o new ih =>
      rw [List.append_cons]
      exact ih (h.concat (hnew o List.mem_cons_self))
        fun o' ho' => hnew o' (List.mem_cons_of_mem o ho')

/-- A write is exact for the session it is about. -/
theorem SentQueued.write {s : ExchangeServer} (h : SentQueued s.trace) {fd : Int}
    {session : ClientSession} (hown : session.fd = fd) {f : Flushed}
    (hi : OutputInv (s.written fd session.fd f)) :
    SentQueued (s.written fd session.fd f).trace := by
  intro fd'
  by_cases hfd : fd' = fd
  · subst hfd
    have hlookup : (s.written fd' session.fd f).sessions.lookup fd' = some f.session := by
      simp [written, observe, putSession]
    rw [← (hi.exact fd' _ hlookup).1]
    exact List.prefix_append _ _
  · have hother : ∀ bytes, (Obs.sent session.fd bytes).sentBytes fd' = [] := by
      intro bytes
      rw [hown]
      exact if_neg (Ne.symm hfd)
    show sentTo fd' (s.trace ++ [_]) <+: queuedTo fd' (s.trace ++ [_])
    rw [sentTo_concat (by simp), queuedTo_concat (by simp), hother, List.append_nil]
    exact (h fd').trans (List.prefix_append _ _)

/-- **The step lemma.** -/
theorem Move.sentQueued {s s' : ExchangeServer} (hmove : Move s s') (hb : Base s)
    (hi : OutputInv s) (h : SentQueued s.trace) : SentQueued s'.trace := by
  have hi' := hmove.outputInv hb hi
  cases hmove with
  | serve hserve =>
      cases hserve with
      | act hact =>
          cases hact with
          | write dest session hsession => exact h.write (hb.own dest session hsession) hi'
          | drop dest reason horderly =>
              cases hdest : s.sessions.lookup dest with
              | none => rwa [drop_of_lookup_none hdest]
              | some session =>
                  rw [drop_trace hdest reason]
                  exact h.append (by simp)
          | relist | interest => exact h
          | queue | leave | login | subscribe | unsubscribe | submit | cancel =>
              exact h.append (by simp)
      | receive | take | handled => exact h.append (by simp)
  | env henv =>
      cases henv with
      | accept fd peer hfd hnone hnonneg => exact h.append (by simp)
      | refuse fd peer hfd =>
          rw [refuse_trace s fd]
          exact h.append (by simp)
      | bounce fd hfd =>
          rw [bounce_trace s fd]
          exact h.append (by simp)
      | reap =>
          rw [reapClosed_trace s]
          exact h.append (by simp)
      | timer | load => exact h

theorem run_sentQueued (c : Setup) (turns : List Turn) : SentQueued (run c turns).trace := by
  have hmoves : Moves _ (run c turns) := run_reachable c turns
  have hall := hmoves.invariant
    (I := fun s => Base s ∧ OutputInv s ∧ SentQueued s.trace)
    (fun _ _ hmove h => ⟨hmove.base h.1, hmove.outputInv h.1 h.2.1,
      Move.sentQueued hmove h.1 h.2.1 h.2.2⟩)
    ⟨base_start c, outputInv_start c, fun _ => List.prefix_rfl⟩
  exact hall.2.2

/-! ## Both directions -/

/-- The lines the server is to hear: the initial commands, and what was typed. -/
def meant (commands lines : List Bytes) : List Bytes :=
  messagesOf (onTheWire commands) ++ lines.map stripCarriageReturn

theorem messagesOf_meant (commands : List Bytes) {lines : List Bytes}
    (h : ∀ line ∈ lines, newline ∉ line) :
    messagesOf (onTheWire (commands ++ lines)) = meant commands lines := by
  rw [messagesOf_onTheWire_append, messagesOf_onTheWire h, meant]

/-- The messages queued to a connection are lines. -/
theorem messagesOf_queuedTo (c : Setup) (turns : List Turn) (fd : Int) :
    messagesOf (queuedTo fd (run c turns).trace) =
      (messagesTo fd (run c turns).trace).map Response.body := by
  rw [queuedTo_eq_messagesTo]
  refine messagesOf_render ?_
  intro message hmem
  obtain ⟨o, ho, hmessage⟩ := List.mem_flatMap.mp hmem
  have htrace : o ∈ (run c turns).trace := (Log.since_isSuffix _ _).mem ho
  cases o with
  | queued dest m =>
      rw [Obs.messageTo] at hmessage
      split at hmessage
      · rw [List.mem_singleton.mp hmessage]
        exact plain_body ((run_worded c turns).said _ htrace)
      · cases hmessage
  | _ => cases hmessage

/-- **The bytes tell the messages.**  Compare what two connections were sent, in any two
runs: the one stream of bytes begins the other if and only if the one sequence of messages
begins the other.  So a client that has read some way into its stream knows which messages
it has been sent, kinds, reasons, names, numbers and all. -/
theorem bytes_tell_messages (c c' : Setup) (turns turns' : List Turn) (fd fd' : Int) :
    queuedTo fd (run c turns).trace <+: queuedTo fd' (run c' turns').trace ↔
      messagesTo fd (run c turns).trace <+: messagesTo fd' (run c' turns').trace := by
  constructor
  · intro h
    have hlines := messagesOf_isPrefix h
    rw [messagesOf_queuedTo, messagesOf_queuedTo] at hlines
    exact (List.prefix_map_iff_of_injective body_injective).mp hlines
  · rintro ⟨rest, hrest⟩
    rw [queuedTo_eq_messagesTo, queuedTo_eq_messagesTo, ← hrest, List.flatMap_append]
    exact List.prefix_append _ _

section Connection

variable (c : Setup) (turns : List Turn) (fd : Int) (connected : Bool) (commands : List Bytes)
  (script : List SendResult) (reads : List ReadResult) (passes : List Pass)

/-- **From the keyboard to the screen.**  Let a shell and a server be connected by TCP, each
in any state that any run of its own can reach.

* The lines the server has handled begin the initial commands and what was typed, up to
  the first `QUIT` or with one at the end: none is lost in between, repeated, reordered,
  split or joined.
* What is on the screen begins the messages the server has queued for this connection.
* When nothing is under way, and neither side has stopped, then every line typed has been
  handled and every message queued has been printed. -/
theorem keyboard_to_screen
    (hup : receivedFrom fd (run c turns).trace <+:
      (runClientShell connected commands script reads passes).wire)
    (hdown : heardBy connected commands script reads passes <+:
      sentTo fd (run c turns).trace) :
    let server := run c turns
    let shell := runClientShell connected commands script reads passes
    let handled := (handledLines fd server.trace).map Prod.fst
    let queued := (messagesTo fd server.trace).map Response.body
    handled <+: meant commands (untilQuit (typedLines (typed (readable reads)))) ∧
    shell.printed <+: queued ∧
    ∀ session, server.sessions.lookup fd = some session → session.closing = false →
      session.pending = [] → shell.left = false → shell.stdinOpen = true →
      receivedFrom fd server.trace = shell.wire →
      heardBy connected commands script reads passes = sentTo fd server.trace →
      (∃ used, reads = used ++ shell.reads ∧ handled = meant commands (typedLines (typed used))) ∧
        shell.printed = queued := by
  intro server shell handled queued
  have hlistened : Listened fd server := run_listened c turns fd
  have hqueued : messagesOf (queuedTo fd server.trace) = queued := messagesOf_queuedTo c turns fd
  have hprinted : shell.printed = messagesOf (heardBy connected commands script reads passes) :=
    (runClientShell_serving connected commands script reads passes).2.out
  refine ⟨?_, ?_, ?_⟩
  · rw [← messagesOf_meant commands fun _ => notMem_of_mem_untilQuit]
    exact hlistened.framed.order.trans (messagesOf_isPrefix
      (hup.trans (wire_prefix_asked connected commands script reads passes)))
  · rw [hprinted, ← hqueued]
    exact messagesOf_isPrefix (hdown.trans (run_sentQueued c turns fd))
  · intro session hsession hclosing hpending hleft hopen hreceived hheard
    refine ⟨?_, ?_⟩
    · obtain ⟨used, hreads, hwire⟩ :=
        wire_of_open connected commands script reads passes hleft hopen
      refine ⟨used, hreads, ?_⟩
      have hhandled := (hlistened.framed.all_handled hlistened.searched hsession hclosing).1
      rw [← messagesOf_meant commands fun _ => notMem_of_mem_typedLines, ← hwire]
      exact hhandled.symm.trans (congrArg messagesOf hreceived)
    · have hinv : OutputInv server :=
        Moves.outputInv (run_reachable c turns) (base_start c) (outputInv_start c)
      have hexact := (hinv.exact fd session hsession).1
      rw [hpending, List.append_nil] at hexact
      rw [hprinted, hheard, hexact, hqueued]

end Connection

end SocketExchange.Client
