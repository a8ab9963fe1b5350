import SocketExchange.Server.Rest
import SocketExchange.Server.Stretches

/-!
# The limit on the length of a line

`consume_messages` compares the length of its buffer with `kMaxLineBytes` only when the
buffer holds no newline.  A line that grows beyond the limit is therefore stopped, unless
the `recv` that takes it beyond the limit also brings its newline: then the line is found
complete and handled.  One `recv` may bring up to `kReadChunk` bytes, so lines of almost
twice the limit get through.

What a run has to avoid is a property of the bytes it receives and of where they are cut
(`WithinLimit`).  If it does, no line that is handled is too long, and a client with a line
that is too long is told and has to leave.
-/

namespace SocketExchange.Server

open SocketExchange.Lib
open SocketExchange.Lib.Bytes
open SocketExchange.Network
open SocketExchange.Protocol
open SocketExchange.Trading.OrderBook
open ExchangeServer

/-! ## What a run has to avoid -/

/-- The lines a client is listened to: up to its first `QUIT`. -/
def upToQuit : List Bytes → List Bytes
  | [] => []
  | line :: rest => if Quits line then [line] else line :: upToQuit rest

theorem mem_upToQuit_append {a b : List Bytes} {line : Bytes}
    (h : line ∈ upToQuit (a ++ b)) : line ∈ upToQuit a ∨ line ∈ upToQuit b := by
  induction a with
  | nil => exact Or.inr h
  | cons x a ih =>
      rw [List.cons_append, upToQuit] at h
      rw [upToQuit]
      split
      · next hquit =>
        rw [if_pos hquit] at h
        exact Or.inl h
      · next hquit =>
        rw [if_neg hquit] at h
        rcases List.mem_cons.mp h with rfl | h
        · exact Or.inl List.mem_cons_self
        · exact (ih h).imp_left (List.mem_cons_of_mem x)

/-- A line is listened to if no line before it is a `QUIT`. -/
theorem mem_upToQuit {before after : List Bytes} {line : Bytes}
    (h : ∀ earlier ∈ before, ¬ Quits earlier) : line ∈ upToQuit (before ++ line :: after) := by
  induction before with
  | nil =>
      rw [List.nil_append, upToQuit]
      split <;> exact List.mem_cons_self
  | cons x before ih =>
      rw [List.cons_append, upToQuit, if_neg (h x (by simp))]
      exact List.mem_cons_of_mem x (ih fun earlier hmem => h earlier (by simp [hmem]))

/-- If a `recv` brings bytes of `fd`, then none of the lines it completes is too long. -/
def Obs.WithinLimit (fd : Int) (before : List Obs) : Obs → Prop
  | .received src chunk => src = fd →
      ∀ line ∈ upToQuit (messagesOf (Framing.tail newline (receivedFrom fd before) ++ chunk)),
        line.length ≤ kMaxLineBytes
  | _ => True

instance (fd : Int) (before : List Obs) : (o : Obs) → Decidable (o.WithinLimit fd before)
  | .received src chunk => inferInstanceAs (Decidable (src = fd → ∀ line ∈ upToQuit
      (messagesOf (Framing.tail newline (receivedFrom fd before) ++ chunk)),
        line.length ≤ kMaxLineBytes))
  | .accepted _ | .refused _ | .bounced _ | .dropped _ _ | .closed _ | .handling _ _
  | .handled _ _ _ | .leaving _ _ | .queued _ _ | .sent _ _ | .loggedIn _ _ | .subscribed _ _
  | .unsubscribed _ _ | .submitted _ _ _ | .cancelled _ _ => isTrue trivial

/-- No `recv` of `fd` has brought the newline of a line that is too long. -/
def WithinLimit (fd : Int) (trace : List Obs) : Prop :=
  Log.Each (Obs.WithinLimit fd) trace

instance (fd : Int) (trace : List Obs) : Decidable (WithinLimit fd trace) :=
  Log.Each.decidable _ trace

/-- **What has been received is within the limit**, however often a connection of `fd`
has been replaced by another. -/
theorem received_within_limit {fd : Int} {trace : List Obs} (h : WithinLimit fd trace) :
    ∀ line ∈ upToQuit (messagesOf (receivedFrom fd trace)), line.length ≤ kMaxLineBytes := by
  induction trace using List.reverseRecOn with
  | nil =>
      intro line hline
      cases hline
  | append_singleton trace o ih =>
      have hold : WithinLimit fd trace := (Log.each_append.mp h).1
      have hnew : o.WithinLimit fd trace := h trace o [] rfl
      by_cases hsilent : o.silent fd = true
      · rw [receivedFrom_silent (by simpa using hsilent)]
        exact ih hold
      · cases o with
        | received src chunk =>
            have hsrc : src = fd := by simpa [Obs.silent] using hsilent
            have hreceived : receivedFrom fd (trace ++ [.received src chunk]) =
                receivedFrom fd trace ++ chunk := by
              simp [receivedFrom, sinceAccept, Log.since_concat, Obs.receivedBytes, hsrc]
            intro line hline
            rw [hreceived, messagesOf_append] at hline
            rcases mem_upToQuit_append hline with hline | hline
            · exact ih hold line hline
            · exact hnew hsrc line hline
        | accepted src =>
            have hsrc : src = fd := by simpa [Obs.silent] using hsilent
            intro line hline
            simp [receivedFrom, sinceAccept, Log.since_concat, hsrc, messagesOf, Framing.lines,
              Framing.cut, upToQuit] at hline
        | handled src line outcome =>
            have hreceived : receivedFrom fd (trace ++ [.handled src line outcome]) =
                receivedFrom fd trace := by
              simp [receivedFrom, sinceAccept, Log.since_concat, Obs.receivedBytes]
            rw [hreceived]
            exact ih hold
        | _ => simp [Obs.silent] at hsilent

/-! ## What happens to the lines of a connection -/

/-- An earlier line has ended the connection, or it was told that its line is too long. -/
def Excused (fd : Int) (s : ExchangeServer) : Prop :=
  .queued fd oversizedMessage ∈ sinceAccept fd s.trace ∨
    ∃ x ∈ handledLines fd s.trace, x.2 ≠ .stillOpen

/-- A `QUIT` is the last line that is handled. -/
def QuitsLast (fd : Int) (s : ExchangeServer) : Prop :=
  ∀ x ∈ handledLines fd s.trace, Quits x.1 → x.2 ≠ .stillOpen

/-- The session is connected and is being read. -/
def Reading (fd : Int) (s : ExchangeServer) : Prop :=
  ∃ session, s.sessions.lookup fd = some session ∧ session.closing = false

/-- Everything received has been handled, except for part of a line, unless there is an
excuse. -/
def Consumed (fd : Int) (s : ExchangeServer) : Prop :=
  (messagesOf (receivedFrom fd s.trace) = (handledLines fd s.trace).map Prod.fst ∧
    (Framing.tail newline (receivedFrom fd s.trace)).length ≤ kMaxLineBytes) ∨ Excused fd s

section Aside

variable {actor fd : Int} {s s' : ExchangeServer} (ha : Aside actor fd s s')

include ha

theorem Excused.aside (h : Excused fd s) : Excused fd s' := by
  rcases h with htold | hended
  · obtain ⟨new, htrace, hnew⟩ := ha.trace
    rw [Excused, htrace, sinceAccept, Log.since_append (not_accepted_of_silent hnew)]
    exact Or.inl (List.mem_append_left _ htold)
  · rw [Excused, ha.handledLines]
    exact Or.inr hended

theorem QuitsLast.aside (h : QuitsLast fd s) : QuitsLast fd s' := by
  rw [QuitsLast, ha.handledLines]
  exact h

theorem Consumed.aside (h : Consumed fd s) : Consumed fd s' := by
  rw [Consumed, ha.receivedFrom, ha.handledLines]
  exact h.imp_right (Excused.aside ha)

end Aside

section Own

variable {s : ExchangeServer} {fd : Int} (hb : Base s) {session : ClientSession}
  (h : s.sessions.lookup fd = some session)

include hb h

/-- The line joins the ones handled before. -/
theorem handleLine_handledLines {line tail : Bytes}
    (hline : splitLine session.inbuf = some (line, tail)) :
    handledLines fd (s.handleLine fd session (stripCarriageReturn line) tail).trace =
      handledLines fd s.trace ++ [(stripCarriageReturn line,
        (s.handleLine fd session (stripCarriageReturn line) tail).lineOutcome fd)] := by
  have hlookup : (s.taken fd session (stripCarriageReturn line) tail).sessions.lookup fd =
      some { session with inbuf := tail } := by
    simp [taken, observe, putSession]
  have ha := (handleMessage_acts hlookup ((Serve.take s session line tail h hline).base hb)
    (stripCarriageReturn line)).aside fd
  have htaken : handledLines fd (s.taken fd session (stripCarriageReturn line) tail).trace =
      handledLines fd s.trace := by
    have hquiet : ∀ o ∈ [Obs.handling fd (stripCarriageReturn line)], o.silent fd = true := by
      simp [Obs.silent]
    exact handledLines_silent hquiet s.trace
  have hconcat : ∀ (trace : List Obs) (outcome : LineOutcome),
      handledLines fd (trace ++ [.handled fd (stripCarriageReturn line) outcome]) =
        handledLines fd trace ++ [(stripCarriageReturn line, outcome)] := by
    intro trace outcome
    simp [handledLines, sinceAccept, Log.since_concat, Obs.handledLine]
  rw [← htaken, ← ha.handledLines]
  exact hconcat _ _

/-- After a line, the session is read on, or the line has ended it. -/
theorem handleLine_excused {line tail : Bytes}
    (hline : splitLine session.inbuf = some (line, tail)) :
    Reading fd (s.handleLine fd session (stripCarriageReturn line) tail) ∨
      Excused fd (s.handleLine fd session (stripCarriageReturn line) tail) := by
  have hhandled := handleLine_handledLines hb h hline
  generalize s.handleLine fd session (stripCarriageReturn line) tail = s' at hhandled ⊢
  by_cases hstill : s'.lineOutcome fd = .stillOpen
  · left
    cases hlookup : s'.sessions.lookup fd with
    | none => simp [lineOutcome, hlookup] at hstill
    | some b => exact ⟨b, hlookup, lineOutcome_stillOpen hstill hlookup⟩
  · refine Or.inr (Or.inr ⟨(stripCarriageReturn line, s'.lineOutcome fd), ?_, hstill⟩)
    rw [hhandled]
    exact List.mem_append_right _ (List.mem_singleton.mpr rfl)

/-- A `QUIT` leaves no session that is read. -/
theorem handleLine_quitsLast (hq : QuitsLast fd s) {line tail : Bytes}
    (hline : splitLine session.inbuf = some (line, tail)) :
    QuitsLast fd (s.handleLine fd session (stripCarriageReturn line) tail) := by
  intro x hx hquit
  rw [handleLine_handledLines hb h hline] at hx
  rcases List.mem_append.mp hx with hx | hx
  · exact hq x hx hquit
  · rw [List.mem_singleton.mp hx] at hquit ⊢
    dsimp only at hquit ⊢
    intro hstill
    cases hlookup : (s.handleLine fd session (stripCarriageReturn line) tail).sessions.lookup
        fd with
    | none => simp [lineOutcome, hlookup] at hstill
    | some b =>
        have hopen := lineOutcome_stillOpen hstill hlookup
        have hclose : ((s.taken fd session (stripCarriageReturn line) tail).beginOrderlyClose fd
            .quit).sessions.lookup fd = some b := by
          rw [← handleMessage_quit _ hquit]
          exact hlookup
        rcases lookup_of_beginOrderlyClose hclose with ⟨hne, _⟩ | ⟨_, x, _, _, rfl⟩
        · exact absurd rfl hne
        · cases hopen

/-- The ERROR is among the messages of the connection. -/
theorem oversized_excused :
    Excused fd ((s.sendTo fd oversizedMessage).beginOrderlyClose fd .oversized) := by
  obtain ⟨bytes, gone, hsend, _⟩ := sendTo_trace hb h oversizedMessage
  obtain ⟨last, hclose, _, _⟩ :=
    beginOrderlyClose_calm (s.sendTo fd oversizedMessage) fd .oversized
  obtain ⟨new, htrace, hnew⟩ := ((oversized_acts hb fd).aside fd).trace
  have hsame : new = .queued fd oversizedMessage :: .sent fd bytes :: gone ++ last := by
    rw [hclose, hsend, List.append_assoc] at htrace
    exact (List.append_cancel_left htrace).symm
  rw [Excused, htrace, sinceAccept, Log.since_append (not_accepted_of_silent hnew), hsame]
  exact Or.inl (by simp)

end Own

/-- What one connection keeps, whatever is done on behalf of the others. -/
structure Listened (fd : Int) (s : ExchangeServer) : Prop where
  framed : Framed fd s
  searched : Searched fd s
  quitsLast : QuitsLast fd s
  consumed : Consumed fd s

theorem Listened.aside {actor fd : Int} {s s' : ExchangeServer} (ha : Aside actor fd s s')
    (h : Listened fd s) (hwhy : actor = fd → Departing fd s') : Listened fd s' where
  framed := h.framed.aside ha hwhy
  searched := h.searched.aside ha
  quitsLast := h.quitsLast.aside ha
  consumed := h.consumed.aside ha

/-- A session that is read, and whose buffer has been searched, has no complete line left. -/
theorem Framed.all_handled {fd : Int} {s : ExchangeServer} (hf : Framed fd s)
    (hs : Searched fd s) {session : ClientSession} (h : s.sessions.lookup fd = some session)
    (hopen : session.closing = false) :
    messagesOf (receivedFrom fd s.trace) = (handledLines fd s.trace).map Prod.fst ∧
      (Framing.tail newline (receivedFrom fd s.trace)).length ≤ kMaxLineBytes := by
  obtain ⟨_, hmessages, htail⟩ := hf.reading session h hopen
  obtain ⟨hnot, hshort⟩ := hs session h hopen
  rw [messagesOf_of_notMem hnot, List.append_nil] at hmessages
  rw [Framing.tail_of_notMem hnot] at htail
  exact ⟨hmessages, htail ▸ hshort⟩

/-- **A chunk is consumed.**  Whether it holds many lines, one or none. -/
theorem consume_listened {s : ExchangeServer} {fd : Int} (hb : Base s) (hl : Listened fd s)
    {session : ClientSession} (chunk : Chunk) (h : s.sessions.lookup fd = some session)
    (hopen : session.closing = false) :
    Listened fd ((s.receive fd session chunk.bytes).consumeMessages fd).1 := by
  have hframed := consume_framed hb hl.framed chunk h hopen
  have hsearched := consume_searched hb chunk h hopen
  have hreceive : handledLines fd (s.receive fd session chunk.bytes).trace =
      handledLines fd s.trace := by
    simp [receive, observe, putSession, handledLines, sinceAccept, Log.since_concat,
      Obs.handledLine]
  have hloop : Base ((s.receive fd session chunk.bytes).consumeMessages fd).1 ∧
      QuitsLast fd ((s.receive fd session chunk.bytes).consumeMessages fd).1 ∧
      (Reading fd ((s.receive fd session chunk.bytes).consumeMessages fd).1 ∨
        Excused fd ((s.receive fd session chunk.bytes).consumeMessages fd).1) := by
    refine consumeLoop_invariant
      (I := fun s => Base s ∧ QuitsLast fd s ∧ (Reading fd s ∨ Excused fd s)) ?_ ?_ _ ?_ ?_
    · rintro s₁ x line tail hx _ hline ⟨hb₁, hq₁, _⟩
      exact ⟨(handleLine_serves hb₁ hx hline).base hb₁, handleLine_quitsLast hb₁ hx hq₁ hline,
        handleLine_excused hb₁ hx hline⟩
    · rintro s₁ x hx _ _ _ ⟨hb₁, hq₁, _⟩
      exact ⟨(oversized_acts hb₁ fd).base hb₁, hq₁.aside ((oversized_acts hb₁ fd).aside fd),
        Or.inr (oversized_excused hb₁ hx)⟩
    · intro x hx
      rw [receive_lookup] at hx
      cases hx
      exact hopen
    · refine ⟨(Serve.receive s session chunk.bytes h hopen).base hb, ?_,
        Or.inl ⟨_, receive_lookup s fd session chunk.bytes, hopen⟩⟩
      rw [QuitsLast, hreceive]
      exact hl.quitsLast
  refine ⟨hframed, hsearched, hloop.2.1, hloop.2.2.imp_left ?_⟩
  rintro ⟨x, hx, hreading⟩
  exact hframed.all_handled hsearched hx hreading

theorem onReadable_listened {s : ExchangeServer} {fd : Int} (script : List RecvOutcome)
    (hb : Base s) (hl : Listened fd s) : Listened fd (onReadable fd script s) := by
  refine (onReadable_invariant (I := fun s => Base s ∧ Listened fd s) ?_ ?_ ?_ script
    ⟨hb, hl⟩).2
  · rintro s₁ session chunk h hopen ⟨hb₁, hl₁⟩
    exact ⟨(consume_serves hb₁ chunk h hopen).base hb₁,
      consume_listened hb₁ hl₁ chunk h hopen⟩
  · rintro s₁ session h hopen ⟨hb₁, hl₁⟩
    have hacts : Acts fd s₁ (s₁.beginOrderlyClose fd .fin) := beginOrderlyClose_acts fd .fin
    have ha := hacts.aside fd
    exact ⟨hacts.base hb₁, (fin_framed hl₁.framed hl₁.searched.settled h hopen).1,
      hl₁.searched.aside ha, hl₁.quitsLast.aside ha, hl₁.consumed.aside ha⟩
  · rintro s₁ ⟨hb₁, hl₁⟩
    have hdrop : Act (fd + 1) s₁ (s₁.drop fd .recvFailed) := drop_act s₁ (fd + 1) fd rfl
    exact ⟨hdrop.base hb₁, hl₁.aside (hdrop.aside fd) fun heq => by omega⟩

theorem perConnection_listened : PerConnection Listened where
  aside := fun hne ha hl => hl.aside ha fun heq => absurd heq hne
  fresh := by
    intro s fd peer
    have hreceived : receivedFrom fd (s.trace ++ [.accepted fd]) = [] := by
      simp [receivedFrom, sinceAccept, Log.since_concat]
    have hhandled : handledLines fd (s.trace ++ [.accepted fd]) = [] := by
      simp [handledLines, sinceAccept, Log.since_concat]
    refine ⟨(perConnection_framed.fresh s fd peer).1, perConnection_searched.fresh s fd peer,
      ?_, Or.inl ?_⟩
    · simp [QuitsLast, observe, putSession, openFd, hhandled]
    · simp [observe, putSession, openFd, hhandled, hreceived, messagesOf, Framing.lines,
        Framing.tail, Framing.cut]
  read := fun script hb hl => onReadable_listened script hb hl

/-- **The run lemma.** -/
theorem run_listened (c : Setup) (turns : List Turn) (fd : Int) :
    Listened fd (run c turns) := by
  refine run_each perConnection_listened c turns (fun fd => ?_) fd
  refine ⟨(allFramed_start c fd).1, ?_, ?_, Or.inl ⟨rfl, Nat.zero_le _⟩⟩
  · intro session h
    simp [ExchangeServer.start] at h
  · intro x hx
    cases hx

/-! ## The limit holds where it is looked at -/

section Limit

variable {fd : Int} {s : ExchangeServer} (hl : Listened fd s)

include hl

/-- The lines that are handled are lines the client is listened to. -/
theorem Listened.handled_upToQuit {x : Bytes × LineOutcome} (hx : x ∈ handledLines fd s.trace) :
    x.1 ∈ upToQuit (messagesOf (receivedFrom fd s.trace)) := by
  obtain ⟨before, after, hsplit⟩ := List.append_of_mem hx
  obtain ⟨rest, hrest⟩ := hl.framed.order
  rw [← hrest, hsplit, List.map_append, List.map_cons, List.append_assoc, List.cons_append]
  refine mem_upToQuit fun earlier hearlier => ?_
  obtain ⟨y, hy, rfl⟩ := List.mem_map.mp hearlier
  intro hquit
  refine hl.quitsLast y (by rw [hsplit]; exact List.mem_append_left _ hy) hquit ?_
  -- another line was handled after it, so it left the session open
  refine hl.framed.past y ?_
  rw [hsplit, List.dropLast_append_of_ne_nil (by simp)]
  exact List.mem_append_left _ hy

/-- What is too long has not been handled, and nothing is left of it in a buffer. -/
theorem Listened.not_consumed (hw : WithinLimit fd s.trace) {line : Bytes}
    (hline : line ∈ messagesOf (receivedFrom fd s.trace) ++
      [Framing.tail newline (receivedFrom fd s.trace)])
    (hlong : kMaxLineBytes < line.length) :
    ¬ (messagesOf (receivedFrom fd s.trace) = (handledLines fd s.trace).map Prod.fst ∧
      (Framing.tail newline (receivedFrom fd s.trace)).length ≤ kMaxLineBytes) := by
  rintro ⟨hall, htail⟩
  rcases List.mem_append.mp hline with hline | hline
  · rw [hall] at hline
    obtain ⟨x, hx, rfl⟩ := List.mem_map.mp hline
    have hshort := received_within_limit hw x.1 (hl.handled_upToQuit hx)
    omega
  · rw [List.mem_singleton.mp hline] at hlong
    omega

end Limit

/-- **The limit holds for lines that are not completed as they exceed it.**  Take any run
in which no `recv` on `fd` brings the newline of a line that is too long.  Then no line
handed to `handle_message` is too long.  A client with a line that is too long is leaving
or gone, and it was sent the ERROR, unless an earlier line had already ended the
connection. -/
theorem line_limit_enforced (c : Setup) (turns : List Turn) (fd : Int)
    (hw : WithinLimit fd (run c turns).trace) :
    (∀ x ∈ handledLines fd (run c turns).trace, x.1.length ≤ kMaxLineBytes) ∧
    ∀ line ∈ messagesOf (receivedFrom fd (run c turns).trace) ++
        [Framing.tail newline (receivedFrom fd (run c turns).trace)],
      kMaxLineBytes < line.length →
      (∀ session, (run c turns).sessions.lookup fd = some session → session.closing = true) ∧
      (.queued fd oversizedMessage ∈ sinceAccept fd (run c turns).trace ∨
        ∃ x ∈ handledLines fd (run c turns).trace, x.2 ≠ .stillOpen) := by
  have hl := run_listened c turns fd
  refine ⟨fun x hx => received_within_limit hw x.1 (hl.handled_upToQuit hx), ?_⟩
  intro line hline hlong
  have hnot := hl.not_consumed hw hline hlong
  refine ⟨?_, hl.consumed.resolve_left hnot⟩
  intro session h
  by_contra hclosing
  have hopen : session.closing = false := by simpa using hclosing
  exact hnot (hl.framed.all_handled hl.searched h hopen)

/-- Client 5 sends two lines in three pieces. -/
private def threePieces : List Turn :=
  [{ input := .event { fd := 3, readable := true }
     answers := { accepts := [.connection 5 [] true] } },
   { input := .event { fd := 5, readable := true }
     answers := { recvs := [.data ⟨ascii "SUBSCRIBE JN", by decide, by decide⟩] } },
   { input := .event { fd := 5, readable := true }
     answers := { recvs := [.data ⟨ascii "ST\nUNSUBSC", by decide, by decide⟩] } },
   { input := .event { fd := 5, readable := true }
     answers := { recvs := [.data ⟨ascii "RIBE IMCT\n", by decide, by decide⟩] } }]

theorem line_limit_enforced_three_pieces :
    (handledLines 5 (run {} threePieces).trace).length = 2 ∧
      ∀ x ∈ handledLines 5 (run {} threePieces).trace, x.1.length ≤ kMaxLineBytes :=
  ⟨by decide +kernel, (line_limit_enforced {} threePieces 5 (by decide +kernel)).1⟩

/-! ## Where it is not looked at -/

theorem splitLine_of_notMem {line : Bytes} (h : newline ∉ line) (tail : Bytes) :
    splitLine (line ++ newline :: tail) = some (line, tail) := by
  induction line with
  | nil => simp [splitLine]
  | cons c line ih =>
      rw [List.mem_cons, not_or] at h
      obtain ⟨hc, hline⟩ := h
      rw [List.cons_append, splitLine, if_neg (Ne.symm hc), ih hline]
      rfl

/-- **A complete line is handled, however long it is.** -/
theorem consume_handles {s : ExchangeServer} (hb : Base s) {fd : Int} {session : ClientSession}
    (h : s.sessions.lookup fd = some session) (hopen : session.closing = false) (chunk : Chunk)
    {line tail : Bytes} (hline : splitLine (session.inbuf ++ chunk.bytes) = some (line, tail)) :
    ∃ outcome, (stripCarriageReturn line, outcome) ∈
      handledLines fd ((s.receive fd session chunk.bytes).consumeMessages fd).1.trace := by
  have hb₁ : Base (s.receive fd session chunk.bytes) :=
    (Serve.receive s session chunk.bytes h hopen).base hb
  have hlookup := receive_lookup s fd session chunk.bytes
  have hhandled := handleLine_handledLines hb₁ hlookup hline
  have hb₂ := (handleLine_serves hb₁ hlookup hline).base hb₁
  simp only [consumeMessages, hlookup, consumeLoop, hline]
  generalize (s.receive fd session chunk.bytes).handleLine fd
    { session with inbuf := session.inbuf ++ chunk.bytes } (stripCarriageReturn line) tail = s₂
    at hhandled hb₂ ⊢
  refine ⟨s₂.lineOutcome fd, ?_⟩
  have hmem : (stripCarriageReturn line, s₂.lineOutcome fd) ∈ handledLines fd s₂.trace := by
    rw [hhandled]
    exact List.mem_append_right _ (List.mem_singleton.mpr rfl)
  split
  · exact hmem
  · exact hmem
  · next hstill =>
    -- the lines that follow only add to it
    refine (consumeLoop_invariant (I := fun t => Base t ∧
      (stripCarriageReturn line, s₂.lineOutcome fd) ∈ handledLines fd t.trace) ?_ ?_ _
      (fun x hx => lineOutcome_stillOpen hstill hx) ⟨hb₂, hmem⟩).2
    · rintro t x next rest hx _ hnext ⟨hbt, hold⟩
      refine ⟨(handleLine_serves hbt hx hnext).base hbt, ?_⟩
      rw [handleLine_handledLines hbt hx hnext]
      exact List.mem_append_left _ hold
    · rintro t x hx _ _ _ ⟨hbt, hold⟩
      refine ⟨(oversized_acts hbt fd).base hbt, ?_⟩
      rw [((oversized_acts hbt fd).aside fd).handledLines]
      exact hold

/-- An event that says no more than that there is something to read. -/
private theorem turn_readable {s : ExchangeServer} {fd : Int} {a : Answers}
    (hne : fd ≠ s.listenerFd) (hconnected : s.connected fd = true) :
    s.turn { input := .event { fd := fd, readable := true }, answers := a } =
      onReadable fd a.recvs (s.load a) := by
  have hloaded : (s.load a).connected fd = true := hconnected
  simp only [turn, onEvent, if_neg (show ¬ fd = (s.load a).listenerFd from hne)]
  simp [hloaded]

/-- One `recv` with data, whether or not it fills the buffer. -/
private theorem onReadable_data {s : ExchangeServer} {fd : Int} {session : ClientSession}
    (h : s.sessions.lookup fd = some session) (hopen : session.closing = false)
    (chunk : Chunk) :
    onReadable fd [.data chunk] s =
      ((s.receive fd session chunk.bytes).consumeMessages fd).1 := by
  simp [onReadable, h, hopen]

/-- A line of one byte more than the limit, but for its first two bytes. -/
private def restOfLine : Bytes := List.replicate (kReadChunk - 1) 65

private theorem length_restOfLine : restOfLine.length + 1 = kReadChunk := by
  have hpos : 0 < kReadChunk := by decide
  rw [restOfLine, List.length_replicate]
  omega

private theorem notMem_restOfLine {c : UInt8} (hc : c ≠ 65) : c ∉ restOfLine :=
  fun hmem => hc (List.eq_of_mem_replicate hmem)

private theorem length_fullChunk : (restOfLine ++ [newline]).length = kReadChunk := by
  rw [List.length_append, List.length_singleton, length_restOfLine]

/-- A `recv` of `kReadChunk` bytes, the last of which is a newline. -/
private def fullChunk : Chunk where
  bytes := restOfLine ++ [newline]
  nonempty := List.length_pos_of_mem (List.mem_append_right _ (List.mem_singleton.mpr rfl))
  fits := Nat.le_of_eq length_fullChunk

/-- Client 5 has sent two bytes. -/
private def twoBytes : List Turn :=
  [{ input := .event { fd := 3, readable := true }
     answers := { accepts := [.connection 5 [] true] } },
   { input := .event { fd := 5, readable := true }
     answers := { recvs := [.data ⟨ascii "AA", by decide, by decide⟩] } }]

/-- The rest of its line arrives together with the newline. -/
private def crossingRecv : Turn where
  input := .event { fd := 5, readable := true }
  answers := { recvs := [.data fullChunk] }

theorem overlong_line_handled :
    ∃ x ∈ handledLines 5 (run {} (twoBytes ++ [crossingRecv])).trace,
      kMaxLineBytes < x.1.length := by
  have hsession : ((run {} twoBytes).sessions.lookup 5).any
      (fun session => session.inbuf = ascii "AA" ∧ session.closing = false) = true := by
    decide +kernel
  rw [Option.any_eq_true] at hsession
  obtain ⟨session, h, hshape⟩ := hsession
  obtain ⟨hinbuf, hopen⟩ := of_decide_eq_true hshape
  have hload : ((run {} twoBytes).load crossingRecv.answers).sessions.lookup 5 =
      some session := h
  have hrun : run {} (twoBytes ++ [crossingRecv]) =
      ((((run {} twoBytes).load crossingRecv.answers).receive 5 session
        fullChunk.bytes).consumeMessages 5).1 := by
    rw [← onReadable_data hload hopen]
    refine (Loop.run_concat turn _ twoBytes crossingRecv).trans ?_
    exact turn_readable (by decide +kernel) (connected_iff.mpr ⟨session, h⟩)
  have hb : Base ((run {} twoBytes).load crossingRecv.answers) :=
    (Env.load _ _).base (run_reachable {} twoBytes).base
  have hnot : ∀ c : UInt8, c ≠ 65 → c ∉ ascii "AA" ++ restOfLine := by
    intro c hc hmem
    rcases List.mem_append.mp hmem with hmem | hmem
    · simp [ascii, hc] at hmem
    · exact notMem_restOfLine hc hmem
  have hsplit : splitLine (session.inbuf ++ fullChunk.bytes) =
      some (ascii "AA" ++ restOfLine, []) := by
    rw [hinbuf, fullChunk, ← List.append_assoc]
    exact splitLine_of_notMem (hnot newline (by decide)) []
  obtain ⟨outcome, hhandled⟩ := consume_handles hb hload hopen fullChunk hsplit
  have hstrip : stripCarriageReturn (ascii "AA" ++ restOfLine) = ascii "AA" ++ restOfLine :=
    if_neg fun hlast => hnot carriageReturn (by decide) (List.mem_of_getLast? hlast)
  rw [hstrip, ← hrun] at hhandled
  refine ⟨(ascii "AA" ++ restOfLine, outcome), hhandled, ?_⟩
  have hlimit : kMaxLineBytes = kReadChunk := rfl
  have hlength : (ascii "AA").length = 2 := by decide
  have hrest := length_restOfLine
  rw [List.length_append]
  omega

end SocketExchange.Server
