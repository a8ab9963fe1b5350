import SocketExchange.Lib.Framing
import SocketExchange.Server.Output

/-!
# Lines do not depend on how the stream was cut

The bytes received on a connection are its stream, and the lines handed to
`handle_message` are the lines of that stream.  While a connection is read,

    lines of the stream = lines handled ++ lines still in the input buffer,
    tail of the stream  = tail of the input buffer,

and between two calls of `recv` the buffer holds no newline, so that the second
part is empty and the buffer is the tail.  The other connections come in only
through `Aside`: whatever is done on their behalf, the buffer of this one is
left alone, or the session is gone.
-/

namespace SocketExchange.Server

open SocketExchange.Lib
open SocketExchange.Lib.Bytes
open SocketExchange.Network
open SocketExchange.Protocol
open SocketExchange.Trading.OrderBook
open ExchangeServer

/-! ## The stream and what was handled of it -/

def Obs.receivedBytes (fd : Int) : Obs → Bytes
  | .received src bytes => if src = fd then bytes else []
  | _ => []

def Obs.handledLine (fd : Int) : Obs → List (Bytes × LineOutcome)
  | .handled src line outcome => if src = fd then [(line, outcome)] else []
  | _ => []

/-- The bytes `recv` has returned for the present connection of `fd`. -/
def receivedFrom (fd : Int) (trace : List Obs) : Bytes :=
  (sinceAccept fd trace).flatMap (Obs.receivedBytes fd)

/-- The lines `handle_message` was given for the present connection of `fd`, and
what became of the session while each was handled. -/
def handledLines (fd : Int) (trace : List Obs) : List (Bytes × LineOutcome) :=
  (sinceAccept fd trace).flatMap (Obs.handledLine fd)

/-- The messages of a stream: split at each newline, one trailing carriage
return removed. -/
def messagesOf (stream : Bytes) : List Bytes :=
  (Framing.lines newline stream).map stripCarriageReturn

/-- The peer has finished sending. -/
def finished (fd : Int) (trace : List Obs) : Prop :=
  Obs.leaving fd .fin ∈ sinceAccept fd trace

/-- Observations that are not about the input of `fd`. -/
def Obs.silent (fd : Int) : Obs → Bool
  | .accepted src => src ≠ fd
  | .received src _ => src ≠ fd
  | .handled src _ _ => src ≠ fd
  | _ => true

section Silent

variable {fd : Int} {new : List Obs} (hnew : ∀ o ∈ new, o.silent fd = true)
  (trace : List Obs)

include hnew

theorem not_accepted_of_silent : ∀ o ∈ new, decide (o = .accepted fd) = false := by
  intro o ho
  simp only [decide_eq_false_iff_not]
  rintro rfl
  exact absurd (hnew _ ho) (by simp [Obs.silent])

theorem receivedFrom_silent : receivedFrom fd (trace ++ new) = receivedFrom fd trace := by
  have hempty : ∀ o ∈ new, o.receivedBytes fd = [] := by
    intro o ho
    have hsilent := hnew o ho
    cases o <;> simp_all [Obs.silent, Obs.receivedBytes]
  exact Log.flatMap_since_append (not_accepted_of_silent hnew) hempty

theorem handledLines_silent : handledLines fd (trace ++ new) = handledLines fd trace := by
  have hempty : ∀ o ∈ new, o.handledLine fd = [] := by
    intro o ho
    have hsilent := hnew o ho
    cases o <;> simp_all [Obs.silent, Obs.handledLine]
  exact Log.flatMap_since_append (not_accepted_of_silent hnew) hempty

theorem finished_silent (h : finished fd trace) : finished fd (trace ++ new) := by
  rw [finished, sinceAccept, Log.since_append (not_accepted_of_silent hnew)]
  exact List.mem_append_left _ h

end Silent

theorem splitLine_some {buffer line tail : Bytes} (h : splitLine buffer = some (line, tail)) :
    buffer = line ++ newline :: tail ∧ newline ∉ line := by
  induction buffer generalizing line with
  | nil => cases h
  | cons c rest ih =>
      unfold splitLine at h
      split at h
      · next hc =>
        simp only [Option.some.injEq, Prod.mk.injEq] at h
        obtain ⟨rfl, rfl⟩ := h
        exact ⟨by rw [hc]; rfl, List.not_mem_nil⟩
      · next hc =>
        obtain ⟨⟨line', tail'⟩, hrest, heq⟩ := Option.map_eq_some_iff.mp h
        simp only [Prod.mk.injEq] at heq
        obtain ⟨rfl, rfl⟩ := heq
        obtain ⟨rfl, hnot⟩ := ih hrest
        refine ⟨rfl, ?_⟩
        rw [List.mem_cons, not_or]
        exact ⟨Ne.symm hc, hnot⟩

theorem splitLine_none {buffer : Bytes} (h : splitLine buffer = none) : newline ∉ buffer := by
  induction buffer with
  | nil => exact List.not_mem_nil
  | cons c rest ih =>
      unfold splitLine at h
      split at h
      · cases h
      · next hc =>
        rw [List.mem_cons, not_or]
        exact ⟨Ne.symm hc, ih (Option.map_eq_none_iff.mp h)⟩

/-! ## What the rest of the server does to a connection -/

/-- Nothing is received or handled on `fd`, and its session keeps its input
buffer, starts leaving on its own account, or is gone. -/
structure Aside (actor fd : Int) (s s' : ExchangeServer) : Prop where
  trace : ∃ new, s'.trace = s.trace ++ new ∧ ∀ o ∈ new, o.silent fd = true
  session : ∀ b, s'.sessions.lookup fd = some b →
    (∃ a, s.sessions.lookup fd = some a ∧ b.inbuf = a.inbuf ∧ b.closing = a.closing) ∨
      (actor = fd ∧ b.closing = true)

theorem Aside.refl (actor fd : Int) (s : ExchangeServer) : Aside actor fd s s where
  trace := ⟨[], (List.append_nil _).symm, by simp⟩
  session := fun b hb => Or.inl ⟨b, hb, rfl, rfl⟩

theorem Aside.trans {actor fd : Int} {a b c : ExchangeServer} (h₁ : Aside actor fd a b)
    (h₂ : Aside actor fd b c) : Aside actor fd a c where
  trace := by
    obtain ⟨new₁, htrace₁, hnew₁⟩ := h₁.trace
    obtain ⟨new₂, htrace₂, hnew₂⟩ := h₂.trace
    refine ⟨new₁ ++ new₂, by rw [htrace₂, htrace₁, List.append_assoc], ?_⟩
    intro o ho
    rcases List.mem_append.mp ho with ho | ho
    · exact hnew₁ o ho
    · exact hnew₂ o ho
  session := by
    intro z hz
    rcases h₂.session z hz with ⟨y, hy, hin, hclosing⟩ | hown
    · rcases h₁.session y hy with ⟨x, hx, hin', hclosing'⟩ | ⟨hown, hleft⟩
      · exact Or.inl ⟨x, hx, hin.trans hin', hclosing.trans hclosing'⟩
      · exact Or.inr ⟨hown, hclosing.trans hleft⟩
    · exact Or.inr hown

/-- Sessions that are rewritten in place. -/
private theorem Aside.put {actor fd key : Int} {s s' : ExchangeServer}
    {session session' : ClientSession} (h : s.sessions.lookup key = some session)
    (hs : s'.sessions = s.sessions.insert key session') {new : List Obs}
    (htrace : s'.trace = s.trace ++ new) (hnew : ∀ o ∈ new, o.silent fd = true)
    (hsame : key = fd → (session'.inbuf = session.inbuf ∧
      session'.closing = session.closing) ∨ (actor = fd ∧ session'.closing = true)) :
    Aside actor fd s s' where
  trace := ⟨new, htrace, hnew⟩
  session := by
    intro b hb
    rw [hs, lookup_insert] at hb
    split at hb
    · next heq =>
      cases hb
      rcases hsame heq.symm with hsame | hown
      · exact Or.inl ⟨session, heq ▸ h, hsame⟩
      · exact Or.inr hown
    · exact Or.inl ⟨b, hb, rfl, rfl⟩

/-- Sessions that are left alone, or gone. -/
private theorem Aside.fewer {actor fd : Int} {s s' : ExchangeServer} {new : List Obs}
    (htrace : s'.trace = s.trace ++ new) (hnew : ∀ o ∈ new, o.silent fd = true)
    (hs : ∀ b, s'.sessions.lookup fd = some b → s.sessions.lookup fd = some b) :
    Aside actor fd s s' where
  trace := ⟨new, htrace, hnew⟩
  session := fun b hb => Or.inl ⟨b, hs b hb, rfl, rfl⟩

theorem assumeMarketData_input (session : ClientSession) :
    (assumeMarketData session).inbuf = session.inbuf ∧
      (assumeMarketData session).closing = session.closing := by
  unfold assumeMarketData
  split <;> exact ⟨rfl, rfl⟩

private theorem drop_aside (actor fd dest : Int) (s : ExchangeServer) (reason : DropReason) :
    Aside actor fd s (s.drop dest reason) := by
  cases hdest : s.sessions.lookup dest with
  | none =>
      rw [drop_of_lookup_none hdest]
      exact Aside.refl actor fd s
  | some session =>
      exact Aside.fewer (drop_trace hdest reason) (by simp [Obs.silent])
        fun _ hb => (lookup_of_drop hb).2

theorem Act.aside {actor : Int} {s s' : ExchangeServer} (hact : Act actor s s') (fd : Int) :
    Aside actor fd s s' := by
  cases hact with
  | queue dest session message h howed =>
      exact Aside.put h rfl rfl (by simp [Obs.silent]) fun _ => Or.inl ⟨rfl, rfl⟩
  | write dest session h =>
      have hclient := flush_client session (s.kernel.sends session.fd)
      exact Aside.put h rfl rfl (by simp [Obs.silent]) fun _ =>
        Or.inl ⟨inbuf_of_client hclient, closing_of_client hclient⟩
  | drop dest reason h => exact drop_aside actor fd dest s reason
  | relist loop => exact Aside.fewer (List.append_nil _).symm (by simp) fun _ hb => hb
  | leave session reason h =>
      exact Aside.put h rfl rfl (by simp [Obs.silent]) fun hown => Or.inr ⟨hown, rfl⟩
  | interest session wantRead wantWrite h =>
      exact Aside.put h rfl (List.append_nil _).symm (by simp) fun _ => Or.inl ⟨rfl, rfl⟩
  | login session username h hrole hout hfree =>
      exact Aside.put h rfl rfl (by simp [Obs.silent]) fun _ => Or.inl ⟨rfl, rfl⟩
  | subscribe session instrument h hrole =>
      exact Aside.put h rfl rfl (by simp [Obs.silent]) fun _ =>
        Or.inl (assumeMarketData_input session)
  | unsubscribe session instrument h hrole hin =>
      exact Aside.put h rfl rfl (by simp [Obs.silent]) fun _ =>
        Or.inl (assumeMarketData_input session)
  | submit session cmd h hrole hin hcmd =>
      exact Aside.fewer rfl (by simp [Obs.silent]) fun _ hb => hb
  | cancel session orderId h hin hok =>
      exact Aside.fewer rfl (by simp [Obs.silent]) fun _ hb => hb

theorem Acts.aside {actor : Int} {s s' : ExchangeServer} (hacts : Acts actor s s') (fd : Int) :
    Aside actor fd s s' := by
  induction hacts with
  | refl => exact Aside.refl actor fd s
  | tail _ hact ih => exact ih.trans (hact.aside fd)

/-- Serving another connection. -/
theorem Serve.aside {actor fd : Int} (hne : actor ≠ fd) {s s' : ExchangeServer}
    (hserve : Serve actor s s') : Aside actor fd s s' := by
  cases hserve with
  | act hact => exact hact.aside fd
  | receive session bytes h hopen =>
      exact Aside.put h rfl rfl (by simp [Obs.silent, hne]) fun heq => absurd heq hne
  | take session line tail h hline =>
      exact Aside.put h rfl rfl (by simp [Obs.silent]) fun heq => absurd heq hne
  | handled line => exact Aside.fewer rfl (by simp [Obs.silent, hne]) fun _ hb => hb

theorem Serves.aside {actor fd : Int} (hne : actor ≠ fd) {s s' : ExchangeServer}
    (hserves : Serves actor s s') : Aside actor fd s s' := by
  induction hserves with
  | refl => exact Aside.refl actor fd s
  | tail _ hserve ih => exact ih.trans (hserve.aside hne)

/-! ## The invariant -/

/-- Why a session that is still connected is not read any more: a line of its
own, the end of its stream, or a line that is too long. -/
def Departing (fd : Int) (s : ExchangeServer) : Prop :=
  (∃ x ∈ handledLines fd s.trace, x.2 ≠ .stillOpen) ∨
    (finished fd s.trace ∧
      messagesOf (receivedFrom fd s.trace) = (handledLines fd s.trace).map Prod.fst) ∨
    kMaxLineBytes < (Framing.tail newline (receivedFrom fd s.trace)).length

/-- Between two lines of `fd`. -/
structure Framed (fd : Int) (s : ExchangeServer) : Prop where
  order : (handledLines fd s.trace).map Prod.fst <+: messagesOf (receivedFrom fd s.trace)
  past : ∀ x ∈ (handledLines fd s.trace).dropLast, x.2 = .stillOpen
  reading : ∀ session, s.sessions.lookup fd = some session → session.closing = false →
    (∀ x ∈ handledLines fd s.trace, x.2 = .stillOpen) ∧
      messagesOf (receivedFrom fd s.trace) =
        (handledLines fd s.trace).map Prod.fst ++ messagesOf session.inbuf ∧
      Framing.tail newline (receivedFrom fd s.trace) = Framing.tail newline session.inbuf
  leaving : ∀ session, s.sessions.lookup fd = some session → session.closing = true →
    Departing fd s

/-- The input buffer of `fd` has been searched for newlines. -/
def Settled (fd : Int) (s : ExchangeServer) : Prop :=
  ∀ session, s.sessions.lookup fd = some session → session.closing = false →
    newline ∉ session.inbuf

/-- The lines of `fd` have been taken out of its buffer, and what is left is not too
long. -/
def Searched (fd : Int) (s : ExchangeServer) : Prop :=
  ∀ session, s.sessions.lookup fd = some session → session.closing = false →
    newline ∉ session.inbuf ∧ session.inbuf.length ≤ kMaxLineBytes

theorem Searched.settled {fd : Int} {s : ExchangeServer} (hs : Searched fd s) : Settled fd s :=
  fun session h hopen => (hs session h hopen).1

theorem messagesOf_of_notMem {buffer : Bytes} (h : newline ∉ buffer) :
    messagesOf buffer = [] := by
  rw [messagesOf, Framing.lines_of_notMem h, List.map_nil]

theorem messagesOf_append (x y : Bytes) :
    messagesOf (x ++ y) = messagesOf x ++ messagesOf (Framing.tail newline x ++ y) := by
  rw [messagesOf, Framing.lines_append, List.map_append, messagesOf, messagesOf]

theorem messagesOf_splitLine {buffer line tail : Bytes}
    (h : splitLine buffer = some (line, tail)) :
    messagesOf buffer = stripCarriageReturn line :: messagesOf tail ∧
      Framing.tail newline buffer = Framing.tail newline tail := by
  obtain ⟨rfl, hnot⟩ := splitLine_some h
  rw [messagesOf, Framing.lines_line hnot, Framing.tail_line hnot]
  exact ⟨rfl, rfl⟩

section Frame

variable {actor fd : Int} {s s' : ExchangeServer} (ha : Aside actor fd s s')

include ha

theorem Aside.receivedFrom : receivedFrom fd s'.trace = receivedFrom fd s.trace := by
  obtain ⟨new, htrace, hnew⟩ := ha.trace
  rw [htrace, receivedFrom_silent hnew]

theorem Aside.handledLines : handledLines fd s'.trace = handledLines fd s.trace := by
  obtain ⟨new, htrace, hnew⟩ := ha.trace
  rw [htrace, handledLines_silent hnew]

theorem Aside.departing (h : Departing fd s) : Departing fd s' := by
  have hfinished : finished fd s.trace → finished fd s'.trace := by
    obtain ⟨new, htrace, hnew⟩ := ha.trace
    rw [htrace]
    exact finished_silent hnew s.trace
  unfold Departing at h ⊢
  rw [ha.receivedFrom, ha.handledLines]
  exact h.imp_right (Or.imp_left (And.imp_left hfinished))

/-- **The frame rule.**  A session may start leaving only for a reason. -/
theorem Framed.aside (hf : Framed fd s) (hwhy : actor = fd → Departing fd s') :
    Framed fd s' where
  order := by
    rw [ha.receivedFrom, ha.handledLines]
    exact hf.order
  past := by
    rw [ha.handledLines]
    exact hf.past
  reading := by
    intro b hb hopen
    rw [ha.receivedFrom, ha.handledLines]
    rcases ha.session b hb with ⟨a, hlookup, hin, hclosing⟩ | ⟨_, hleft⟩
    · rw [hin]
      exact hf.reading a hlookup (hclosing ▸ hopen)
    · rw [hopen] at hleft
      cases hleft
  leaving := by
    intro b hb hclosing
    rcases ha.session b hb with ⟨a, hlookup, _, hsame⟩ | ⟨hown, _⟩
    · exact ha.departing (hf.leaving a hlookup (hsame ▸ hclosing))
    · exact hwhy hown

/-- What holds of the input buffer of a session that is being read. -/
theorem Aside.reading {P : Bytes → Prop}
    (hs : ∀ session, s.sessions.lookup fd = some session → session.closing = false →
      P session.inbuf) :
    ∀ session, s'.sessions.lookup fd = some session → session.closing = false →
      P session.inbuf := by
  intro b hb hopen
  rcases ha.session b hb with ⟨a, hlookup, hin, hclosing⟩ | ⟨_, hleft⟩
  · rw [hin]
    exact hs a hlookup (hclosing ▸ hopen)
  · rw [hopen] at hleft
    cases hleft

theorem Searched.aside (hs : Searched fd s) : Searched fd s' :=
  ha.reading (P := fun inbuf => newline ∉ inbuf ∧ inbuf.length ≤ kMaxLineBytes) hs

theorem Settled.aside (hs : Settled fd s) : Settled fd s' :=
  ha.reading (P := fun inbuf => newline ∉ inbuf) hs

end Frame

/-! ## Serving the connection itself -/

section Own

variable {s : ExchangeServer} {fd : Int}

/-- **A chunk arrives.**  Wherever it ends, it continues what was left over. -/
theorem receive_framed (hf : Framed fd s) {session : ClientSession}
    (h : s.sessions.lookup fd = some session) (hopen : session.closing = false)
    (bytes : Bytes) : Framed fd (s.receive fd session bytes) := by
  obtain ⟨hall, hlines, htail⟩ := hf.reading session h hopen
  have hreceived : receivedFrom fd (s.receive fd session bytes).trace =
      receivedFrom fd s.trace ++ bytes := by
    simp [receive, observe, putSession, receivedFrom, sinceAccept, Log.since_concat,
      Obs.receivedBytes]
  have hhandled : handledLines fd (s.receive fd session bytes).trace =
      handledLines fd s.trace := by
    simp [receive, observe, putSession, handledLines, sinceAccept, Log.since_concat,
      Obs.handledLine]
  have hmessages : messagesOf (receivedFrom fd s.trace ++ bytes) =
      (handledLines fd s.trace).map Prod.fst ++ messagesOf (session.inbuf ++ bytes) := by
    rw [messagesOf_append, hlines, htail, List.append_assoc, ← messagesOf_append]
  have hlookup : (s.receive fd session bytes).sessions.lookup fd =
      some { session with inbuf := session.inbuf ++ bytes } := by
    simp [receive, observe, putSession]
  refine ⟨?_, ?_, ?_, ?_⟩
  · rw [hreceived, hhandled, hmessages]
    exact List.prefix_append _ _
  · rw [hhandled]
    exact hf.past
  · intro b hb _
    rw [hlookup] at hb
    cases hb
    rw [hreceived, hhandled]
    refine ⟨hall, hmessages, ?_⟩
    rw [Framing.tail_append, htail, ← Framing.tail_append]
  · intro b hb hclosing
    rw [hlookup] at hb
    cases hb
    rw [hopen] at hclosing
    cases hclosing

/-- `handle_message` has returned: the line joins the ones handled before, and the
session says what became of it. -/
private theorem observe_handled_framed {line rest : Bytes}
    (hall : ∀ x ∈ handledLines fd s.trace, x.2 = .stillOpen)
    (hlines : messagesOf (receivedFrom fd s.trace) =
      (handledLines fd s.trace).map Prod.fst ++ line :: messagesOf rest)
    (htail : Framing.tail newline (receivedFrom fd s.trace) = Framing.tail newline rest)
    (hrest : ∀ b, s.sessions.lookup fd = some b → b.closing = false → b.inbuf = rest) :
    Framed fd (s.observe (.handled fd line (s.lineOutcome fd))) := by
  have hreceived : receivedFrom fd (s.trace ++ [.handled fd line (s.lineOutcome fd)]) =
      receivedFrom fd s.trace := by
    simp [receivedFrom, sinceAccept, Log.since_concat, Obs.receivedBytes]
  have hhandled : handledLines fd (s.trace ++ [.handled fd line (s.lineOutcome fd)]) =
      handledLines fd s.trace ++ [(line, s.lineOutcome fd)] := by
    simp [handledLines, sinceAccept, Log.since_concat, Obs.handledLine]
  refine ⟨?_, ?_, ?_, ?_⟩
  · rw [observe, hreceived, hhandled, hlines, List.map_append]
    refine List.prefix_append_right_inj _ |>.mpr ?_
    exact ⟨messagesOf rest, rfl⟩
  · rw [observe, hhandled, List.dropLast_concat]
    exact hall
  · intro b hb hopen
    have houtcome : s.lineOutcome fd = .stillOpen := by
      simp only [observe] at hb
      simp [lineOutcome, hb, hopen]
    rw [observe, hreceived, hhandled, hlines, hrest b hb hopen, houtcome]
    refine ⟨?_, by simp, htail⟩
    intro x hx
    rcases List.mem_append.mp hx with hx | hx
    · exact hall x hx
    · rw [List.mem_singleton.mp hx]
  · intro b hb hclosing
    have houtcome : s.lineOutcome fd = .closing := by
      simp only [observe] at hb
      simp [lineOutcome, hb, hclosing]
    refine Or.inl ⟨(line, s.lineOutcome fd), ?_, by simp [houtcome]⟩
    rw [observe, hhandled]
    exact List.mem_append_right _ (List.mem_singleton.mpr rfl)

/-- What follows a line, if the session is still read. -/
private theorem handleLine_rest (hb : Base s) {session : ClientSession} {line tail : Bytes}
    (h : s.sessions.lookup fd = some session)
    (hline : splitLine session.inbuf = some (line, tail)) :
    ∀ b, (s.handleLine fd session (stripCarriageReturn line) tail).sessions.lookup fd =
      some b → b.closing = false → b.inbuf = tail := by
  have htake := Serve.take s session line tail h hline
  have hlookup : ((s.putSession fd { session with inbuf := tail }).observe
      (.handling fd (stripCarriageReturn line))).sessions.lookup fd =
        some { session with inbuf := tail } := by
    simp [observe, putSession]
  refine ((handleMessage_acts hlookup (htake.base hb) _).aside fd).reading
    (P := fun inbuf => inbuf = tail) ?_
  intro x hx _
  rw [hlookup] at hx
  cases hx
  rfl

/-- **The loop of `consume_messages` leaves nothing to search.**  Each pass shortens
the buffer, so fuel for its length is enough. -/
theorem consumeLoop_searched (fuel : Nat) (hb : Base s)
    (hfuel : ∀ session, s.sessions.lookup fd = some session →
      session.closing = false ∧ session.inbuf.length < fuel) :
    Searched fd (consumeLoop fd fuel s).1 := by
  induction fuel generalizing s with
  | zero =>
      intro session h _
      have := (hfuel session h).2
      omega
  | succ fuel ih =>
      unfold consumeLoop
      split
      · next hnone =>
        intro session h
        rw [hnone] at h
        cases h
      · next session h =>
        obtain ⟨hopen, hlength⟩ := hfuel session h
        split
        · next hnone =>
          split
          · -- told that its line is too long, the session is leaving or gone
            intro b hlookup hstill
            rcases lookup_of_beginOrderlyClose hlookup with ⟨hne, _⟩ | ⟨_, x, _, _, rfl⟩
            · exact absurd rfl hne
            · cases hstill
          · next hshort =>
            intro b hlookup _
            rw [h] at hlookup
            cases hlookup
            exact ⟨splitLine_none hnone, Nat.le_of_not_lt hshort⟩
        · next line tail hline =>
          have hb' := (handleLine_serves hb h hline).base hb
          have hrest := handleLine_rest hb h hline
          have hshorter : tail.length < session.inbuf.length := by
            rw [(splitLine_some hline).1]
            simp
            omega
          dsimp only
          generalize s.handleLine fd session (stripCarriageReturn line) tail = s' at hrest hb' ⊢
          split
          · next hgone =>
            intro b hlookup
            rw [lineOutcome, hlookup] at hgone
            dsimp only at hgone
            split at hgone <;> cases hgone
          · next hclosing =>
            intro b hlookup hstill
            simp [lineOutcome, hlookup, hstill] at hclosing
          · next hstill =>
            refine ih hb' ?_
            intro b hlookup
            have hopen' := lineOutcome_stillOpen hstill hlookup
            refine ⟨hopen', ?_⟩
            rw [hrest b hlookup hopen']
            omega

theorem consume_searched (hb : Base s) {session : ClientSession} (chunk : Chunk)
    (h : s.sessions.lookup fd = some session) (hopen : session.closing = false) :
    Searched fd ((s.receive fd session chunk.bytes).consumeMessages fd).1 := by
  refine consumeLoop_searched _ ((Serve.receive s session chunk.bytes h hopen).base hb) ?_
  intro x hx
  rw [receive_lookup] at hx ⊢
  cases hx
  exact ⟨hopen, Nat.lt_succ_self _⟩

/-- **A line is handled.** -/
theorem handleLine_framed (hb : Base s) (hf : Framed fd s) {session : ClientSession}
    (h : s.sessions.lookup fd = some session) (hopen : session.closing = false)
    {line tail : Bytes} (hline : splitLine session.inbuf = some (line, tail)) :
    Framed fd (s.handleLine fd session (stripCarriageReturn line) tail) := by
  obtain ⟨hall, hlines, htail⟩ := hf.reading session h hopen
  obtain ⟨hmessages, htail'⟩ := messagesOf_splitLine hline
  set s₁ := (s.putSession fd { session with inbuf := tail }).observe
    (.handling fd (stripCarriageReturn line)) with hs₁
  have hlookup₁ : s₁.sessions.lookup fd = some { session with inbuf := tail } := by
    simp [hs₁, observe, putSession]
  have hb₁ : Base s₁ := (Serve.take s session line tail h hline).base hb
  have ha := (handleMessage_acts hlookup₁ hb₁ (stripCarriageReturn line)).aside fd
  set s₂ := s₁.handleMessage fd (stripCarriageReturn line) with hs₂
  have hresult : s.handleLine fd session (stripCarriageReturn line) tail =
      s₂.observe (.handled fd (stripCarriageReturn line) (s₂.lineOutcome fd)) := rfl
  have hquiet : ∀ o ∈ [Obs.handling fd (stripCarriageReturn line)], o.silent fd = true := by
    simp [Obs.silent]
  have hreceived : receivedFrom fd s₂.trace = receivedFrom fd s.trace := by
    rw [ha.receivedFrom]
    exact receivedFrom_silent hquiet s.trace
  have hhandled : handledLines fd s₂.trace = handledLines fd s.trace := by
    rw [ha.handledLines]
    exact handledLines_silent hquiet s.trace
  rw [hresult]
  refine observe_handled_framed ?_ ?_ ?_ (handleLine_rest hb h hline)
  · rw [hhandled]
    exact hall
  · rw [hreceived, hhandled, hlines, hmessages]
  · rw [hreceived, htail, htail']

/-- The session is told that its line is too long, and leaves. -/
theorem oversized_framed (hb : Base s) (hf : Framed fd s) {session : ClientSession}
    (h : s.sessions.lookup fd = some session) (hopen : session.closing = false)
    (hnone : splitLine session.inbuf = none) (hlong : kMaxLineBytes < session.inbuf.length) :
    Framed fd ((s.sendTo fd oversizedMessage).beginOrderlyClose fd .oversized) := by
  have hdeparting : Departing fd s := by
    refine Or.inr (Or.inr ?_)
    rw [(hf.reading session h hopen).2.2, Framing.tail_of_notMem (splitLine_none hnone)]
    exact hlong
  have ha := (oversized_acts hb fd).aside fd
  exact hf.aside ha fun _ => ha.departing hdeparting

/-- What has arrived joins the buffer, and the lines in it are handled. -/
theorem consume_framed (hb : Base s) (hf : Framed fd s) {session : ClientSession}
    (chunk : Chunk) (h : s.sessions.lookup fd = some session) (hopen : session.closing = false) :
    Framed fd ((s.receive fd session chunk.bytes).consumeMessages fd).1 := by
  have hb₁ := (Serve.receive s session chunk.bytes h hopen).base hb
  refine (consumeLoop_invariant (I := fun s => Base s ∧ Framed fd s) ?_ ?_ _ ?_
    ⟨hb₁, receive_framed hf h hopen chunk.bytes⟩).2
  · intro s₁ x line tail hx hopen' hline hi
    exact ⟨(handleLine_serves hi.1 hx hline).base hi.1,
      handleLine_framed hi.1 hi.2 hx hopen' hline⟩
  · intro s₁ x hx hopen' hnone hlong hi
    exact ⟨(oversized_acts hi.1 fd).base hi.1,
      oversized_framed hi.1 hi.2 hx hopen' hnone hlong⟩
  · intro x hx
    rw [receive_lookup] at hx
    cases hx
    exact hopen

/-- The peer has finished sending, after the lines that were handled. -/
theorem fin_framed (hf : Framed fd s) (hs : Settled fd s) {session : ClientSession}
    (h : s.sessions.lookup fd = some session) (hopen : session.closing = false) :
    Framed fd (s.beginOrderlyClose fd .fin) ∧ Settled fd (s.beginOrderlyClose fd .fin) := by
  have hacts : Acts fd s (s.beginOrderlyClose fd .fin) := beginOrderlyClose_acts fd .fin
  have ha := hacts.aside fd
  have hfinished : finished fd (s.beginOrderlyClose fd .fin).trace := by
    have hlookup : ((s.putSession fd { session with closing := true, inbuf := [] }).observe
        (.leaving fd .fin)).sessions.lookup fd =
          some { session with closing := true, inbuf := [] } := by
      simp [observe, putSession]
    have hleft : finished fd (s.trace ++ [.leaving fd .fin]) := by
      simp [finished, sinceAccept, Log.since_concat]
    simp only [beginOrderlyClose, h]
    split
    · rw [drop_trace hlookup]
      exact finished_silent (by simp [Obs.silent]) _ hleft
    · exact hleft
  refine ⟨hf.aside ha fun _ => Or.inr (Or.inl ⟨hfinished, ?_⟩), hs.aside ha⟩
  rw [ha.receivedFrom, ha.handledLines, (hf.reading session h hopen).2.1,
    messagesOf_of_notMem (hs session h hopen), List.append_nil]

/-- **The loop of `on_readable`.** -/
theorem onReadable_framed (script : List RecvOutcome) (hb : Base s) (hf : Framed fd s)
    (hs : Settled fd s) :
    Framed fd (onReadable fd script s) ∧ Settled fd (onReadable fd script s) := by
  refine (onReadable_invariant (I := fun s => Base s ∧ Framed fd s ∧ Settled fd s) ?_ ?_ ?_
    script ⟨hb, hf, hs⟩).2
  · rintro s₁ session chunk h hopen ⟨hb₁, hf₁, _⟩
    exact ⟨(consume_serves hb₁ chunk h hopen).base hb₁, consume_framed hb₁ hf₁ chunk h hopen,
      (consume_searched hb₁ chunk h hopen).settled⟩
  · rintro s₁ session h hopen ⟨hb₁, hf₁, hs₁⟩
    have hacts : Acts fd s₁ (s₁.beginOrderlyClose fd .fin) := beginOrderlyClose_acts fd .fin
    exact ⟨hacts.base hb₁, fin_framed hf₁ hs₁ h hopen⟩
  · rintro s₁ ⟨hb₁, hf₁, hs₁⟩
    have hdrop : Act (fd + 1) s₁ (s₁.drop fd .recvFailed) := drop_act s₁ (fd + 1) fd rfl
    have ha := hdrop.aside fd
    exact ⟨hdrop.base hb₁, hf₁.aside ha fun heq => by omega, hs₁.aside ha⟩

end Own

/-! ## Turns and runs -/

/-- A property of single connections: a new one has it, its own input keeps it, and
no other connection can break it. -/
structure PerConnection (C : Int → ExchangeServer → Prop) : Prop where
  aside : ∀ {actor fd : Int} {a b : ExchangeServer}, actor ≠ fd → Aside actor fd a b →
    C fd a → C fd b
  fresh : ∀ (s : ExchangeServer) (fd : Int) (peer : Bytes),
    C fd (((s.openFd fd).putSession fd { fd := fd, peer := peer }).observe (.accepted fd))
  read : ∀ {s : ExchangeServer} {fd : Int} (script : List RecvOutcome), Base s → C fd s →
    C fd (onReadable fd script s)

section Turn

variable {C : Int → ExchangeServer → Prop} (hC : PerConnection C) {s : ExchangeServer}

include hC

theorem Env.each {s' : ExchangeServer} (henv : Env s s') (hi : ∀ fd, C fd s) (fd : Int) :
    C fd s' := by
  have hne : fd + 1 ≠ fd := by omega
  have haside : ∀ {s' : ExchangeServer}, Aside (fd + 1) fd s s' → C fd s' :=
    fun ha => hC.aside hne ha (hi fd)
  cases henv with
  | accept fd' peer hfd h hnonneg =>
      by_cases heq : fd' = fd
      · subst heq
        exact hC.fresh s fd' peer
      · refine haside (Aside.fewer rfl (by simp [Obs.silent, heq]) ?_)
        intro b hb
        simpa [observe, putSession, openFd, lookup_insert, Ne.symm heq] using hb
  | refuse fd' peer h =>
      exact haside (Aside.fewer (refuse_trace s fd') (by simp [Obs.silent])
        fun _ hb => (lookup_of_erase hb).2)
  | bounce fd' hfd =>
      exact haside (Aside.fewer (bounce_trace s fd') (by simp [Obs.silent]) fun _ hb => hb)
  | reap =>
      refine haside (Aside.fewer (reapClosed_trace s) ?_ ?_)
      · simp [Obs.silent]
      · intro b hb
        rw [(reapClosed_tables s).1] at hb
        exact hb
  | timer resumeAt loop =>
      exact haside (Aside.fewer (List.append_nil _).symm (by simp) fun _ hb => hb)
  | load a =>
      exact haside (Aside.fewer (List.append_nil _).symm (by simp) fun _ hb => hb)

theorem Envs.each {s' : ExchangeServer} (henvs : Envs s s') (hi : ∀ fd, C fd s) :
    ∀ fd, C fd s' := by
  induction henvs with
  | refl => exact hi
  | tail _ henv ih => exact henv.each hC ih

/-- An event of the connection itself. -/
private theorem onEvent_own (hb : Base s) {e : Event} (hne : e.fd ≠ s.listenerFd)
    (a : Answers) (hi : C e.fd s) : C e.fd (s.onEvent e a) := by
  -- writing and dropping are aside, and may be put down to somebody else
  have hother : e.fd + 1 ≠ e.fd := by omega
  refine (onEvent_invariant (I := fun s => Base s ∧ C e.fd s) ?_ ?_ ?_ hne ⟨hb, hi⟩).2
  · rintro s₁ ⟨hb₁, hi₁⟩
    have hacts := onWritable_acts hb₁ (e.fd + 1) e.fd
    exact ⟨hacts.base hb₁, hC.aside hother (hacts.aside e.fd) hi₁⟩
  · rintro s₁ ⟨hb₁, hi₁⟩
    exact ⟨(onReadable_serves hb₁ e.fd a.recvs).base hb₁, hC.read a.recvs hb₁ hi₁⟩
  · rintro s₁ ⟨hb₁, hi₁⟩
    have hdrop : Act (e.fd + 1) s₁ (s₁.drop e.fd .hangup) := drop_act s₁ (e.fd + 1) e.fd rfl
    exact ⟨hdrop.base hb₁, hC.aside hother (hdrop.aside e.fd) hi₁⟩

/-- **The step lemma.**  Whichever connection an event belongs to, every
connection has the property after it. -/
theorem turn_each (hb : Base s) (t : Turn) (hi : ∀ fd, C fd s) : ∀ fd, C fd (s.turn t) := by
  have hload := Env.load s t.answers
  have hb' := hload.base hb
  have hi' := hload.each hC hi
  unfold turn
  dsimp only
  generalize s.load t.answers = s₁ at hb' hi' ⊢
  split
  · unfold resumeAcceptingIfDue
    split
    · exact hi'
    · split
      · exact hi'
      · exact (Env.timer _ _ _).each hC hi'
  · next e _ =>
    by_cases hne : e.fd = s₁.listenerFd
    · unfold onEvent
      rw [if_pos hne]
      exact (acceptPending_envs hb' t.answers.accepts).each hC hi'
    · intro fd
      by_cases heq : e.fd = fd
      · subst heq
        exact onEvent_own hC hb' hne t.answers (hi' e.fd)
      · exact hC.aside heq ((onEvent_serves hb' hne t.answers).aside heq) (hi' fd)
  · exact (Env.reap s₁).each hC hi'

/-- **The run lemma.** -/
theorem run_each (c : Setup) (turns : List Turn)
    (hstart : ∀ fd, C fd (ExchangeServer.start c.backend c.listenerFd c.openFds c.clock)) :
    ∀ fd, C fd (run c turns) := by
  have hrun : Base (run c turns) ∧ ∀ fd, C fd (run c turns) := by
    refine Loop.run_invariant (I := fun s => Base s ∧ ∀ fd, C fd s) (P := fun _ => True)
      ?_ ⟨base_start c, hstart⟩ (fun _ _ => trivial)
    intro s t _ hi
    exact ⟨(turn_moves hi.1 t).base hi.1, turn_each hC hi.1 t hi.2⟩
  exact hrun.2

end Turn

/-- Every connection, between two events. -/
def AllFramed (s : ExchangeServer) : Prop := ∀ fd, Framed fd s ∧ Settled fd s

/-- A connection that has just been accepted has an empty stream. -/
private theorem accept_framed (s : ExchangeServer) (fd : Int) (peer : Bytes) :
    Framed fd (((s.openFd fd).putSession fd { fd := fd, peer := peer }).observe
      (.accepted fd)) ∧
    Settled fd (((s.openFd fd).putSession fd { fd := fd, peer := peer }).observe
      (.accepted fd)) := by
  have hreceived : receivedFrom fd (s.trace ++ [.accepted fd]) = [] := by
    simp [receivedFrom, sinceAccept, Log.since_concat]
  have hhandled : handledLines fd (s.trace ++ [.accepted fd]) = [] := by
    simp [handledLines, sinceAccept, Log.since_concat]
  have hlookup : ∀ b, (((s.openFd fd).putSession fd { fd := fd, peer := peer }).observe
      (.accepted fd)).sessions.lookup fd = some b → b.inbuf = [] ∧ b.closing = false := by
    intro b hb
    simp only [observe, putSession, lookup_insert, if_pos] at hb
    cases hb
    exact ⟨rfl, rfl⟩
  refine ⟨⟨?_, ?_, ?_, ?_⟩, ?_⟩
  · simp only [observe, putSession, openFd, hhandled]
    exact List.nil_prefix
  · simp [observe, putSession, openFd, hhandled]
  · intro b hb _
    rw [(hlookup b hb).1]
    simp [observe, putSession, openFd, hhandled, hreceived]
  · intro b hb hclosing
    rw [(hlookup b hb).2] at hclosing
    cases hclosing
  · intro b hb _
    rw [(hlookup b hb).1]
    exact List.not_mem_nil

theorem perConnection_framed : PerConnection fun fd s => Framed fd s ∧ Settled fd s where
  aside := fun hne ha hi => ⟨hi.1.aside ha fun heq => absurd heq hne, hi.2.aside ha⟩
  fresh := accept_framed
  read := fun script hb hi => onReadable_framed script hb hi.1 hi.2

theorem allFramed_start (c : Setup) :
    AllFramed (ExchangeServer.start c.backend c.listenerFd c.openFds c.clock) := by
  intro fd
  refine ⟨⟨List.nil_prefix, ?_, ?_, ?_⟩, ?_⟩
  · intro x hx
    cases hx
  all_goals
    intro session h
    simp [ExchangeServer.start] at h

theorem run_allFramed (c : Setup) (turns : List Turn) : AllFramed (run c turns) :=
  run_each perConnection_framed c turns (allFramed_start c)

/-- **Framing is exact.**  Take any run of the server, any connection, and a
stream without over-long lines of which some part has been received, in whatever
pieces.  The lines handed to `handle_message` are the first messages of the
stream, in order; all of them but the last left the session open.  If every one
of them did, and the session has not been dropped, they are all the messages
received so far, and, unless the peer has finished sending, the input buffer is
the unterminated tail. -/
theorem framing_exact (c : Setup) (turns : List Turn) (fd : Int) (stream : Bytes)
    (hstream : receivedFrom fd (run c turns).trace <+: stream)
    (hlines : ∀ line ∈ Framing.lines newline stream, line.length ≤ kMaxLineBytes)
    (htail : (Framing.tail newline stream).length ≤ kMaxLineBytes) :
    (handledLines fd (run c turns).trace).map Prod.fst <+: messagesOf stream ∧
    (∀ x ∈ (handledLines fd (run c turns).trace).dropLast, x.2 = .stillOpen) ∧
    ∀ session, (run c turns).sessions.lookup fd = some session →
      (∀ x ∈ handledLines fd (run c turns).trace, x.2 = .stillOpen) →
      (handledLines fd (run c turns).trace).map Prod.fst =
          messagesOf (receivedFrom fd (run c turns).trace) ∧
        (¬ finished fd (run c turns).trace →
          session.inbuf = Framing.tail newline (receivedFrom fd (run c turns).trace)) := by
  obtain ⟨hf, hs⟩ := run_allFramed c turns fd
  have hgrows : messagesOf (receivedFrom fd (run c turns).trace) <+: messagesOf stream :=
    (Framing.lines_isPrefix hstream).map stripCarriageReturn
  have hshort := Framing.tail_length_le hstream hlines htail
  refine ⟨hf.order.trans hgrows, hf.past, ?_⟩
  intro session h hall
  cases hclosing : session.closing with
  | false =>
      obtain ⟨_, hmessages, hrest⟩ := hf.reading session h hclosing
      have hnot := hs session h hclosing
      rw [messagesOf_of_notMem hnot, List.append_nil] at hmessages
      rw [Framing.tail_of_notMem hnot] at hrest
      exact ⟨hmessages.symm, fun _ => hrest.symm⟩
  | true =>
      rcases hf.leaving session h hclosing with ⟨x, hx, hout⟩ | ⟨hfin, hmessages⟩ | hlong
      · exact absurd (hall x hx) hout
      · exact ⟨hmessages.symm, fun hnot => absurd hfin hnot⟩
      · omega

/-- A client whose first line arrives in three pieces, the last cut being between
carriage return and newline. -/
private def splitLogin : List Turn :=
  [{ input := .event { fd := 3, readable := true }
     answers := { accepts := [.connection 5 [] true] } },
   { input := .event { fd := 5, readable := true }
     answers := { recvs := [.data ⟨ascii "LOG", by decide, by decide⟩] } },
   { input := .event { fd := 5, readable := true }
     answers := { recvs := [.data ⟨ascii "IN bob\r", by decide, by decide⟩] } },
   { input := .event { fd := 5, readable := true }
     answers := { recvs := [.data ⟨ascii "\nSUBSCR", by decide, by decide⟩] } }]

theorem framing_exact_split_login :
    handledLines 5 (run {} splitLogin).trace = [(ascii "LOGIN bob", .stillOpen)] ∧
      (run {} splitLogin).connected 5 = true ∧
      ∀ session, (run {} splitLogin).sessions.lookup 5 = some session →
        session.inbuf = ascii "SUBSCR" := by
  have hreceived : receivedFrom 5 (run {} splitLogin).trace =
      ascii "LOGIN bob\r\nSUBSCR" := by decide +kernel
  have hhandled : handledLines 5 (run {} splitLogin).trace =
      [(ascii "LOGIN bob", .stillOpen)] := by decide +kernel
  have hopen : ¬ finished 5 (run {} splitLogin).trace := by
    unfold finished
    decide +kernel
  refine ⟨hhandled, by decide +kernel, ?_⟩
  intro session h
  have hexact := framing_exact {} splitLogin 5 (ascii "LOGIN bob\r\nSUBSCR")
    (hreceived ▸ List.prefix_rfl) (by decide +kernel) (by decide +kernel)
  obtain ⟨_, htail⟩ := hexact.2.2 session h (by rw [hhandled]; decide)
  rw [htail hopen, hreceived]
  decide +kernel

end SocketExchange.Server
