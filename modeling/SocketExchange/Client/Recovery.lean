import SocketExchange.Client.TcpClient
import SocketExchange.Server.Output
import SocketExchange.Server.Stages

/-!
# What the client reads is what the server queued

The server's side of the argument: usernames are stored and quoted later, instruments
are stored in the book and quoted in notices to others.  So it is an invariant of the
whole server that nothing it stores, and nothing it has ever queued, holds a line end.
-/

namespace SocketExchange.Client

open SocketExchange.Lib
open SocketExchange.Lib.Bytes
open SocketExchange.Network
open SocketExchange.Protocol
open SocketExchange.Server
open SocketExchange.Trading.OrderBook
open ExchangeServer

/-- The texts an entry of the trace quotes are plain. -/
def Quotes : Obs → Prop
  | .queued _ message => Plain message.quoted
  | .submitted _ _ fills => ∀ f ∈ fills, Plain f.execution.instrument
  | _ => True

/-- Nothing stored and nothing queued holds a line end. -/
structure Worded (s : ExchangeServer) : Prop where
  names : ∀ fd session, s.sessions.lookup fd = some session → Plain session.username
  said : ∀ o ∈ s.trace, Quotes o

section Worded

variable {s s' : ExchangeServer} (hw : Worded s)

include hw

private theorem Worded.step {new : List Obs} (htrace : s'.trace = s.trace ++ new)
    (hnew : ∀ o ∈ new, Quotes o)
    (hnames : ∀ fd y, s'.sessions.lookup fd = some y → Plain y.username) : Worded s' where
  names := hnames
  said := by
    intro o ho
    rw [htrace, List.mem_append] at ho
    rcases ho with ho | ho
    · exact hw.said o ho
    · exact hnew o ho

private theorem Worded.put {fd : Int} {session session' : ClientSession}
    (h : s.sessions.lookup fd = some session) (hs : s'.sessions = s.sessions.insert fd session')
    (hname : session'.username = session.username) {new : List Obs}
    (htrace : s'.trace = s.trace ++ new) (hnew : ∀ o ∈ new, Quotes o) : Worded s' := by
  refine hw.step htrace hnew ?_
  rw [hs]
  refine forall_lookup_insert ?_ hw.names
  rw [hname]
  exact hw.names fd session h

omit hw in
private theorem parting_quotes {fd : Int} {gone : List Obs} (h : Parting fd s' gone) :
    ∀ o ∈ gone, Quotes o := by
  rcases h with rfl | ⟨reason, rfl, _⟩
  · simp
  · simp [Quotes]

theorem sendTo_worded (hb : Base s) (dest : Int) {message : Response}
    (hplain : Plain message.quoted) : Worded (s.sendTo dest message) := by
  cases h : s.sessions.lookup dest with
  | none =>
      rw [sendTo_of_lookup_none h]
      exact hw
  | some session =>
      obtain ⟨bytes, gone, htrace, hparting⟩ := sendTo_trace hb h message
      refine hw.step htrace ?_ ?_
      · intro o ho
        rw [List.mem_cons, List.mem_cons] at ho
        rcases ho with rfl | rfl | ho
        · exact hplain
        · trivial
        · exact parting_quotes hparting o ho
      · intro fd y hy
        obtain ⟨x, hx, hclient⟩ := sendTo_client hb dest message hy
        rw [username_of_client hclient]
        exact hw.names fd x hx

theorem beginOrderlyClose_worded (fd : Int) (reason : DropReason) :
    Worded (s.beginOrderlyClose fd reason) := by
  cases h : s.sessions.lookup fd with
  | none =>
      simp only [beginOrderlyClose, h]
      exact hw
  | some session =>
      obtain ⟨gone, htrace, hparting⟩ := beginOrderlyClose_trace h reason
      refine hw.step htrace ?_ ?_
      · intro o ho
        rw [List.mem_cons] at ho
        rcases ho with rfl | ho
        · trivial
        · exact parting_quotes hparting o ho
      · intro fd' y hy
        rcases lookup_of_beginOrderlyClose hy with ⟨_, hold⟩ | ⟨_, x, hx, _, rfl⟩
        · exact hw.names fd' y hold
        · exact hw.names fd x hx

theorem drop_worded (fd : Int) (reason : DropReason) : Worded (s.drop fd reason) := by
  cases h : s.sessions.lookup fd with
  | none =>
      rw [drop_of_lookup_none h]
      exact hw
  | some session =>
      exact hw.step (drop_trace h reason) (by simp [Quotes])
        fun fd' y hy => hw.names fd' y (lookup_of_drop hy).2

end Worded

/-- An execution is in the instrument of the order that made it. -/
private theorem executions_instrument {s : ExchangeServer} {fd : Int} {cmd : ParsedCommand}
    {f : Fill} (hf : f ∈ (s.addResult fd cmd).fills) :
    f.execution.instrument = cmd.instrument := by
  rw [addResult, addOrder_fills] at hf
  obtain ⟨t, _, rfl⟩ := List.mem_map.mp hf
  rfl

/-- **The effect of a line** stores what the lexer let through. -/
theorem effect_worded {fd : Int} {line : Bytes} {s s₁ : ExchangeServer} {reply : Response}
    {es : List TradeExecution} (he : Effect fd line s s₁ reply es) (hw : Worded s) :
    Worded s₁ ∧ Plain reply.quoted ∧ ∀ e ∈ es, Plain e.instrument := by
  have hmarket : ∀ session : ClientSession,
      (assumeMarketData session).username = session.username := by
    intro session
    unfold assumeMarketData
    split <;> rfl
  cases he with
  | refuse session reason h hplain => exact ⟨hw, hplain (hw.names fd session h), by simp⟩
  | login session username h hrole hout hfree hplain =>
      refine ⟨hw.step rfl (by simp [Quotes]) ?_, plain_nil, by simp⟩
      exact forall_lookup_insert hplain hw.names
  | subscribe session instrument h hrole =>
      exact ⟨hw.put h rfl (hmarket session) rfl (by simp [Quotes]), plain_nil, by simp⟩
  | unsubscribe session instrument h hrole hin =>
      exact ⟨hw.put h rfl (hmarket session) rfl (by simp [Quotes]), plain_nil, by simp⟩
  | order session h hrole hin hcmd =>
      have hfills : ∀ f ∈ (s.addResult fd (parse line)).fills,
          Plain f.execution.instrument := by
        intro f hf
        rw [executions_instrument hf]
        exact (plain_parse line).instrument
      refine ⟨hw.step rfl ?_ hw.names, plain_nil, ?_⟩
      · intro o ho
        rw [List.mem_singleton.mp ho]
        exact hfills
      · intro e he
        obtain ⟨f, hf, rfl⟩ := List.mem_map.mp he
        exact hfills f hf
  | cancel session orderId h hin hok =>
      exact ⟨hw.step rfl (by simp [Quotes]) hw.names, plain_nil, by simp⟩

private theorem register_worded {s : ExchangeServer} (hw : Worded s) (fd : Int)
    (peer : Bytes) : Worded ((s.welcome fd peer).register fd) := by
  have hwelcome : Worded (s.welcome fd peer) := by
    refine hw.step rfl (by simp [Quotes]) ?_
    exact forall_lookup_insert plain_nil hw.names
  unfold register
  dsimp only
  split
  · exact ⟨hwelcome.names, hwelcome.said⟩
  · exact hwelcome.step (refuse_trace _ fd) (by simp [Quotes])
      fun fd' y hy => hwelcome.names fd' y (lookup_of_erase hy).2

/-- **The step lemma.** -/
theorem stage_worded {s s' : ExchangeServer} (hstage : Stage s s') (hb : Base s)
    (hw : Worded s) : Worded s' := by
  cases hstage with
  | receive fd session bytes h hopen => exact hw.put h rfl rfl rfl (by simp [Quotes])
  | line fd session line tail h hopen hline hquit he =>
      have hb₀ := (Serve.take s session line tail h hline).base hb
      have hw₀ : Worded (s.taken fd session (stripCarriageReturn line) tail) :=
        hw.put h rfl rfl rfl (by simp [Quotes])
      obtain ⟨hw₁, hreply, hes⟩ := effect_worded he hw₀
      have hsettle : Worded (settle _ fd _ _) := settle_invariant (I := Worded)
        (M := fun _ m => Plain m.quoted) (fun _ dest _ hm hb hw => sendTo_worded hw hb dest hm)
        (he.acts.base hb₀) hw₁ hreply
        fun e hmem => ⟨hes e hmem, hes e hmem, fun _ => hes e hmem⟩
      exact hsettle.step rfl (by simp [Quotes]) hsettle.names
  | quit fd session line tail h hopen hline hquit =>
      have hw₀ : Worded (s.taken fd session (stripCarriageReturn line) tail) :=
        hw.put h rfl rfl rfl (by simp [Quotes])
      have hclose := beginOrderlyClose_worded hw₀ fd .quit
      exact hclose.step rfl (by simp [Quotes]) hclose.names
  | oversized fd session h hopen =>
      exact beginOrderlyClose_worded (sendTo_worded hw hb fd (by decide)) fd .oversized
  | fin fd session h hopen => exact beginOrderlyClose_worded hw fd .fin
  | writable fd =>
      unfold onWritable
      split
      · exact hw
      · next session h =>
        have hown := hb.own fd session h
        obtain ⟨bytes, gone, htrace, hparting⟩ := flush_trace (s := s) hown
        refine hw.step htrace ?_ ?_
        · intro o ho
          rw [List.mem_cons] at ho
          rcases ho with rfl | ho
          · trivial
          · exact parting_quotes hparting o ho
        · intro fd' y hy
          rcases lookup_of_flush hown hy with ⟨_, hold⟩ | ⟨_, rfl, _⟩
          · exact hw.names fd' y hold
          · rw [username_of_client (flush_client _ _)]
            exact hw.names fd session h
  | abort fd reason h => exact drop_worded hw fd reason
  | accept fd peer hfd h hnonneg => exact register_worded hw fd peer
  | bounce fd hfd => exact hw.step (bounce_trace s fd) (by simp [Quotes]) hw.names
  | pause =>
      unfold pauseAccepting
      split
      · exact hw
      · exact ⟨hw.names, hw.said⟩
  | resume =>
      unfold resumeAcceptingIfDue
      split
      · exact hw
      · split
        · exact hw
        · exact ⟨hw.names, hw.said⟩
  | reap =>
      refine hw.step (reapClosed_trace s) (by simp [Quotes]) ?_
      rw [(reapClosed_tables s).1]
      exact hw.names

theorem run_worded (c : Setup) (turns : List Turn) : Worded (run c turns) := by
  refine run_stage_invariant (P := fun _ => True) c ⟨?_, ?_⟩
    (fun _ _ _ hw => ⟨hw.names, hw.said⟩)
    (fun _ _ hreach hstage hw => stage_worded hstage hreach.base hw) (fun _ _ => trivial)
  · intro fd session h
    simp [ExchangeServer.start] at h
  · intro o ho
    simp [ExchangeServer.start] at ho

/-! ## Both ends -/

/-- A string with one newline, at its end, and no carriage return before it. -/
def OneLine (message : Bytes) : Prop :=
  ∃ body, message = body ++ [newline] ∧ newline ∉ body ∧ carriageReturn ∉ body

theorem oneLine_render {message : Response} (h : Plain message.quoted) :
    OneLine message.render :=
  ⟨message.body, render_eq_body message, (plain_body h).no_newline, (plain_body h).no_return⟩

private theorem mem_of_mem_messagesTo {fd : Int} {trace : List Obs} {message : Response}
    (h : message ∈ messagesTo fd trace) : .queued fd message ∈ trace := by
  obtain ⟨o, ho, hmessage⟩ := List.mem_flatMap.mp h
  have htrace : o ∈ trace := (Log.since_isSuffix _ trace).mem ho
  unfold Obs.messageTo at hmessage
  split at hmessage
  · split at hmessage
    · next heq =>
      rw [List.mem_singleton.mp hmessage, ← heq]
      exact htrace
    · cases hmessage
  · cases hmessage

/-- The stream queued to a connection is the concatenation of its messages. -/
theorem queuedTo_eq_messagesTo (fd : Int) (trace : List Obs) :
    queuedTo fd trace = (messagesTo fd trace).flatMap Response.render := by
  rw [queuedTo, messagesTo, List.flatMap_assoc]
  refine List.flatMap_congr fun o _ => ?_
  cases o with
  | queued dest message =>
      simp only [Obs.queuedBytes, Obs.messageTo]
      split
      · simp
      · rfl
  | _ => rfl

/-- **The client recovers exactly what the server queued.**  In any run, whatever the
clients have sent:

* every string queued to anyone, and every notice of every execution, has one newline,
  at its end, and no carriage return;
* the stream queued to a connection, cut into `recv` results in any way, comes out of
  the client's calls as the messages that were queued, one by one and in order. -/
theorem client_recovers_messages (c : Setup) (turns : List Turn) :
    (∀ fd message, .queued fd message ∈ (run c turns).trace → OneLine message.render) ∧
    (∀ o quantity fills, .submitted o quantity fills ∈ (run c turns).trace →
      ∀ f ∈ fills, NoticesAre (fun _ message => OneLine message.render) f.execution) ∧
    ∀ (fd : Int) (results : List Received) (calls : Nat),
      stream results = queuedTo fd (run c turns).trace → EndsLast results →
      results.length ≤ calls →
      (receiveCalls calls results {} []).out =
        (messagesTo fd (run c turns).trace).map Response.body := by
  have hw := run_worded c turns
  refine ⟨?_, ?_, ?_⟩
  · intro fd message hmem
    exact oneLine_render (hw.said _ hmem)
  · intro o quantity fills hmem f hf
    have hplain : Plain f.execution.instrument := hw.said _ hmem f hf
    exact ⟨oneLine_render hplain, oneLine_render hplain, fun _ => oneLine_render hplain⟩
  · intro fd results calls hcut hend hcalls
    refine receiveCalls_messages ?_ (hcut.trans (queuedTo_eq_messagesTo fd _)) hend hcalls
    intro message hmem
    exact plain_body (hw.said _ (mem_of_mem_messagesTo hmem))

/-- Client 5 logs in, and tries to again under a name with a carriage return in it. -/
private def loginTwice : List Turn :=
  [{ input := .event { fd := 3, readable := true }
     answers := { accepts := [.connection 5 [] true] } },
   { input := .event { fd := 5, readable := true }
     answers := { recvs :=
       [.data ⟨ascii "LOGIN a\nLOGIN \rb\n", by decide, by decide⟩] } }]

/-- Its answers, cut in the middle of the second one. -/
private def twoSegments : List Received :=
  [.data ⟨ascii "OK\nERROR Alre", by decide, by decide⟩, .eintr, .eagain,
   .data ⟨ascii "ady logged in as a\n", by decide, by decide⟩, .fin]

theorem client_recovers_messages_cut_in_two :
    stream twoSegments = queuedTo 5 (run {} loginTwice).trace ∧
      (receiveCalls 5 twoSegments {} []).out =
        [ascii "OK", ascii "ERROR Already logged in as a"] := by
  have hcut : stream twoSegments = queuedTo 5 (run {} loginTwice).trace := by decide +kernel
  have hend : EndsLast twoSegments := by
    unfold EndsLast
    decide
  have hmessages : (messagesTo 5 (run {} loginTwice).trace).map Response.body =
      [ascii "OK", ascii "ERROR Already logged in as a"] := by
    decide +kernel
  refine ⟨hcut, ?_⟩
  rw [(client_recovers_messages {} loginTwice).2.2 5 twoSegments 5 hcut hend (by decide),
    hmessages]

end SocketExchange.Client
