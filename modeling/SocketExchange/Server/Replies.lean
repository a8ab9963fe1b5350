import SocketExchange.Server.Stretches

/-!
# Replies and commands

A client that sends several commands at once has only the order of the answers to
tell which is which.  Other clients' orders put notices in between at any point, and
a line may be refused by the parser, by the role and login checks or by a handler.

`talkOf` leaves of a connection's history the lines taken up and the answers queued.
It is a sequence of exchanges, one line and one answer each (`replies_pair_up`).  The
only answer without a line is the last word of the path for oversized messages.
-/

namespace SocketExchange.Server

open SocketExchange.Lib
open SocketExchange.Lib.Bytes
open SocketExchange.Network
open SocketExchange.Protocol
open SocketExchange.Trading.OrderBook
open ExchangeServer

/-! ## Talk -/

/-- A line that is taken up, other than a valid `QUIT`, or an answer that is queued. -/
inductive Talk where
  | asked (line : Bytes)
  | answered (reply : Response)
  deriving Repr, DecidableEq

def Obs.talk (fd : Int) : Obs → List Talk
  | .handling dest line => if dest = fd ∧ ¬ Quits line then [.asked line] else []
  | .queued dest message =>
      if dest = fd ∧ message.direct = true then [.answered message] else []
  | _ => []

/-- What was said on the present connection of `fd`. -/
def talkOf (fd : Int) (trace : List Obs) : List Talk :=
  (sinceAccept fd trace).flatMap (Obs.talk fd)

/-- Lines, each with its answer right after it. -/
def exchanges (pairs : List (Bytes × Response)) : List Talk :=
  pairs.flatMap fun p => [.asked p.1, .answered p.2]

theorem exchanges_concat (pairs : List (Bytes × Response)) (line : Bytes) (reply : Response) :
    exchanges (pairs ++ [(line, reply)]) =
      exchanges pairs ++ [.asked line, .answered reply] := by
  simp [exchanges]

theorem talkOf_append {fd : Int} {trace new : List Obs} (h : ∀ o ∈ new, o ≠ .accepted fd) :
    talkOf fd (trace ++ new) = talkOf fd trace ++ new.flatMap (Obs.talk fd) := by
  rw [talkOf, sinceAccept_append h, List.flatMap_append]
  rfl

theorem talk_of_calm {o : Obs} (h : o.calm = true) (fd : Int) : o.talk fd = [] := by
  cases o <;> first | rfl | cases h

theorem talk_of_notice {o : Obs} (h : o.notice = true) (fd : Int) : o.talk fd = [] := by
  cases o with
  | queued dest message =>
      have hnot : message.direct = false := by simpa [Obs.notice] using h
      simp [Obs.talk, hnot]
  | _ => cases h

/-- A piece of the trace in which the connection neither speaks nor starts anew. -/
def Obs.Silent (fd : Int) (o : Obs) : Prop := o ≠ .accepted fd ∧ o.talk fd = []

theorem silent_of_calm {o : Obs} (h : o.calm = true) (fd : Int) : o.Silent fd :=
  ⟨ne_accepted_of_calm h fd, talk_of_calm h fd⟩

theorem silent_of_notice {o : Obs} (h : o.notice = true) (fd : Int) : o.Silent fd := by
  refine ⟨?_, talk_of_notice h fd⟩
  rintro rfl
  cases h

theorem silent_of_note {o : Obs} {fd : Int} (h : o.note fd = true) (fd' : Int) :
    o.Silent fd' := by
  cases o <;> first | cases h | exact ⟨by simp, rfl⟩

theorem Prelude.silent {fd : Int} {pre : List Obs} {reply : Response}
    {es : List TradeExecution} (h : Prelude fd pre reply es) (fd' : Int) :
    ∀ o ∈ pre, o.Silent fd' := by
  intro o ho
  cases h with
  | answer h => cases ho
  | note hnote h => exact List.mem_singleton.mp ho ▸ silent_of_note hnote fd'
  | submit o' quantity fills howner hpos =>
      rw [List.mem_singleton.mp ho]
      exact ⟨by simp, rfl⟩

theorem Notices.silent {s : ExchangeServer} {es : List TradeExecution} {new : List Obs}
    (h : Notices s es new) (fd : Int) : ∀ o ∈ new, o.Silent fd := by
  intro o ho
  rcases h.only o ho with hcalm | hnotice
  · exact silent_of_calm hcalm fd
  · exact silent_of_notice hnotice fd

private theorem talk_silent {fd : Int} {new : List Obs} (h : ∀ o ∈ new, o.Silent fd) :
    new.flatMap (Obs.talk fd) = [] :=
  List.flatMap_eq_nil_iff.mpr fun o ho => (h o ho).2

/-! ## The invariant -/

/-- The connection has been told to leave, or is gone. -/
def Over (fd : Int) (trace : List Obs) : Prop :=
  ∃ reason, .leaving fd reason ∈ sinceAccept fd trace ∨
    .dropped fd reason ∈ sinceAccept fd trace

/-- Exchanges, and at most the last word of the path for oversized messages. -/
def Paired (fd : Int) (trace : List Obs) : Prop :=
  ∃ pairs last, talkOf fd trace = exchanges pairs ++ last ∧
    (last = [] ∨ (last = [.answered oversizedMessage] ∧ Over fd trace))

private theorem Over.append {fd : Int} {trace new : List Obs} (h : Over fd trace)
    (hnew : ∀ o ∈ new, o ≠ .accepted fd) : Over fd (trace ++ new) := by
  obtain ⟨reason, hover⟩ := h
  refine ⟨reason, ?_⟩
  rw [sinceAccept_append hnew, List.mem_append, List.mem_append]
  exact hover.imp Or.inl Or.inl

private theorem Paired.silent {fd : Int} {trace new : List Obs} (h : Paired fd trace)
    (hnew : ∀ o ∈ new, o.Silent fd) : Paired fd (trace ++ new) := by
  have hne : ∀ o ∈ new, o ≠ .accepted fd := fun o ho => (hnew o ho).1
  obtain ⟨pairs, last, htalk, hlast⟩ := h
  refine ⟨pairs, last, ?_, ?_⟩
  · rw [talkOf_append hne, talk_silent hnew, List.append_nil, htalk]
  · exact hlast.imp_right fun hlast => ⟨hlast.1, hlast.2.append hne⟩

/-- While the session is open, every line so far has its answer. -/
private theorem Paired.even {c : Setup} {s : ExchangeServer} (hreach : Reachable c s) {fd : Int}
    {session : ClientSession} (h : s.sessions.lookup fd = some session)
    (hopen : session.closing = false) (hp : Paired fd s.trace) :
    ∃ pairs, talkOf fd s.trace = exchanges pairs := by
  obtain ⟨pairs, last, htalk, hlast⟩ := hp
  rcases hlast with rfl | ⟨_, reason, hleave | hdrop⟩
  · exact ⟨pairs, by rw [htalk, List.append_nil]⟩
  · have hclosing := (hreach.epoch h).leaving.mpr ⟨reason, hleave⟩
    rw [hopen] at hclosing
    cases hclosing
  · exact absurd hdrop ((hreach.epoch h).alive reason)

private theorem Paired.line {c : Setup} {s : ExchangeServer} (hreach : Reachable c s) {fd : Int}
    {session : ClientSession} {line : Bytes} {pre notices : List Obs} {reply : Response}
    {es : List TradeExecution} (h : s.sessions.lookup fd = some session)
    (hopen : session.closing = false) (hquit : ¬ Quits line) (hpre : Prelude fd pre reply es)
    (hnotices : Notices s es notices) (hp : Paired fd s.trace) :
    Paired fd (s.trace ++ (.handling fd line :: pre ++ .queued fd reply :: notices)) := by
  obtain ⟨pairs, htalk⟩ := hp.even hreach h hopen
  have hne : ∀ o ∈ .handling fd line :: pre ++ .queued fd reply :: notices,
      o ≠ .accepted fd := by
    intro o ho
    rw [List.cons_append, List.mem_cons, List.mem_append, List.mem_cons] at ho
    rcases ho with rfl | ho | rfl | ho
    · simp
    · exact (hpre.silent fd o ho).1
    · simp
    · exact (hnotices.silent fd o ho).1
  have hasked : Obs.talk fd (.handling fd line) = [.asked line] := by simp [Obs.talk, hquit]
  have hanswered : Obs.talk fd (.queued fd reply) = [.answered reply] := by
    simp [Obs.talk, hpre.direct]
  refine ⟨pairs ++ [(line, reply)], [], ?_, Or.inl rfl⟩
  rw [talkOf_append hne, htalk, exchanges_concat, List.append_nil, List.flatMap_append,
    List.flatMap_cons, List.flatMap_cons, hasked, hanswered, talk_silent (hpre.silent fd),
    talk_silent (hnotices.silent fd)]
  rfl

private theorem Paired.oversized {c : Setup} {s : ExchangeServer} (hreach : Reachable c s)
    {fd : Int} {session : ClientSession} {new : List Obs}
    (h : s.sessions.lookup fd = some session) (hopen : session.closing = false)
    (hnew : ∀ o ∈ new, o.calm = true)
    (hleft : ∃ reason, .leaving fd reason ∈ new ∨ .dropped fd reason ∈ new)
    (hp : Paired fd s.trace) :
    Paired fd (s.trace ++ .queued fd oversizedMessage :: new) := by
  obtain ⟨pairs, htalk⟩ := hp.even hreach h hopen
  have hne : ∀ o ∈ .queued fd oversizedMessage :: new, o ≠ .accepted fd := by
    intro o ho
    rcases List.mem_cons.mp ho with rfl | ho
    · simp
    · exact ne_accepted_of_calm (hnew o ho) fd
  have hanswered : Obs.talk fd (.queued fd oversizedMessage) =
      [.answered oversizedMessage] := by
    simp [Obs.talk, oversizedMessage, Response.direct]
  refine ⟨pairs, [.answered oversizedMessage], ?_, Or.inr ⟨rfl, ?_⟩⟩
  · rw [talkOf_append hne, htalk, List.flatMap_cons, hanswered,
      talk_silent fun o ho => silent_of_calm (hnew o ho) fd]
    rfl
  · obtain ⟨reason, hleft⟩ := hleft
    refine ⟨reason, ?_⟩
    rw [sinceAccept_append hne]
    exact hleft.imp (fun h => by simp [h]) (fun h => by simp [h])

/-- What other connections do is not part of the talk. -/
private theorem silent_of_other {fd fd' : Int} (hne : fd' ≠ fd) (line : Bytes)
    (message : Response) :
    Obs.Silent fd (.handling fd' line) ∧ Obs.Silent fd (.queued fd' message) ∧
      Obs.Silent fd (.accepted fd') := by
  simp [Obs.Silent, Obs.talk, hne]

theorem Stretch.paired {c : Setup} {s : ExchangeServer} {new : List Obs}
    (hreach : Reachable c s) (hnew : Stretch s new) {fd : Int} (hp : Paired fd s.trace) :
    Paired fd (s.trace ++ new) := by
  cases hnew with
  | calm h => exact hp.silent fun o ho => silent_of_calm (h o ho) fd
  | @accept fd' new hnone h =>
      by_cases hfd : fd' = fd
      · subst hfd
        refine ⟨[], [], ?_, Or.inl rfl⟩
        rw [talkOf, sinceAccept_accept fun o ho => ne_accepted_of_calm (h o ho) fd']
        exact talk_silent fun o ho => silent_of_calm (h o ho) fd'
      · refine hp.silent fun o ho => ?_
        rcases List.mem_cons.mp ho with rfl | ho
        · exact (silent_of_other hfd [] .ok).2.2
        · exact silent_of_calm (h o ho) fd
  | @line fd' session line pre notices reply es h hopen hquit hpre hnotices =>
      by_cases hfd : fd' = fd
      · subst hfd
        exact hp.line hreach h hopen hquit hpre hnotices
      · refine hp.silent fun o ho => ?_
        rw [List.cons_append, List.mem_cons, List.mem_append, List.mem_cons] at ho
        rcases ho with rfl | ho | rfl | ho
        · exact (silent_of_other hfd line reply).1
        · exact hpre.silent fd o ho
        · exact (silent_of_other hfd line reply).2.1
        · exact hnotices.silent fd o ho
  | @quit fd' session line new h hopen hquit hnew =>
      refine hp.silent fun o ho => ?_
      rcases List.mem_cons.mp ho with rfl | ho
      · exact ⟨by simp, by simp [Obs.talk, hquit]⟩
      · exact silent_of_calm (hnew o ho) fd
  | @oversized fd' session new h hopen hnew hleft =>
      by_cases hfd : fd' = fd
      · subst hfd
        exact hp.oversized hreach h hopen hnew hleft
      · refine hp.silent fun o ho => ?_
        rcases List.mem_cons.mp ho with rfl | ho
        · exact (silent_of_other hfd [] oversizedMessage).2.1
        · exact silent_of_calm (hnew o ho) fd

/-! ## The reply comes before the notices -/

/-- The first message that is queued after a line is taken up, to anybody, is the answer
to the line. -/
def AnsweredFirst (trace : List Obs) : Prop :=
  ∀ before fd line after, trace = before ++ .handling fd line :: after → ¬ Quits line →
    ∃ between reply rest, after = between ++ .queued fd reply :: rest ∧
      reply.direct = true ∧ ∀ o ∈ between, ∀ dest message, o ≠ .queued dest message

private theorem Prelude.unqueued {fd : Int} {pre : List Obs} {reply : Response}
    {es : List TradeExecution} (h : Prelude fd pre reply es) :
    ∀ o ∈ pre, ∀ dest message, o ≠ .queued dest message := by
  rintro o ho dest message rfl
  cases h with
  | answer h => cases ho
  | note hnote h =>
      rw [← List.mem_singleton.mp ho] at hnote
      cases hnote
  | submit o' quantity fills howner hpos => cases List.mem_singleton.mp ho

/-- Where a line is taken up within a stretch. -/
private theorem Stretch.handling {s : ExchangeServer} {new before after : List Obs} {fd : Int}
    {line : Bytes} (hnew : Stretch s new) (hsplit : new = before ++ .handling fd line :: after)
    (hquit : ¬ Quits line) :
    ∃ between reply rest, after = between ++ .queued fd reply :: rest ∧
      reply.direct = true ∧ ∀ o ∈ between, ∀ dest message, o ≠ .queued dest message := by
  have hmem : .handling fd line ∈ new := by simp [hsplit]
  cases hnew with
  | calm h => cases h _ hmem
  | accept fd' hnone h =>
      rcases List.mem_cons.mp hmem with heq | hmem
      · cases heq
      · cases h _ hmem
  | @line fd' session line' pre notices reply es h hopen hquit' hpre hnotices =>
      cases before with
      | nil =>
          rw [List.nil_append, List.cons_append, List.cons.injEq] at hsplit
          obtain ⟨hhead, hafter⟩ := hsplit
          cases hhead
          exact ⟨pre, reply, notices, hafter.symm, hpre.direct, hpre.unqueued⟩
      | cons o before =>
          -- a stretch takes up one line
          exfalso
          rw [List.cons_append, List.cons_append, List.cons.injEq] at hsplit
          have hlater : .handling fd line ∈ pre ++ .queued fd' reply :: notices := by
            simp [hsplit.2]
          have hsilent : ∀ x ∈ pre ++ .queued fd' reply :: notices,
              x.talk fd ≠ [.asked line] := by
            intro x hx
            rw [List.mem_append, List.mem_cons] at hx
            rcases hx with hx | rfl | hx
            · simp [(hpre.silent fd x hx).2]
            · simp only [Obs.talk]
              split <;> simp
            · simp [(hnotices.silent fd x hx).2]
          exact hsilent _ hlater (by simp [Obs.talk, hquit])
  | quit fd' session line' h hopen hquit' hcalm =>
      rcases List.mem_cons.mp hmem with heq | hmem
      · cases heq
        exact absurd hquit' hquit
      · cases hcalm _ hmem
  | oversized fd' session h hopen hcalm hleft =>
      rcases List.mem_cons.mp hmem with heq | hmem
      · cases heq
      · cases hcalm _ hmem

theorem Stretch.answeredFirst {s : ExchangeServer} {new : List Obs} (hnew : Stretch s new)
    (h : AnsweredFirst s.trace) : AnsweredFirst (s.trace ++ new) := by
  intro before fd line after hsplit hquit
  rcases Log.split_of_append hsplit with ⟨after', hold, rfl⟩ | ⟨before', _, hsplit'⟩
  · obtain ⟨between, reply, rest, rfl, hdirect, hbetween⟩ := h before fd line after' hold hquit
    exact ⟨between, reply, rest ++ new, by simp, hdirect, hbetween⟩
  · exact hnew.handling hsplit' hquit

/-! ## The theorem -/

/-- **Replies pair up with commands.**  On every connection, in every run, each line that
is handled and is not a valid `QUIT` gets one answer, before the next line is taken up;
an answer without a line is the last one, of the path for oversized messages, and the
connection is then over.  The answer is the first message queued on account of its line. -/
theorem replies_pair_up (c : Setup) (turns : List Turn) (fd : Int) :
    Paired fd (run c turns).trace ∧ AnsweredFirst (run c turns).trace := by
  refine ⟨?_, ?_⟩
  · refine run_trace_invariant (T := Paired fd) c ⟨[], [], rfl, Or.inl rfl⟩ ?_ turns
    intro s s' new hreach _ _ hnew hp
    exact hnew.paired hreach hp
  · refine run_trace_invariant (T := AnsweredFirst) c ?_ ?_ turns
    · intro before fd line after hsplit
      simp at hsplit
    · intro s s' new _ _ _ hnew h
      exact hnew.answeredFirst h

end SocketExchange.Server
