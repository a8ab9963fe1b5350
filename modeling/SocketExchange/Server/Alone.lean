import SocketExchange.Server.Holdings

/-!
# A client that does not trade

A market-data client cannot influence anybody else.  Nor can anybody influence it.  What it
is to the exchange and what it is answered follow from its own lines, as if nobody else
were there; from the others it only hears of their trades.

The same goes for a client that never takes a side.  What makes the difference is LOGIN:
whether a name is free depends on the others.
-/

namespace SocketExchange.Server

open SocketExchange.Lib
open SocketExchange.Lib.Bytes
open SocketExchange.Network
open SocketExchange.Protocol
open SocketExchange.Trading.OrderBook
open ExchangeServer

/-- The line is a valid LOGIN. -/
def LogsIn (line : Bytes) : Prop := (parse line).valid = true ∧ (parse line).type = .login

instance (line : Bytes) : Decidable (LogsIn line) := inferInstanceAs (Decidable (_ ∧ _))

/-- What happens at an exchange to which only `fd` comes. -/
def alone (fd : Int) (lines : List Bytes) : List Happening := .joins fd :: lines.map (.speaks fd)

theorem alone_concat (fd : Int) (lines : List Bytes) (line : Bytes) :
    alone fd (lines ++ [line]) = alone fd lines ++ [.speaks fd line] := by
  rw [alone, List.map_append]
  rfl

/-! ## A line -/

/-- The member does not trade. -/
def Member.watches : Member → Bool
  | .trader _ => false
  | _ => true

/-- Two verdicts on a line of `fd` that does not trade. -/
structure SameVerdict (fd : Int) (v w : Verdict) : Prop where
  reply : v.reply = w.reply
  executions : w.executions = []
  member : v.exchange.members.lookup fd = w.exchange.members.lookup fd
  watches : ∀ member, w.exchange.members.lookup fd = some member → member.watches = true

section Line

variable {x y : Exchange} {fd : Int} {member : Member} (hx : x.members.lookup fd = some member)
  (hy : y.members.lookup fd = some member) (hwatches : member.watches = true)

theorem sameVerdict_enrol (instruments : List Bytes) :
    SameVerdict fd { exchange := x.enrol fd (.watcher instruments), reply := some .ok }
      { exchange := y.enrol fd (.watcher instruments), reply := some .ok } := by
  refine ⟨rfl, rfl, ?_, fun other hother => ?_⟩
  · rw [lookup_enrol, lookup_enrol, if_pos rfl, if_pos rfl]
  · rw [lookup_enrol, if_pos rfl] at hother
    rw [← Option.some.inj hother]
    rfl

include hx hy hwatches

/-- The line changes nothing. -/
theorem sameVerdict_stay (reply : Option Response) :
    SameVerdict fd { exchange := x, reply := reply } { exchange := y, reply := reply } := by
  refine ⟨rfl, rfl, hx.trans hy.symm, fun other hother => ?_⟩
  have hother : y.members.lookup fd = some other := hother
  rw [hy] at hother
  rw [← Option.some.inj hother]
  exact hwatches

theorem sameVerdict_trade (cmd : ParsedCommand) (v w : Verdict) :
    SameVerdict fd (x.trade member cmd v) (y.trade member cmd w) := by
  cases member with
  | trader => cases hwatches
  | guest | watcher => exact sameVerdict_stay hx hy hwatches _

theorem sameVerdict_subscribe (cmd : ParsedCommand) :
    SameVerdict fd (x.watch member cmd (x.subscribe fd)) (y.watch member cmd (y.subscribe fd)) := by
  cases member with
  | trader => cases hwatches
  | guest | watcher => exact sameVerdict_enrol _

theorem sameVerdict_unsubscribe (cmd : ParsedCommand) :
    SameVerdict fd (x.watch member cmd (x.unsubscribe fd))
      (y.watch member cmd (y.unsubscribe fd)) := by
  have hleave : ∀ instruments : List Bytes,
      SameVerdict fd (x.unsubscribe fd instruments cmd) (y.unsubscribe fd instruments cmd) := by
    intro instruments
    unfold Exchange.unsubscribe
    split
    · exact sameVerdict_stay hx hy hwatches _
    · exact sameVerdict_enrol _
  cases member with
  | trader => cases hwatches
  | guest | watcher => exact hleave _

/-- **The others make no difference.** -/
theorem verdict_alone {line : Bytes} (hlogin : ¬ LogsIn line) :
    SameVerdict fd (x.verdict fd line) (y.verdict fd line) := by
  rw [Exchange.verdict, Exchange.verdict, hx, hy]
  show SameVerdict fd (x.hear fd member line) (y.hear fd member line)
  unfold Exchange.hear
  dsimp only
  by_cases hvalid : (parse line).valid = true
  · rw [if_neg (by simp [hvalid]), if_neg (by simp [hvalid])]
    cases htype : (parse line).type with
    | login => exact absurd ⟨hvalid, htype⟩ hlogin
    | quit => exact sameVerdict_stay hx hy hwatches _
    | subscribe => exact sameVerdict_subscribe hx hy hwatches _
    | unsubscribe => exact sameVerdict_unsubscribe hx hy hwatches _
    | buy | sell | cancel => exact sameVerdict_trade hx hy hwatches _ _ _
    | unknown => exact sameVerdict_stay hx hy hwatches _
  · rw [if_pos (by simp [hvalid]), if_pos (by simp [hvalid])]
    exact sameVerdict_stay hx hy hwatches _

end Line

/-! ## A conversation -/

/-- The answers to the lines of `dest`, since it came. -/
def repliesTo (dest : Int) (trace : List Obs) : List Response :=
  (ofLines (messagesTo dest trace)).filter Response.direct

/-- What somebody is answered in a piece of the trace is addressed to it. -/
theorem filter_saidTo (dest : Int) (body : List Obs) :
    (saidTo dest body).filter Response.direct =
      (body.flatMap Obs.reply).filterMap fun r => if r.1 = dest then some r.2 else none := by
  induction body with
  | nil => rfl
  | cons o body ih =>
      rw [saidTo, List.flatMap_cons, List.filter_append, List.flatMap_cons, List.filterMap_append]
      refine congrArg₂ (· ++ ·) ?_ ih
      cases o with
      | queued fd message =>
          rw [Obs.messageTo, Obs.reply]
          by_cases hfd : fd = dest <;> cases hdirect : message.direct <;> simp [hfd, hdirect]
      | _ => rfl

/-- The reply to a line is an answer to it. -/
theorem Outcome.answers {x : Exchange} {fd : Int} {line : Bytes} {v : Verdict}
    (h : Outcome x fd line v) : ∀ reply ∈ v.reply.toList, reply ≠ oversizedMessage := by
  intro reply hreply
  cases h with
  | silent => cases hreply
  | refused _ reason hreason =>
      rw [List.mem_singleton.mp hreply]
      exact hreason.ne_oversized
  | enrolled | ordered | cancelled =>
      rw [List.mem_singleton.mp hreply]
      simp [oversizedMessage]

theorem repliesTo_stretch {dest fd : Int} {line : Bytes} {body : List Obs} {outcome : LineOutcome}
    (hbody : ∀ o ∈ body, o.within = true) {trace : List Obs}
    (hspoken : Spoken (replay trace) fd line body) :
    repliesTo dest (trace ++ stretch fd line body outcome) =
      repliesTo dest trace ++
        if fd = dest then ((replay trace).verdict fd line).reply.toList else [] := by
  have hdirect : (saidTo dest body).filter Response.direct =
      if fd = dest then ((replay trace).verdict fd line).reply.toList else [] := by
    rw [filter_saidTo, hspoken.replied]
    split
    · next hfd => simp [hfd]
    · next hfd => simp [hfd]
  have hcomm : ∀ messages : List Response,
      (ofLines messages).filter Response.direct = ofLines (messages.filter Response.direct) :=
    fun _ => List.filter_comm _ _ _
  rw [repliesTo, messagesTo_stretch hbody, ofLines_append, List.filter_append, hcomm (saidTo _ _),
    hdirect]
  congr 1
  split
  · refine List.filter_eq_self.mpr fun reply hreply => ?_
    exact decide_eq_true ((verdict_outcome _ fd line).answers reply hreply)
  · rfl

/-- A line of somebody else leaves one what one was. -/
theorem lookup_speaks_other (x : Exchange) {fd dest : Int} (h : dest ≠ fd) (line : Bytes) :
    (x.next (.speaks fd line)).members.lookup dest = x.members.lookup dest := by
  show (x.verdict fd line).exchange.members.lookup dest = _
  have houtcome := verdict_outcome x fd line
  generalize x.verdict fd line = v at houtcome
  cases houtcome with
  | enrolled _ _ member => rw [lookup_enrol, if_neg h]
  | silent | refused | ordered | cancelled => rfl

/-- **A client's own view**: its lines, the answers to them, and what it is.  Whatever holds
of a newcomer, and still holds when a line of the client is judged at some exchange or the
client is lost, holds over every conversation. -/
theorem Conversation.ownView {dest : Int}
    {P : List Bytes → List Response → Option Member → Prop} (hjoins : P [] [] (some .guest))
    (hlost : ∀ lines replies member, P lines replies member → P lines replies none)
    (hspeaks : ∀ (x : Exchange) lines replies member line, P lines replies (some member) →
      x.members.lookup dest = some member →
      P (lines ++ [line]) (replies ++ (x.verdict dest line).reply.toList)
        ((x.verdict dest line).exchange.members.lookup dest))
    {trace : List Obs} (h : Conversation trace) :
    P ((handledLines dest trace).map Prod.fst) (repliesTo dest trace)
      ((replay trace).members.lookup dest) := by
  -- a client that is not lost is what it was, or what its line has made of it
  have hstays : ∀ {lines replies} {x y : Exchange}, P lines replies (x.members.lookup dest) →
      (y.members.lookup dest ≠ none → y.members.lookup dest = x.members.lookup dest) →
      P lines replies (y.members.lookup dest) := by
    intro lines replies x y hold hsame
    by_cases hnone : y.members.lookup dest = none
    · rw [hnone]
      exact hlost _ _ _ hold
    · rw [hsame hnone]
      exact hold
  induction h with
  | start => exact hlost _ _ _ hjoins
  | @arrival trace fd h hnone ih =>
      have henrol : replay (trace ++ [.accepted fd]) = (replay trace).enrol fd .guest :=
        replay_concat trace (rfl : (Obs.accepted fd).happening = some (.joins fd))
      rw [handledLines_arrival, henrol, lookup_enrol]
      by_cases hnew : fd = dest
      · rw [if_pos hnew, if_pos hnew.symm, repliesTo, hnew, (newcomer_unheard dest trace).1]
        exact hjoins
      · rw [if_neg hnew, if_neg (Ne.symm hnew), repliesTo, (arrival_unheard hnew trace).1]
        exact ih
  | @aside trace o h ho ih =>
      rw [handledLines_aside ho, repliesTo, (aside_unheard ho dest trace).1]
      exact hstays ih fun hthere => (holds_aside ho hthere).1
  | @line trace body fd line outcome h hspeaker hbody hspoken houtcome ih =>
      rw [← stretch, handledLines_stretch hbody, repliesTo_stretch hbody hspoken]
      have hafter : (replay (trace ++ stretch fd line body outcome)).members.lookup dest ≠ none →
          (replay (trace ++ stretch fd line body outcome)).members.lookup dest =
            ((replay trace).next (.speaks fd line)).members.lookup dest :=
        fun hthere => (stays_of_stretch hbody hthere).2.1
      by_cases hfd : fd = dest
      · subst hfd
        rw [if_pos rfl, if_pos rfl]
        obtain ⟨member, hmember⟩ := Option.ne_none_iff_exists'.mp hspeaker
        rw [hmember] at ih
        exact hstays (hspeaks _ _ _ _ line ih hmember) hafter
      · rw [if_neg hfd, if_neg hfd, List.append_nil, List.append_nil]
        refine hstays ih fun hthere => ?_
        rw [hafter hthere]
        exact lookup_speaks_other _ (Ne.symm hfd) line

/-- The client has been answered what it would have been answered if it were alone, and as
long as it is there it is to the exchange what it would be. -/
structure AsIfAlone (dest : Int) (lines : List Bytes) (replies : List Response)
    (there : Option Member) : Prop where
  replies : replies = heardAt dest (alone dest lines)
  member : ∀ member, there = some member →
    (exchange.after (alone dest lines)).members.lookup dest = some member ∧ member.watches = true

theorem heardAt_alone_concat (dest : Int) (lines : List Bytes) (line : Bytes) :
    heardAt dest (alone dest (lines ++ [line])) = heardAt dest (alone dest lines) ++
      exchange.answer (exchange.after (alone dest lines)) (.speaks dest line) dest := by
  rw [alone_concat, heardAt_concat, if_neg (by simp)]

theorem after_alone_concat (dest : Int) (lines : List Bytes) (line : Bytes) :
    exchange.after (alone dest (lines ++ [line])) =
      ((exchange.after (alone dest lines)).verdict dest line).exchange := by
  rw [alone_concat]
  exact Loop.run_concat _ _ _ _

theorem asIfAlone_newcomer (dest : Int) : AsIfAlone dest [] [] (some .guest) where
  replies := by
    show [] = heardAt dest ([] ++ [.joins dest])
    rw [heardAt_concat, if_pos rfl]
  member := by
    have halone : exchange.after (alone dest []) = Exchange.enrol {} dest .guest := rfl
    rw [halone, lookup_enrol, if_pos rfl]
    intro member hmember
    exact ⟨hmember, by rw [← Option.some.inj hmember]; rfl⟩

/-- The client has said a line, at an exchange that may be any other. -/
theorem AsIfAlone.speaks {dest : Int} {lines : List Bytes} {replies : List Response}
    {member : Member} (h : AsIfAlone dest lines replies (some member)) {line : Bytes}
    (hlogin : ¬ LogsIn line) {x : Exchange} (hmember : x.members.lookup dest = some member) :
    AsIfAlone dest (lines ++ [line]) (replies ++ (x.verdict dest line).reply.toList)
      ((x.verdict dest line).exchange.members.lookup dest) := by
  obtain ⟨halone, hwatches⟩ := h.member member rfl
  have hverdict := verdict_alone hmember halone hwatches hlogin
  constructor
  · have hsaid : exchange.answer (exchange.after (alone dest lines)) (.speaks dest line) dest =
        (x.verdict dest line).reply.toList := by
      show (if dest = dest then _ else []) ++ List.flatMap _ _ = _
      rw [if_pos rfl, hverdict.executions, hverdict.reply]
      exact List.append_nil _
    rw [heardAt_alone_concat, hsaid, h.replies]
  · intro member' hmember'
    rw [hverdict.member] at hmember'
    rw [after_alone_concat]
    exact ⟨hmember', hverdict.watches member' hmember'⟩

/-- **Nobody else makes a difference**, over a whole conversation. -/
theorem Conversation.asIfAlone {trace : List Obs} (h : Conversation trace) (dest : Int)
    (hlines : ∀ line ∈ (handledLines dest trace).map Prod.fst, ¬ LogsIn line) :
    AsIfAlone dest ((handledLines dest trace).map Prod.fst) (repliesTo dest trace)
      ((replay trace).members.lookup dest) := by
  refine Conversation.ownView (P := fun lines replies there =>
    (∀ line ∈ lines, ¬ LogsIn line) → AsIfAlone dest lines replies there) ?_ ?_ ?_ h hlines
  · exact fun _ => asIfAlone_newcomer dest
  · intro lines replies member hold hlines
    exact ⟨(hold hlines).replies, fun _ hnone => by cases hnone⟩
  · intro x lines replies member line hold hmember hlines
    have hbefore := hold fun l hl => hlines l (List.mem_append_left _ hl)
    exact hbefore.speaks (hlines line (by simp)) hmember

/-! ## Whole runs -/

/-- **A client that does not log in might as well be alone.**  In every run, for every
connection none of whose lines so far was a valid LOGIN: the answers to its lines, in their
order, are those its own lines get at an exchange to which nobody else comes; and as long as
it is connected it is no trader, and its role and its subscriptions are those it has
there. -/
theorem nontrader_as_if_alone (c : Setup) (turns : List Turn) (dest : Int)
    (hlines : ∀ line ∈ (handledLines dest (run c turns).trace).map Prod.fst, ¬ LogsIn line) :
    let s := run c turns
    let lines := (handledLines dest s.trace).map Prod.fst
    repliesTo dest s.trace = heardAt dest (alone dest lines) ∧
    ∀ session, s.sessions.lookup dest = some session → session.role ≠ .trader ∧
      (exchange.after (alone dest lines)).members.lookup dest = some (memberOf session) := by
  intro s lines
  have halone := (run_conversation c turns).asIfAlone dest hlines
  refine ⟨halone.replies, fun session hsession => ?_⟩
  have hmember : (replay s.trace).members.lookup dest = some (memberOf session) := by
    rw [(run_replayed c turns).members dest, hsession]
    rfl
  obtain ⟨hthere, hwatches⟩ := halone.member _ hmember
  refine ⟨fun htrader => ?_, hthere⟩
  rw [memberOf, htrader] at hwatches
  cases hwatches

/-- A watcher tries to trade, and to leave what it does not watch, while two orders of a
trader meet. -/
private def watcherTries : List Turn :=
  [{ input := .event { fd := 3, readable := true }
     answers := { accepts := [.connection 5 [] true, .connection 6 [] true] } },
   { input := .event { fd := 6, readable := true }
     answers := { recvs := [.data ⟨ascii "SUBSCRIBE JNST\nBUY JNST 2 3\n", by decide, by decide⟩] } },
   { input := .event { fd := 5, readable := true }
     answers := { recvs := [.data ⟨ascii "LOGIN w\nBUY JNST 2 3\nSELL JNST 1 3\n", by decide,
       by decide⟩] } },
   { input := .event { fd := 6, readable := true }
     answers := { recvs := [.data ⟨ascii "UNSUBSCRIBE IMCT\nSUBSCRIBE IMCT\n", by decide,
       by decide⟩] } }]

theorem nontrader_as_if_alone_watcher :
    (messagesTo 6 (run {} watcherTries).trace).filter (fun r => !r.direct) =
      [.trade (ascii "JNST") 1 3] ∧
    repliesTo 6 (run {} watcherTries).trace =
      heardAt 6 (alone 6 [ascii "SUBSCRIBE JNST", ascii "BUY JNST 2 3", ascii "UNSUBSCRIBE IMCT",
        ascii "SUBSCRIBE IMCT"]) := by
  refine ⟨by decide +kernel, ?_⟩
  have hlines : (handledLines 6 (run {} watcherTries).trace).map Prod.fst =
      [ascii "SUBSCRIBE JNST", ascii "BUY JNST 2 3", ascii "UNSUBSCRIBE IMCT",
        ascii "SUBSCRIBE IMCT"] := by
    decide +kernel
  have h := (nontrader_as_if_alone {} watcherTries 6 (by
    rw [hlines]
    decide +kernel)).1
  rw [hlines] at h
  exact h

end SocketExchange.Server
