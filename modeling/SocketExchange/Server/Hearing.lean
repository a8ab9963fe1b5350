import SocketExchange.Server.Conversation
import SocketExchange.Server.Framing

/-!
# What a client hears in all

`Conversation` is about one line at a time.  This module adds up: what a client was told
since it came, over all the lines that anybody has said, against what it would have been
told at the exchange.

The server never tells more, and never in another order.  It tells less in one case only:
when a client is lost while its own line is answered, the publishing of that line's
executions is broken off, and parties and watchers who are still there miss the rest.
-/

namespace SocketExchange.Server

open SocketExchange.Lib
open SocketExchange.Lib.Bytes
open SocketExchange.Network
open SocketExchange.Protocol
open ExchangeServer

/-! ## At the exchange -/

/-- An exchange, and what `dest` has heard there since it joined. -/
def listen (dest : Int) (a : Exchange × List Response) (h : Happening) :
    Exchange × List Response :=
  (a.1.next h, if h = .joins dest then [] else a.2 ++ exchange.answer a.1 h dest)

/-- What `dest` hears at the exchange from its last arrival on. -/
def heardAt (dest : Int) (happenings : List Happening) : List Response :=
  (Loop.run (listen dest) (exchange.start, []) happenings).2

theorem heardAt_concat (dest : Int) (happenings : List Happening) (h : Happening) :
    heardAt dest (happenings ++ [h]) =
      if h = .joins dest then []
      else heardAt dest happenings ++ exchange.answer (exchange.after happenings) h dest := by
  have hstate : ∀ happenings : List Happening,
      (Loop.run (listen dest) (exchange.start, []) happenings).1 = exchange.after happenings := by
    intro happenings
    induction happenings using List.reverseRecOn with
    | nil => rfl
    | append_singleton happenings h ih =>
        rw [Loop.run_concat, listen, ih]
        exact (Loop.run_concat exchange.step exchange.start happenings h).symm
  rw [heardAt, Loop.run_concat, listen, hstate]
  rfl

def Happening.spoken (fd : Int) : Happening → List Bytes
  | .speaks speaker line => if speaker = fd then [line] else []
  | _ => []

/-- The lines `fd` says at the exchange from its last arrival on. -/
def spokenAt (fd : Int) (happenings : List Happening) : List Bytes :=
  (Log.since (fun h => decide (h = .joins fd)) happenings).flatMap (Happening.spoken fd)

theorem spokenAt_concat (fd : Int) (happenings : List Happening) (h : Happening) :
    spokenAt fd (happenings ++ [h]) =
      if h = .joins fd then [] else spokenAt fd happenings ++ h.spoken fd := by
  rw [spokenAt, Log.since_concat]
  by_cases hjoins : h = .joins fd
  · simp [hjoins]
  · simp [hjoins, spokenAt]

/-! ## At the server -/

/-- What the trace is to the exchange. -/
def happenings (trace : List Obs) : List Happening := trace.filterMap Obs.happening

theorem happenings_concat (trace : List Obs) (o : Obs) :
    happenings (trace ++ [o]) = happenings trace ++ o.happening.toList := by
  rw [happenings, List.filterMap_append]
  cases h : o.happening <;> simp [happenings, h]

theorem heardAt_silent (dest : Int) (trace : List Obs) {o : Obs} (h : o.happening = none) :
    heardAt dest (happenings (trace ++ [o])) = heardAt dest (happenings trace) := by
  rw [happenings_concat, h, Option.toList_none, List.append_nil]

theorem heardAt_happening (dest : Int) (trace : List Obs) {o : Obs} {h : Happening}
    (ho : o.happening = some h) (hjoins : h ≠ .joins dest) :
    heardAt dest (happenings (trace ++ [o])) =
      heardAt dest (happenings trace) ++ exchange.answer (replay trace) h dest := by
  rw [happenings_concat, ho, Option.toList_some, heardAt_concat, if_neg hjoins]
  rfl

/-- The messages that are answers to lines, or come of them. -/
def ofLines (messages : List Response) : List Response :=
  messages.filter fun message => message ≠ oversizedMessage

theorem ofLines_append (a b : List Response) : ofLines (a ++ b) = ofLines a ++ ofLines b :=
  List.filter_append ..

/-! ### Between two lines -/

theorem between_ne_accepted {o : Obs} (ho : o.between = true) (fd : Int) : o ≠ .accepted fd := by
  rintro rfl
  cases ho

/-- Between two lines nobody hears anything, here or there. -/
theorem aside_unheard {o : Obs} (ho : o.between = true) (dest : Int) (trace : List Obs) :
    ofLines (messagesTo dest (trace ++ [o])) = ofLines (messagesTo dest trace) ∧
      heardAt dest (happenings (trace ++ [o])) = heardAt dest (happenings trace) := by
  constructor
  · rw [messagesTo_append (by simpa using between_ne_accepted ho dest), ofLines_append,
      List.flatMap_singleton]
    cases o with
    | queued dest' message =>
        obtain rfl : message = oversizedMessage := of_decide_eq_true ho
        by_cases hdest : dest' = dest <;> simp [Obs.messageTo, hdest, ofLines]
    | _ => exact List.append_nil _
  · cases o with
    | refused fd | dropped fd reason =>
        rw [heardAt_happening dest trace rfl (by simp)]
        exact List.append_nil _
    | accepted | handling => cases ho
    | _ => exact heardAt_silent dest trace rfl

/-- Nobody hears that somebody else has come. -/
theorem arrival_unheard {dest fd : Int} (hne : fd ≠ dest) (trace : List Obs) :
    messagesTo dest (trace ++ [.accepted fd]) = messagesTo dest trace ∧
      heardAt dest (happenings (trace ++ [.accepted fd])) = heardAt dest (happenings trace) := by
  constructor
  · rw [messagesTo_append (by simpa using hne)]
    exact List.append_nil _
  · rw [heardAt_happening dest trace rfl (by simpa using hne)]
    exact List.append_nil _

/-- Whoever has just come has heard nothing. -/
theorem newcomer_unheard (dest : Int) (trace : List Obs) :
    messagesTo dest (trace ++ [.accepted dest]) = [] ∧
      heardAt dest (happenings (trace ++ [.accepted dest])) = [] := by
  constructor
  · simp [messagesTo, sinceAccept, Log.since_concat]
  · rw [happenings_concat]
    show heardAt dest (happenings trace ++ [.joins dest]) = []
    rw [heardAt_concat, if_pos rfl]

/-! ### The stretch of a line -/

/-- Whoever is dropped while a line is handled says nothing by it. -/
theorem within_unheard (dest : Int) {body : List Obs} (hbody : ∀ o ∈ body, o.within = true)
    (trace : List Obs) :
    heardAt dest (happenings (trace ++ body)) = heardAt dest (happenings trace) := by
  induction body using List.reverseRecOn with
  | nil => rw [List.append_nil]
  | append_singleton body o ih =>
      have hrest := ih fun o' ho' => hbody o' (List.mem_append_left _ ho')
      have ho : o.within = true := hbody o (by simp)
      rw [← List.append_assoc]
      cases o with
      | dropped fd reason =>
          rw [heardAt_happening dest _ rfl (by simp), hrest]
          exact List.append_nil _
      | accepted | refused | handling => cases ho
      | _ => exact (heardAt_silent dest _ rfl).trans hrest

/-- The trace of a line, from `handle_message` being entered to its return. -/
def stretch (fd : Int) (line : Bytes) (body : List Obs) (outcome : LineOutcome) : List Obs :=
  .handling fd line :: (body ++ [.handled fd line outcome])

section Stretch

variable {fd : Int} {line : Bytes} {body : List Obs} {outcome : LineOutcome}
  (hbody : ∀ o ∈ body, o.within = true)

include hbody

theorem stretch_not_accepted (dest : Int) :
    ∀ o ∈ stretch fd line body outcome, o ≠ .accepted dest := by
  rintro o ho rfl
  rcases List.mem_cons.mp ho with heq | ho
  · cases heq
  · rcases List.mem_append.mp ho with ho | ho
    · cases hbody _ ho
    · cases List.mem_singleton.mp ho

theorem messagesTo_stretch (dest : Int) (trace : List Obs) :
    messagesTo dest (trace ++ stretch fd line body outcome) =
      messagesTo dest trace ++ saidTo dest body := by
  rw [messagesTo_append (stretch_not_accepted hbody dest)]
  simp [stretch, saidTo, Obs.messageTo]

theorem heardAt_stretch (dest : Int) (trace : List Obs) :
    heardAt dest (happenings (trace ++ stretch fd line body outcome)) =
      heardAt dest (happenings trace) ++
        exchange.answer (replay trace) (.speaks fd line) dest := by
  rw [stretch, List.append_cons, ← List.append_assoc, heardAt_silent dest _ rfl,
    within_unheard dest hbody, heardAt_happening dest trace rfl (by simp)]

end Stretch

/-! ## Everything that was heard -/

/-- **The server never tells more.** -/
theorem Conversation.heard_sublist {trace : List Obs} (h : Conversation trace) (dest : Int) :
    (ofLines (messagesTo dest trace)).Sublist (heardAt dest (happenings trace)) := by
  induction h with
  | start => exact List.Sublist.slnil
  | @arrival trace fd h hnone ih =>
      by_cases hne : fd = dest
      · rw [hne, (newcomer_unheard dest _).1]
        exact List.nil_sublist _
      · rwa [(arrival_unheard hne trace).1, (arrival_unheard hne trace).2]
  | @aside trace o h ho ih =>
      obtain ⟨hsaid, hheard⟩ := aside_unheard ho dest trace
      rwa [hsaid, hheard]
  | line fd line outcome h hspeaker hbody hspoken houtcome ih =>
      rw [← stretch, messagesTo_stretch hbody, heardAt_stretch hbody, ofLines_append]
      exact ih.append (List.filter_sublist.trans (hspoken.begun dest).sublist)

/-- The sender of a line, no QUIT, was lost while the line was handled. -/
def Obs.cutsShort : Obs → Bool
  | .handled _ line .dropped => ¬ Quits line
  | _ => false

/-- Nobody was lost over a line of his own. -/
def SendersStay (trace : List Obs) : Prop := ∀ o ∈ trace, o.cutsShort = false

/-- Whoever is not dropped hears everything, unless the sender is lost over the line. -/
theorem Spoken.all_said {x : Exchange} {fd : Int} {line : Bytes} {body : List Obs}
    {outcome : LineOutcome} (h : Spoken x fd line body)
    (houtcome : outcome ≠ .dropped → ∀ reason, .dropped fd reason ∉ body)
    (hkept : (Obs.handled fd line outcome).cutsShort = false) {dest : Int}
    (hthere : ∀ reason, .dropped dest reason ∉ body) :
    saidTo dest body = exchange.answer x (.speaks fd line) dest := by
  by_cases hlost : outcome = .dropped
  · -- there was nothing to say
    have hquit : Quits line := by simpa [Obs.cutsShort, hlost] using hkept
    have hbegun := h.begun dest
    rw [answer_of_quits _ fd hquit] at hbegun ⊢
    exact List.prefix_nil.mp hbegun
  · exact h.whole dest (houtcome hlost) hthere

/-- **It tells no less**, to a client that is not dropped, as long as senders stay. -/
theorem Conversation.heard_whole {trace : List Obs} (h : Conversation trace) {dest : Int}
    (hthere : ∀ reason, .dropped dest reason ∉ sinceAccept dest trace)
    (hsenders : SendersStay (sinceAccept dest trace)) :
    ofLines (messagesTo dest trace) = ofLines (heardAt dest (happenings trace)) := by
  induction h with
  | start => rfl
  | @arrival trace fd h hnone ih =>
      by_cases hne : fd = dest
      · rw [hne, (newcomer_unheard dest _).1, (newcomer_unheard dest _).2]
      · rw [sinceAccept_append (by simpa using hne)] at hthere hsenders
        rw [(arrival_unheard hne trace).1, (arrival_unheard hne trace).2]
        exact ih (fun reason hmem => hthere reason (List.mem_append_left _ hmem))
          fun o hmem => hsenders o (List.mem_append_left _ hmem)
  | @aside trace o h ho ih =>
      rw [sinceAccept_append (by simpa using between_ne_accepted ho dest)] at hthere hsenders
      obtain ⟨hsaid, hheard⟩ := aside_unheard ho dest trace
      rw [hsaid, hheard]
      exact ih (fun reason hmem => hthere reason (List.mem_append_left _ hmem))
        fun o' hmem => hsenders o' (List.mem_append_left _ hmem)
  | line fd line outcome h hspeaker hbody hspoken houtcome ih =>
      rw [← stretch, sinceAccept_append (stretch_not_accepted hbody dest)] at hthere hsenders
      have hbefore := ih (fun reason hmem => hthere reason (List.mem_append_left _ hmem))
        fun o hmem => hsenders o (List.mem_append_left _ hmem)
      rw [← stretch, messagesTo_stretch hbody, heardAt_stretch hbody, ofLines_append,
        ofLines_append, hbefore]
      congr 2
      exact hspoken.all_said houtcome (hsenders _ (by simp [stretch])) fun reason hmem =>
        hthere reason (by simp [stretch, hmem])

/-! ## Everything that was said -/

theorem handledLines_append {fd : Int} {trace new : List Obs}
    (h : ∀ o ∈ new, o ≠ .accepted fd) :
    handledLines fd (trace ++ new) = handledLines fd trace ++ new.flatMap (Obs.handledLine fd) := by
  rw [handledLines, sinceAccept_append h, List.flatMap_append]
  rfl

/-- The stretch of a line adds it to the lines of its sender. -/
theorem handledLines_stretch {speaker : Int} {line : Bytes} {body : List Obs}
    {outcome : LineOutcome} (hbody : ∀ o ∈ body, o.within = true) (fd : Int) (trace : List Obs) :
    (handledLines fd (trace ++ stretch speaker line body outcome)).map Prod.fst =
      (handledLines fd trace).map Prod.fst ++ if speaker = fd then [line] else [] := by
  have hnothing : body.flatMap (Obs.handledLine fd) = [] := by
    refine List.flatMap_eq_nil_iff.mpr fun o ho => ?_
    have hwithin := hbody o ho
    cases o with
    | handled => cases hwithin
    | _ => rfl
  rw [handledLines_append (stretch_not_accepted hbody fd), List.map_append]
  congr 1
  by_cases hspeaker : speaker = fd <;> simp [stretch, Obs.handledLine, hnothing, hspeaker]

/-- What is neither an arrival nor a line. -/
theorem spokenAt_unspoken {fd : Int} {o : Obs} (hne : o ≠ .accepted fd)
    (hline : ∀ line, o ≠ .handling fd line) (trace : List Obs) :
    spokenAt fd (happenings (trace ++ [o])) = spokenAt fd (happenings trace) := by
  rw [happenings_concat]
  cases o with
  | accepted fd' =>
      have hjoins : Happening.joins fd' ≠ .joins fd := fun heq =>
        hne (congrArg Obs.accepted (Happening.joins.inj heq))
      exact (spokenAt_concat fd _ _).trans ((if_neg hjoins).trans (List.append_nil _))
  | refused fd' | dropped fd' reason =>
      exact (spokenAt_concat fd _ _).trans ((if_neg (by simp)).trans (List.append_nil _))
  | handling fd' line =>
      have hother : fd' ≠ fd := by
        rintro rfl
        exact hline line rfl
      refine (spokenAt_concat fd _ _).trans ((if_neg (by simp)).trans ?_)
      rw [Happening.spoken, if_neg hother, List.append_nil]
  | _ => exact congrArg (spokenAt fd) (List.append_nil _)

theorem within_unspoken (fd : Int) {body : List Obs} (hbody : ∀ o ∈ body, o.within = true)
    (trace : List Obs) :
    spokenAt fd (happenings (trace ++ body)) = spokenAt fd (happenings trace) := by
  induction body using List.reverseRecOn with
  | nil => rw [List.append_nil]
  | append_singleton body o ih =>
      have ho : o.within = true := hbody o (by simp)
      rw [← List.append_assoc, spokenAt_unspoken]
      · exact ih fun o' ho' => hbody o' (List.mem_append_left _ ho')
      · rintro rfl
        cases ho
      · rintro line rfl
        cases ho

/-- Between two lines none is handled. -/
theorem handledLines_aside {o : Obs} (ho : o.between = true) (fd : Int) (trace : List Obs) :
    handledLines fd (trace ++ [o]) = handledLines fd trace := by
  have hnothing : o.handledLine fd = [] := by
    cases o with
    | handled => cases ho
    | _ => rfl
  rw [handledLines_append (by simpa using between_ne_accepted ho fd), List.flatMap_singleton,
    hnothing, List.append_nil]

/-- Whoever has just come has said nothing, and nobody else says anything by it. -/
theorem handledLines_arrival (fd newcomer : Int) (trace : List Obs) :
    handledLines fd (trace ++ [.accepted newcomer]) =
      if newcomer = fd then [] else handledLines fd trace := by
  split
  · next heq =>
    rw [heq, handledLines, sinceAccept, Log.since_concat]
    simp
  · next hne =>
    rw [handledLines_append (by simpa using hne)]
    exact List.append_nil _

/-- **The lines that were handled are the lines that were said.** -/
theorem Conversation.handled_spoken {trace : List Obs} (h : Conversation trace) (fd : Int) :
    (handledLines fd trace).map Prod.fst = spokenAt fd (happenings trace) := by
  induction h with
  | start => rfl
  | @arrival trace newcomer h hnone ih =>
      rw [handledLines_arrival]
      by_cases hne : newcomer = fd
      · rw [if_pos hne, hne, happenings_concat]
        show _ = spokenAt fd (happenings trace ++ [.joins fd])
        rw [spokenAt_concat, if_pos rfl]
        rfl
      · rw [if_neg hne, spokenAt_unspoken (by simpa using hne) (by simp)]
        exact ih
  | @aside trace o h ho ih =>
      have hline : ∀ line, o ≠ .handling fd line := by
        rintro line rfl
        cases ho
      rw [handledLines_aside ho, spokenAt_unspoken (between_ne_accepted ho fd) hline]
      exact ih
  | @line trace body speaker line outcome h hspeaker hbody hspoken houtcome ih =>
      rw [← stretch, handledLines_stretch hbody, ih, stretch, List.append_cons, ← List.append_assoc,
        spokenAt_unspoken (by simp) (by simp), within_unspoken fd hbody, happenings_concat]
      show _ = spokenAt fd (happenings trace ++ [.speaks speaker line])
      have hspeaks : Happening.speaks speaker line ≠ .joins fd := by simp
      rw [spokenAt_concat, if_neg hspeaks]
      rfl

/-! ## Whole runs -/

/-- **What a client hears.**  In every run, and for every client:

* the lines handled for it are those it says at the exchange;
* leaving aside that a line was too long, what it has been told since it came is part of
  what it hears at the exchange, in the same order;
* and it is all of it, if the client is still there and nobody has been lost, since it
  came, while the answer to a line of his own other than QUIT went out. -/
theorem clients_hear_the_exchange (c : Setup) (turns : List Turn) (dest : Int) :
    let s := run c turns
    let happened := happenings s.trace
    (handledLines dest s.trace).map Prod.fst = spokenAt dest happened ∧
    (ofLines (messagesTo dest s.trace)).Sublist (heardAt dest happened) ∧
    (s.connected dest = true → SendersStay (sinceAccept dest s.trace) →
      ofLines (messagesTo dest s.trace) = ofLines (heardAt dest happened)) := by
  intro s happened
  have h : Conversation s.trace := run_conversation c turns
  refine ⟨h.handled_spoken dest, h.heard_sublist dest, fun hconnected hsenders => ?_⟩
  obtain ⟨session, hsession⟩ := connected_iff.mp hconnected
  exact h.heard_whole ((run_reachable c turns).epoch hsession).alive hsenders

/-- A watcher, a seller and a buyer come and talk.  In the end the buyer takes from two
orders, and is lost when it is told that its own was accepted. -/
private def buyerLost : List Turn :=
  [{ input := .event { fd := 3, readable := true }
     answers := { accepts := [.connection 5 [] true, .connection 6 [] true,
       .connection 7 [] true] } },
   { input := .event { fd := 5, readable := true }
     answers := { recvs := [.data ⟨ascii "SUBSCRIBE JNST\n", by decide, by decide⟩] } },
   { input := .event { fd := 6, readable := true }
     answers := { recvs := [.data ⟨ascii "LOGIN a\nSELL JNST 5 9\nSELL JNST 5 9\n", by decide,
       by decide⟩] } },
   { input := .event { fd := 7, readable := true }
     answers := { recvs := [.data ⟨ascii "LOGIN b\nBUY JNST 2 9\n", by decide, by decide⟩] } },
   { input := .event { fd := 7, readable := true }
     answers :=
       { recvs := [.data ⟨ascii "BUY JNST 6 9\n", by decide, by decide⟩]
         sends := fun fd => if fd = 7 then [.failed] else [] } }]

/-- Up to then the watcher has heard everything, and of the last trade it hears nothing. -/
theorem clients_hear_the_exchange_buyer_lost :
    messagesTo 5 (run {} (buyerLost.take 4)).trace = [.ok, .trade (ascii "JNST") 2 9] ∧
    messagesTo 5 (run {} buyerLost).trace =
      [.ok, .trade (ascii "JNST") 2 9, .trade (ascii "JNST") 3 9] ∧
    heardAt 5 (happenings (run {} buyerLost).trace) =
      [.ok, .trade (ascii "JNST") 2 9, .trade (ascii "JNST") 3 9,
        .trade (ascii "JNST") 3 9] := by
  refine ⟨?_, by decide +kernel, by decide +kernel⟩
  have hall := (clients_hear_the_exchange {} (buyerLost.take 4) 5).2.2 (by decide +kernel)
    (by rw [SendersStay]; decide +kernel)
  have hheard : ofLines (heardAt 5 (happenings (run {} (buyerLost.take 4)).trace)) =
      [.ok, .trade (ascii "JNST") 2 9] := by
    decide +kernel
  have hplain : ofLines (messagesTo 5 (run {} (buyerLost.take 4)).trace) =
      messagesTo 5 (run {} (buyerLost.take 4)).trace := by
    decide +kernel
  rw [← hplain, hall, hheard]

end SocketExchange.Server
