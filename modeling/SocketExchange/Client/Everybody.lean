import SocketExchange.Client.EndToEnd
import SocketExchange.Server.Hearing

/-!
# Everybody at once

The server, any number of users at their terminals, and the streams between them, taking
steps in any order.  A step is one pass of somebody's shell or one turn of the server, and
a stream gives out what was put into it, in order, and not always all of it.  Clients that
are no shells may be connected as well; they send whatever they like.

Whatever happens, there is one order of all that was said such that every screen shows
what its user would have heard at the exchange.
-/

namespace SocketExchange.Client

open SocketExchange.Lib
open SocketExchange.Lib.Bytes
open SocketExchange.Network
open SocketExchange.Protocol
open SocketExchange.Server
open ExchangeServer Shell

/-! ## A shell only ever adds to its stream -/

theorem send_wire (s : Shell) (script : List SendResult) (message : Bytes) :
    s.wire <+: (s.send script message).1.wire :=
  List.prefix_append _ _

theorem sendLines_wire (fuel : Nat) (script : List SendResult) (s : Shell) :
    s.wire <+: (sendLines fuel script s).wire := by
  induction fuel generalizing script s with
  | zero => exact List.prefix_rfl
  | succ fuel ih =>
      simp only [sendLines]
      split
      · exact List.prefix_rfl
      · next line rest hline =>
          split
          · exact ih script { s with stdinBuffer := rest }
          · split
            · exact List.prefix_append _ _
            · split
              · exact List.prefix_append _ _
              · have hsent := send_wire { s with stdinBuffer := rest } script
                  (stripCarriageReturn line ++ [newline])
                exact hsent.trans (ih _ _)

theorem readStdin_wire (s : Shell) (script : List SendResult) :
    s.wire <+: (s.readStdin script).wire := by
  simp only [readStdin]
  split
  · exact List.prefix_rfl
  · exact List.prefix_rfl
  · exact List.prefix_rfl
  · split
    · exact List.prefix_rfl
    · exact List.prefix_append _ _
  · next typed reads hreads =>
      exact sendLines_wire _ script
        { s with reads := reads, stdinBuffer := s.stdinBuffer ++ typed.bytes }

theorem pass_wire (s : Shell) (p : Pass) : s.wire <+: (s.pass p).wire := by
  simp only [Shell.pass]
  split
  · exact List.prefix_rfl
  · split
    · exact List.prefix_rfl
    · split
      · exact List.prefix_rfl
      · exact List.prefix_rfl
      · next socket stdin hpoll =>
          have hreceive : (if socket then s.receive p.recvs else (s, true)).1.wire = s.wire := by
            cases socket <;> rfl
          generalize (if socket then s.receive p.recvs else (s, true)) = r at hreceive
          rw [← hreceive]
          split
          · exact List.prefix_rfl
          · split
            · exact List.prefix_rfl
            · split
              · exact List.prefix_rfl
              · exact readStdin_wire r.1 p.sends

/-! ## Users -/

/-- Somebody at a terminal: the commands the shell was started with, everything that will
be read from the keyboard, and what the passes of the shell have met so far. -/
structure User where
  commands : List Bytes := []
  script : List SendResult := []
  reads : List ReadResult := []
  passes : List Pass := []

namespace User

variable (u : User)

def shell : Shell := runClientShell true u.commands u.script u.reads u.passes

/-- The bytes that have come out of the stream from the server. -/
def heard : Bytes := heardBy true u.commands u.script u.reads u.passes

/-- One more pass. -/
def next (p : Pass) : User := { u with passes := u.passes ++ [p] }

/-- Everything this user has to say. -/
def lines : List Bytes := meant u.commands (untilQuit (typedLines (typed (readable u.reads))))

theorem shell_next (p : Pass) : (u.next p).shell = u.shell.pass p :=
  Loop.run_concat _ _ _ _

end User

/-! ## The whole system -/

/-- The turns the server has taken, and who is at the other end of its connections. -/
structure World where
  turns : List Turn := []
  users : Int → Option User := fun _ => none

/-- A step of the whole system.  All that is known of a stream is that what comes out of it
begins what was put into it. -/
inductive World.Step (c : Setup) : World → World → Prop where
  | user {w : World} (fd : Int) (u : User) (p : Pass) (hu : w.users fd = some u)
      (hstream : (u.next p).heard <+: sentTo fd (run c w.turns).trace) :
      Step c w { w with users := Function.update w.users fd (some (u.next p)) }
  | server {w : World} (t : Turn) (users : Int → Option User) (new : List Obs)
      (htrace : (run c (w.turns ++ [t])).trace = (run c w.turns).trace ++ new)
      (hold : ∀ fd, .accepted fd ∉ new → users fd = w.users fd)
      (hnew : ∀ fd u, .accepted fd ∈ new → users fd = some u → u.passes = [])
      (hstream : ∀ fd u, users fd = some u →
        receivedFrom fd (run c (w.turns ++ [t])).trace <+: u.shell.wire) :
      Step c w { turns := w.turns ++ [t], users := users }

/-- What can happen, from a server that has just been started. -/
def World.Reachable (c : Setup) (w : World) : Prop :=
  Relation.ReflTransGen (World.Step c) {} w

/-- The streams of all users are in order. -/
def World.Linked (c : Setup) (w : World) : Prop := ∀ fd u, w.users fd = some u →
  receivedFrom fd (run c w.turns).trace <+: u.shell.wire ∧
    u.heard <+: sentTo fd (run c w.turns).trace

theorem World.Step.linked {c : Setup} {w w' : World} (hstep : World.Step c w w')
    (h : w.Linked c) : w'.Linked c := by
  cases hstep with
  | user fd u p hu hstream =>
      intro fd' u' hu'
      by_cases hfd : fd' = fd
      · subst hfd
        have hsame : Function.update w.users fd' (some (u.next p)) fd' = some (u.next p) :=
          Function.update_self fd' _ _
        obtain rfl : u.next p = u' := Option.some.inj (hsame.symm.trans hu')
        refine ⟨(h fd' u hu).1.trans ?_, hstream⟩
        rw [u.shell_next]
        exact pass_wire u.shell p
      · have hother : Function.update w.users fd (some (u.next p)) fd' = w.users fd' :=
          Function.update_of_ne hfd _ _
        exact h fd' u' (hother.symm.trans hu')
  | server t users new htrace hold hnew hstream =>
      intro fd u hu
      refine ⟨hstream fd u hu, ?_⟩
      by_cases hfd : .accepted fd ∈ new
      · -- whoever has just come has heard nothing
        have hnothing : u.heard = [] := by
          rw [User.heard, hnew fd u hfd hu]
          rfl
        rw [hnothing]
        exact List.nil_prefix
      · have hne : ∀ o ∈ new, o ≠ .accepted fd := by
          rintro o ho rfl
          exact hfd ho
        rw [htrace, sentTo, sinceAccept_append hne, List.flatMap_append]
        exact (h fd u ((hold fd hfd).symm.trans hu)).2.trans (List.prefix_append _ _)

theorem World.Reachable.linked {c : Setup} {w : World} (h : World.Reachable c w) :
    w.Linked c := by
  induction h with
  | refl =>
      intro fd u hu
      cases hu
  | tail _ hstep ih => exact hstep.linked ih

/-! ## One user -/

/-- A single user. -/
def only (fd : Int) (u : User) : Int → Option User := Function.update (fun _ => none) fd (some u)

theorem only_self (fd : Int) (u : User) : only fd u fd = some u := Function.update_self fd _ _

theorem only_eq {fd fd' : Int} {u u' : User} (h : only fd u fd' = some u') :
    fd' = fd ∧ u' = u := by
  by_cases hfd : fd' = fd
  · subst hfd
    exact ⟨rfl, Option.some.inj (h.symm.trans (only_self fd' u))⟩
  · have hnone : only fd u fd' = none := Function.update_of_ne hfd _ _
    cases h.symm.trans hnone

section One

variable {c : Setup} {fd : Int} {u : User}

/-- The first turn of the server lets the user in. -/
theorem World.Step.comes (t : Turn) (htrace : (run c [t]).trace = [.accepted fd])
    (hnew : u.passes = []) (hstream : receivedFrom fd (run c [t]).trace <+: u.shell.wire) :
    World.Step c {} { turns := [t], users := only fd u } := by
  refine World.Step.server (w := {}) t (only fd u) [.accepted fd] htrace (fun fd' hfd' => ?_)
    (fun fd' u' _ hu' => ?_) fun fd' u' hu' => ?_
  · exact Function.update_of_ne (fun heq => hfd' (by simp [heq])) _ _
  · rw [(only_eq hu').2]
    exact hnew
  · rw [(only_eq hu').1, (only_eq hu').2]
    exact hstream

/-- A pass of the user's shell. -/
theorem World.Step.lives {turns : List Turn} (p : Pass)
    (hstream : (u.next p).heard <+: sentTo fd (run c turns).trace) :
    World.Step c { turns := turns, users := only fd u }
      { turns := turns, users := only fd (u.next p) } := by
  have hnext : Function.update (only fd u) fd (some (u.next p)) = only fd (u.next p) :=
    Function.update_idem ..
  rw [← hnext]
  exact World.Step.user fd u p (only_self fd u) hstream

/-- A turn of the server in which nobody comes. -/
theorem World.Step.serves {turns new : List Turn} {t : Turn} {obs : List Obs}
    (hturns : turns ++ [t] = new) (htrace : (run c new).trace = (run c turns).trace ++ obs)
    (hobs : .accepted fd ∉ obs) (hstream : receivedFrom fd (run c new).trace <+: u.shell.wire) :
    World.Step c { turns := turns, users := only fd u } { turns := new, users := only fd u } := by
  subst hturns
  refine World.Step.server t (only fd u) obs htrace (fun _ _ => rfl) (fun fd' u' hmem hu' => ?_)
    fun fd' u' hu' => ?_
  · rw [(only_eq hu').1] at hmem
    exact absurd hmem hobs
  · rw [(only_eq hu').1, (only_eq hu').2]
    exact hstream

/-- The user is let in, is served once, and then makes a pass. -/
theorem World.Reachable.visit {t t' : Turn} {obs : List Obs} (p : Pass)
    (hcomes : (run c [t]).trace = [.accepted fd]) (hnew : u.passes = [])
    (htrace : (run c [t, t']).trace = [.accepted fd] ++ obs) (hobs : .accepted fd ∉ obs)
    (hup : receivedFrom fd (run c [t, t']).trace <+: u.shell.wire)
    (hdown : (u.next p).heard <+: sentTo fd (run c [t, t']).trace) :
    World.Reachable c { turns := [t, t'], users := only fd (u.next p) } := by
  have hnothing : receivedFrom fd (run c [t]).trace <+: u.shell.wire := by
    rw [hcomes, receivedFrom, sinceAccept, ← List.nil_append [Obs.accepted fd], Log.since_concat]
    simp
  have hserves : World.Step c { turns := [t], users := only fd u }
      { turns := [t, t'], users := only fd u } := by
    refine World.Step.serves rfl ?_ hobs hup
    rw [hcomes]
    exact htrace
  have hfirst := Relation.ReflTransGen.single (World.Step.comes t hcomes hnew hnothing)
  exact (hfirst.tail hserves).tail (World.Step.lives p hdown)

end One

/-! ## Screens -/

/-- What a screen shows, but that a line was too long. -/
def linesOf (screen : List Bytes) : List Bytes :=
  screen.filter fun line => line ≠ oversizedMessage.body

theorem linesOf_body (messages : List Response) :
    linesOf (messages.map Response.body) = linesOf ((ofLines messages).map Response.body) := by
  rw [linesOf, linesOf, List.filter_map, List.filter_map, ofLines, List.filter_filter]
  congr 1
  refine List.filter_congr fun message _ => ?_
  by_cases heq : message = oversizedMessage
  · simp [heq]
  · simp [heq]

/-- Nothing is under way between the server and a user, and both go on. -/
structure World.Idle (c : Setup) (w : World) (fd : Int) (u : User) : Prop where
  session : ∃ session, (run c w.turns).sessions.lookup fd = some session ∧
    session.closing = false ∧ session.pending = []
  stays : u.shell.left = false
  reads : u.shell.stdinOpen = true
  up : receivedFrom fd (run c w.turns).trace = u.shell.wire
  down : u.heard = sentTo fd (run c w.turns).trace

/-- **Everybody is at one exchange.**  However the shells, the server and the network take
their steps, what the server met is one sequence of arrivals, lines and departures, and for
every user it is connected to:

* the lines this user says in it begin what was typed;
* the screen shows, in order, of what the user hears at that exchange;
* when nothing is under way, all that was typed has been said, and all that was to be heard
  is on the screen, unless somebody was lost over a line of his own. -/
theorem everybody_at_one_exchange {c : Setup} {w : World} (h : World.Reachable c w) :
    let s := run c w.turns
    let happened := happenings s.trace
    ∀ fd u, w.users fd = some u →
      spokenAt fd happened <+: u.lines ∧
      (linesOf u.shell.printed).Sublist ((heardAt fd happened).map Response.body) ∧
      (w.Idle c fd u →
        (∃ used, u.reads = used ++ u.shell.reads ∧
          spokenAt fd happened = meant u.commands (typedLines (typed used))) ∧
        (SendersStay (sinceAccept fd s.trace) →
          linesOf u.shell.printed = linesOf ((heardAt fd happened).map Response.body))) := by
  intro s happened fd u hu
  obtain ⟨hup, hdown⟩ := h.linked fd u hu
  have htalk : Conversation s.trace := run_conversation c w.turns
  obtain ⟨hhandled, hprinted, hidle⟩ :=
    keyboard_to_screen c w.turns fd true u.commands u.script u.reads u.passes hup hdown
  rw [htalk.handled_spoken fd] at hhandled
  refine ⟨hhandled, ?_, fun idle => ?_⟩
  · have hshown : (linesOf u.shell.printed).Sublist
        (linesOf ((messagesTo fd s.trace).map Response.body)) :=
      List.Sublist.filter _ hprinted.sublist
    rw [linesOf_body] at hshown
    exact hshown.trans (List.filter_sublist.trans ((htalk.heard_sublist fd).map _))
  · obtain ⟨session, hsession, hclosing, hpending⟩ := idle.session
    obtain ⟨hsaid, hall⟩ :=
      hidle session hsession hclosing hpending idle.stays idle.reads idle.up idle.down
    rw [htalk.handled_spoken fd] at hsaid
    refine ⟨hsaid, fun hsenders => ?_⟩
    have halive := ((run_reachable c w.turns).epoch hsession).alive
    have hscreen : u.shell.printed = (messagesTo fd s.trace).map Response.body := hall
    rw [hscreen, linesOf_body, htalk.heard_whole halive hsenders, ← linesOf_body]

/-- A connection on descriptor 5 is accepted, and then two lines arrive on it with the
beginning of a third. -/
private def zoeIsServed : List Turn :=
  [{ input := .event { fd := 3, readable := true }
     answers := { accepts := [.connection 5 [] true] } },
   { input := .event { fd := 5, readable := true }
     answers :=
       { recvs := [.data ⟨ascii "LOGIN zoe\nBUY JNST 2 7\nCAN", by decide, by decide⟩]
         sends := fun _ => [.accepted 3, .accepted 9, .eintr, .accepted 9] } }]

/-- Somebody logs in, types a line, and begins another. -/
private def zoe : User where
  commands := [ascii "LOGIN zoe"]
  reads := [.data ⟨ascii "BUY JNST 2 7\nCANCEL 1\n\nQU", by decide, by decide⟩, .eintr]

private def zoeTypes : Pass :=
  { poll := .ready false true, sends := [.wrote 4 (by decide), .eagain .room] }

/-- One and a half messages of the server arrive. -/
private def zoeHears : Pass :=
  { poll := .ready true true, recvs := [.data ⟨ascii "OK\nORDER_AC", by decide, by decide⟩] }

/-- She comes, types, is served, and hears of it. -/
private theorem zoe_reachable : World.Reachable {}
    { turns := zoeIsServed, users := only 5 ((zoe.next zoeTypes).next zoeHears) } := by
  have hcomes : World.Step {} {} { turns := zoeIsServed.take 1, users := only 5 zoe } :=
    World.Step.comes _ (by decide +kernel) rfl (by decide +kernel)
  have htypes : World.Step {} { turns := zoeIsServed.take 1, users := only 5 zoe }
      { turns := zoeIsServed.take 1, users := only 5 (zoe.next zoeTypes) } :=
    World.Step.lives zoeTypes (by decide +kernel)
  have hserved : World.Step {}
      { turns := zoeIsServed.take 1, users := only 5 (zoe.next zoeTypes) }
      { turns := zoeIsServed, users := only 5 (zoe.next zoeTypes) } :=
    World.Step.serves rfl (List.prefix_iff_eq_append.mp (by decide +kernel)).symm
      (by decide +kernel) (by decide +kernel)
  have hhears : World.Step {} { turns := zoeIsServed, users := only 5 (zoe.next zoeTypes) }
      { turns := zoeIsServed, users := only 5 ((zoe.next zoeTypes).next zoeHears) } :=
    World.Step.lives zoeHears (by decide +kernel)
  exact (((Relation.ReflTransGen.single hcomes).tail htypes).tail hserved).tail hhears

theorem everybody_at_one_exchange_zoe :
    spokenAt 5 (happenings (run {} zoeIsServed).trace) <+:
      [ascii "LOGIN zoe", ascii "BUY JNST 2 7", ascii "CANCEL 1", ascii "QUIT"] ∧
    [ascii "OK"].Sublist
      ((heardAt 5 (happenings (run {} zoeIsServed).trace)).map Response.body) := by
  have hzoe := everybody_at_one_exchange zoe_reachable 5 _ (only_self 5 _)
  have hlines : ((zoe.next zoeTypes).next zoeHears).lines =
      [ascii "LOGIN zoe", ascii "BUY JNST 2 7", ascii "CANCEL 1", ascii "QUIT"] := by
    decide +kernel
  have hscreen : linesOf ((zoe.next zoeTypes).next zoeHears).shell.printed = [ascii "OK"] := by
    decide +kernel
  rw [hlines, hscreen] at hzoe
  exact ⟨hzoe.1, hzoe.2.1⟩

end SocketExchange.Client
