import SocketExchange.Server.Output
import SocketExchange.Server.Registry

/-!
# What the trace says of a connection

A descriptor is used by one connection after another, and the trace since its last
`accept` is the history of the present one.  Three things about a session can be
read off that history: whether `begin_orderly_close` has been applied to it, that
it has not been dropped, and what it is subscribed to.

`Reachable.epoch` says so for every state, also in the middle of a handler.  A
statement about a run can therefore speak of these things at any point of its trace
without naming the states on the way.
-/

namespace SocketExchange.Server

open SocketExchange.Lib
open SocketExchange.Lib.Bytes
open SocketExchange.Network
open SocketExchange.Protocol
open SocketExchange.Trading.OrderBook
open ExchangeServer

/-! ## The present connection -/

theorem sinceAccept_append {fd : Int} {trace new : List Obs}
    (h : ∀ o ∈ new, o ≠ .accepted fd) :
    sinceAccept fd (trace ++ new) = sinceAccept fd trace ++ new :=
  Log.since_append fun o ho => decide_eq_false (h o ho)

theorem sinceAccept_accept {fd : Int} {trace new : List Obs}
    (h : ∀ o ∈ new, o ≠ .accepted fd) : sinceAccept fd (trace ++ .accepted fd :: new) = new := by
  have hstart : sinceAccept fd (trace ++ [.accepted fd]) = [] := by
    simp [sinceAccept, Log.since_concat]
  have hsplit : trace ++ .accepted fd :: new = (trace ++ [.accepted fd]) ++ new := by simp
  rw [hsplit, sinceAccept_append h, hstart, List.nil_append]

theorem messagesTo_append {fd : Int} {trace new : List Obs}
    (h : ∀ o ∈ new, o ≠ .accepted fd) :
    messagesTo fd (trace ++ new) = messagesTo fd trace ++ new.flatMap (Obs.messageTo fd) := by
  rw [messagesTo, sinceAccept_append h, List.flatMap_append]
  rfl

theorem messagesTo_accept {fd : Int} {trace new : List Obs}
    (h : ∀ o ∈ new, o ≠ .accepted fd) :
    messagesTo fd (trace ++ .accepted fd :: new) = new.flatMap (Obs.messageTo fd) := by
  rw [messagesTo, sinceAccept_accept h]

/-- What a client is subscribed to after an observation. -/
def Obs.resubscribe (fd : Int) (subscriptions : List Bytes) : Obs → List Bytes
  | .subscribed dest instrument =>
      if dest = fd then subscriptions.insert instrument else subscriptions
  | .unsubscribed dest instrument =>
      if dest = fd then subscriptions.filter (· ≠ instrument) else subscriptions
  | .dropped dest _ => if dest = fd then [] else subscriptions
  | _ => subscriptions

/-- What the present connection of `fd` is subscribed to. -/
def subscriptionsIn (fd : Int) (trace : List Obs) : List Bytes :=
  Loop.run (Obs.resubscribe fd) [] (sinceAccept fd trace)

/-- Observations that say something about the connection itself. -/
def Obs.turns (fd : Int) : Obs → Bool
  | .accepted dest => dest = fd
  | .leaving dest _ => dest = fd
  | .dropped dest _ => dest = fd
  | .subscribed dest _ => dest = fd
  | .unsubscribed dest _ => dest = fd
  | _ => false

theorem ne_accepted_of_turns {fd : Int} {o : Obs} (h : o.turns fd = false) :
    o ≠ .accepted fd := by
  rintro rfl
  simp [Obs.turns] at h

theorem resubscribe_of_turns {fd : Int} {o : Obs} (h : o.turns fd = false)
    (subscriptions : List Bytes) : o.resubscribe fd subscriptions = subscriptions := by
  cases o <;> first | rfl | exact if_neg (of_decide_eq_false h)

theorem subscriptionsIn_append {fd : Int} {trace new : List Obs}
    (h : ∀ o ∈ new, o ≠ .accepted fd) :
    subscriptionsIn fd (trace ++ new) =
      Loop.run (Obs.resubscribe fd) (subscriptionsIn fd trace) new := by
  rw [subscriptionsIn, sinceAccept_append h, Loop.run_append]
  rfl

theorem run_resubscribe_of_turns {fd : Int} {new : List Obs}
    (h : ∀ o ∈ new, o.turns fd = false) (subscriptions : List Bytes) :
    Loop.run (Obs.resubscribe fd) subscriptions new = subscriptions := by
  induction new generalizing subscriptions with
  | nil => rfl
  | cons o new ih =>
      rw [Loop.run_cons, resubscribe_of_turns (h o (by simp)),
        ih fun x hx => h x (by simp [hx])]

/-! ## The invariant -/

/-- What the trace says of the session of `fd`. -/
structure Epoch (fd : Int) (session : ClientSession) (trace : List Obs) : Prop where
  leaving : session.closing = true ↔ ∃ reason, .leaving fd reason ∈ sinceAccept fd trace
  alive : ∀ reason, .dropped fd reason ∉ sinceAccept fd trace
  subscriptions : session.subscriptions = subscriptionsIn fd trace

def Epochs (s : ExchangeServer) : Prop :=
  ∀ fd session, s.sessions.lookup fd = some session → Epoch fd session s.trace

/-- The connection goes on, and nothing is said about it. -/
private theorem Epoch.append {fd : Int} {x y : ClientSession} {trace new : List Obs}
    (h : Epoch fd x trace) (hnew : ∀ o ∈ new, o.turns fd = false)
    (hclosing : y.closing = x.closing) (hsubs : y.subscriptions = x.subscriptions) :
    Epoch fd y (trace ++ new) := by
  have hne : ∀ o ∈ new, o ≠ .accepted fd := fun o ho => ne_accepted_of_turns (hnew o ho)
  have hold : ∀ o : Obs, o.turns fd = true →
      (o ∈ sinceAccept fd (trace ++ new) ↔ o ∈ sinceAccept fd trace) := by
    intro o ho
    rw [sinceAccept_append hne, List.mem_append, or_iff_left]
    intro hmem
    rw [hnew o hmem] at ho
    cases ho
  refine ⟨?_, fun reason => ?_, ?_⟩
  · rw [hclosing, h.leaving]
    exact exists_congr fun reason => (hold _ (by simp [Obs.turns])).symm
  · rw [hold _ (by simp [Obs.turns])]
    exact h.alive reason
  · rw [hsubs, h.subscriptions, subscriptionsIn_append hne, run_resubscribe_of_turns hnew]

/-- Every session that is left was there, and the new observations are not about it. -/
private theorem Epochs.aside {s s' : ExchangeServer} (hi : Epochs s) {new : List Obs}
    (htrace : s'.trace = s.trace ++ new)
    (hold : ∀ fd y, s'.sessions.lookup fd = some y → (∀ o ∈ new, o.turns fd = false) ∧
      ∃ x, s.sessions.lookup fd = some x ∧ y.closing = x.closing ∧
        y.subscriptions = x.subscriptions) : Epochs s' := by
  intro fd y hy
  obtain ⟨hnew, x, hx, hclosing, hsubs⟩ := hold fd y hy
  rw [htrace]
  exact (hi fd x hx).append hnew hclosing hsubs

/-- One session is rewritten, and nothing is said about any connection. -/
private theorem Epochs.put {s s' : ExchangeServer} (hi : Epochs s) {fd : Int}
    {session session' : ClientSession} (h : s.sessions.lookup fd = some session)
    (hs : s'.sessions = s.sessions.insert fd session')
    (hsame : session'.closing = session.closing ∧
      session'.subscriptions = session.subscriptions)
    {new : List Obs} (htrace : s'.trace = s.trace ++ new)
    (hnew : ∀ o ∈ new, ∀ dest, o.turns dest = false) : Epochs s' := by
  refine hi.aside htrace fun fd' y hy => ⟨fun o ho => hnew o ho fd', ?_⟩
  rw [hs, lookup_insert] at hy
  split at hy
  · next heq =>
    cases hy
    exact ⟨session, heq ▸ h, hsame⟩
  · exact ⟨y, hy, rfl, rfl⟩

/-- No session is written. -/
private theorem Epochs.same {s s' : ExchangeServer} (hi : Epochs s)
    (hs : s'.sessions = s.sessions) {new : List Obs} (htrace : s'.trace = s.trace ++ new)
    (hnew : ∀ o ∈ new, ∀ dest, o.turns dest = false) : Epochs s' := by
  refine hi.aside htrace fun fd y hy => ⟨fun o ho => hnew o ho fd, y, ?_, rfl, rfl⟩
  rwa [hs] at hy

private theorem Epochs.drop {s : ExchangeServer} (hi : Epochs s) (fd : Int)
    (reason : DropReason) : Epochs (s.drop fd reason) := by
  cases h : s.sessions.lookup fd with
  | none =>
      rw [drop_of_lookup_none h]
      exact hi
  | some session =>
      refine hi.aside (drop_trace h reason) fun fd' y hy => ?_
      obtain ⟨hne, hy⟩ := lookup_of_drop hy
      refine ⟨fun o ho => ?_, y, hy, rfl, rfl⟩
      rw [List.mem_singleton.mp ho]
      simp [Obs.turns, Ne.symm hne]

/-- The session of `fd` is rewritten and one observation is about it. -/
private theorem Epochs.turn {s s' : ExchangeServer} (hi : Epochs s) {fd : Int}
    {session' : ClientSession} {o : Obs}
    (hs : s'.sessions = s.sessions.insert fd session') (htrace : s'.trace = s.trace ++ [o])
    (hother : ∀ fd', fd' ≠ fd → o.turns fd' = false)
    (hself : Epoch fd session' (s.trace ++ [o])) : Epochs s' := by
  intro fd' y hy
  rw [hs, lookup_insert] at hy
  rw [htrace]
  split at hy
  · next heq =>
    cases hy
    exact heq ▸ hself
  · next hne =>
    exact (hi fd' y hy).append (by simpa using hother fd' hne) rfl rfl

section Self

variable {fd : Int} {session : ClientSession} {trace : List Obs} (h : Epoch fd session trace)

include h

private theorem Epoch.leave (reason : DropReason) :
    Epoch fd { session with closing := true, inbuf := [] }
      (trace ++ [.leaving fd reason]) := by
  have hne : ∀ o ∈ [Obs.leaving fd reason], o ≠ .accepted fd := by simp
  refine ⟨?_, fun reason' => ?_, ?_⟩
  · rw [sinceAccept_append hne]
    exact iff_of_true rfl ⟨reason, by simp⟩
  · rw [sinceAccept_append hne]
    simpa using h.alive reason'
  · rw [subscriptionsIn_append hne]
    exact h.subscriptions

/-- A change of the subscriptions. -/
private theorem Epoch.resubscribe {o : Obs} {session' : ClientSession}
    (hne : o ≠ .accepted fd) (hleave : ∀ reason, o ≠ .leaving fd reason)
    (hdrop : ∀ reason, o ≠ .dropped fd reason) (hclosing : session'.closing = session.closing)
    (hsubs : session'.subscriptions = o.resubscribe fd session.subscriptions) :
    Epoch fd session' (trace ++ [o]) := by
  have hne' : ∀ x ∈ [o], x ≠ .accepted fd := by simpa using hne
  refine ⟨?_, fun reason => ?_, ?_⟩
  · rw [hclosing, h.leaving, sinceAccept_append hne']
    refine exists_congr fun reason => ?_
    rw [List.mem_append, List.mem_singleton, or_iff_left (Ne.symm (hleave reason))]
  · rw [sinceAccept_append hne', List.mem_append, List.mem_singleton,
      or_iff_left (Ne.symm (hdrop reason))]
    exact h.alive reason
  · rw [hsubs, subscriptionsIn_append hne', h.subscriptions]
    rfl

end Self

theorem assumeMarketData_closing (session : ClientSession) :
    (assumeMarketData session).closing = session.closing := by
  unfold assumeMarketData
  split <;> rfl

private theorem assumeMarketData_subscriptions (session : ClientSession) :
    (assumeMarketData session).subscriptions = session.subscriptions := by
  unfold assumeMarketData
  split <;> rfl

theorem Act.epochs {fd : Int} {s s' : ExchangeServer} (hact : Act fd s s') (hi : Epochs s) :
    Epochs s' := by
  cases hact with
  | queue dest session message h howed =>
      exact hi.put h rfl ⟨rfl, rfl⟩ rfl (by simp [Obs.turns])
  | write dest session h =>
      exact hi.put h rfl ⟨closing_of_client (flush_client _ _),
        subscriptions_of_client (flush_client _ _)⟩ rfl (by simp [Obs.turns])
  | drop dest reason h => exact hi.drop dest reason
  | relist loop => exact hi.same rfl (List.append_nil _).symm (by simp)
  | leave session reason h =>
      exact hi.turn rfl rfl (fun fd' hne => by simp [Obs.turns, Ne.symm hne])
        ((hi fd session h).leave reason)
  | interest session wantRead wantWrite h =>
      exact hi.put h rfl ⟨rfl, rfl⟩ (List.append_nil _).symm (by simp)
  | login session username h hrole hout hfree =>
      exact hi.put h rfl ⟨rfl, rfl⟩ rfl (by simp [Obs.turns])
  | subscribe session instrument h hrole =>
      refine hi.turn rfl rfl (fun fd' hne => by simp [Obs.turns, Ne.symm hne])
        ((hi fd session h).resubscribe (by simp) (by simp) (by simp)
          (assumeMarketData_closing session) ?_)
      rw [assumeMarketData_subscriptions, Obs.resubscribe, if_pos rfl]
  | unsubscribe session instrument h hrole hin =>
      refine hi.turn rfl rfl (fun fd' hne => by simp [Obs.turns, Ne.symm hne])
        ((hi fd session h).resubscribe (by simp) (by simp) (by simp)
          (assumeMarketData_closing session) ?_)
      rw [assumeMarketData_subscriptions, Obs.resubscribe, if_pos rfl]
  | submit session cmd h hrole hin hcmd => exact hi.same rfl rfl (by simp [Obs.turns])
  | cancel session orderId h hin hok => exact hi.same rfl rfl (by simp [Obs.turns])

theorem epoch_accept (fd : Int) (peer : Bytes) (trace : List Obs) :
    Epoch fd { fd := fd, peer := peer } (trace ++ [.accepted fd]) := by
  have hsince : sinceAccept fd (trace ++ [.accepted fd]) = [] :=
    sinceAccept_accept (by simp)
  refine ⟨?_, fun reason => ?_, ?_⟩
  · rw [hsince]
    simp
  · rw [hsince]
    exact List.not_mem_nil
  · rw [subscriptionsIn, hsince]
    rfl

theorem Env.epochs {s s' : ExchangeServer} (henv : Env s s') (hi : Epochs s) : Epochs s' := by
  cases henv with
  | accept fd peer hfd h hnonneg =>
      exact hi.turn rfl rfl (fun fd' hne => by simp [Obs.turns, Ne.symm hne])
        (epoch_accept fd peer s.trace)
  | refuse fd peer h =>
      refine hi.aside (refuse_trace s fd) ?_
      intro fd' y hy
      exact ⟨by simp [Obs.turns], y, (lookup_of_erase hy).2, rfl, rfl⟩
  | bounce fd hfd => exact hi.same rfl (bounce_trace s fd) (by simp [Obs.turns])
  | reap =>
      refine hi.same (reapClosed_tables s).1 (reapClosed_trace s) ?_
      intro o ho dest
      obtain ⟨fd, _, rfl⟩ := List.mem_map.mp ho
      rfl
  | timer resumeAt loop => exact hi.same rfl (List.append_nil _).symm (by simp)
  | load a => exact hi.same rfl (List.append_nil _).symm (by simp)

theorem Serve.epochs {fd : Int} {s s' : ExchangeServer} (hserve : Serve fd s s')
    (hi : Epochs s) : Epochs s' := by
  cases hserve with
  | act hact => exact hact.epochs hi
  | receive session bytes h hopen => exact hi.put h rfl ⟨rfl, rfl⟩ rfl (by simp [Obs.turns])
  | take session line tail h hline => exact hi.put h rfl ⟨rfl, rfl⟩ rfl (by simp [Obs.turns])
  | handled line => exact hi.same rfl rfl (by simp [Obs.turns])

theorem Move.epochs {s s' : ExchangeServer} (hmove : Move s s') (hi : Epochs s) :
    Epochs s' := by
  cases hmove with
  | serve hserve => exact hserve.epochs hi
  | env henv => exact henv.epochs hi

/-- **The session of `fd` is what the trace says of it**, in every state. -/
theorem Reachable.epoch {c : Setup} {s : ExchangeServer} (h : Reachable c s) {fd : Int}
    {session : ClientSession} (hlookup : s.sessions.lookup fd = some session) :
    Epoch fd session s.trace := by
  have hstart : Epochs (ExchangeServer.start c.backend c.listenerFd c.openFds c.clock) := by
    intro fd session h
    simp [ExchangeServer.start] at h
  exact Moves.invariant h (I := Epochs) (fun _ _ hmove hi => hmove.epochs hi) hstart fd session
    hlookup

end SocketExchange.Server
