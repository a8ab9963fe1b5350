import SocketExchange.Lib.Brackets
import SocketExchange.Server.Handlers

/-!
# The life of a descriptor

A descriptor that `accept` returns is open until `close` is called on it, and the
server closes it in one of four places: at once if it cannot be made non-blocking or
cannot be registered, when it is reaped after its session was dropped, or when the
server shuts down.

Between its steps the server owns every descriptor it has accepted and not closed, in
one of two ways: under it there is a session, or it waits in `closed_fds_`.  So no
descriptor is closed twice and none is forgotten.
-/

namespace SocketExchange.Server

open SocketExchange.Lib
open SocketExchange.Lib.Bytes
open SocketExchange.Network
open SocketExchange.Protocol
open SocketExchange.Trading.OrderBook
open ExchangeServer

/-! ## Reading the trace -/

/-- `accept` has returned `fd`. -/
def Obs.opens (fd : Int) : Obs → Bool
  | .accepted dest => dest = fd
  | .bounced dest => dest = fd
  | _ => false

/-- `close` is called on `fd`. -/
def Obs.closes (fd : Int) : Obs → Bool
  | .closed dest => dest = fd
  | _ => false

/-- `fd` was accepted and has not been closed since. -/
def heldIn (fd : Int) (trace : List Obs) : Bool :=
  Brackets.isOpen (Obs.opens fd) (Obs.closes fd) trace

/-- `fd` is accepted only when it is not held, and closed only when it is. -/
def Alternating (fd : Int) (trace : List Obs) : Prop :=
  Brackets.Alternates (Obs.opens fd) (Obs.closes fd) trace

/-- No number is accepted and none is closed. -/
def Obs.keepsFds : Obs → Bool
  | .accepted _ => false
  | .bounced _ => false
  | .closed _ => false
  | _ => true

theorem opens_of_keepsFds {o : Obs} (h : o.keepsFds = true) (fd : Int) :
    o.opens fd = false ∧ o.closes fd = false := by
  cases o <;> first | exact ⟨rfl, rfl⟩ | cases h

section Append

variable {fd : Int} {trace : List Obs}

theorem heldIn_concat (o : Obs) : heldIn fd (trace ++ [o]) =
    if o.opens fd then true else if o.closes fd then false else heldIn fd trace :=
  Brackets.isOpen_concat trace o

theorem heldIn_append {new : List Obs} (h : ∀ o ∈ new, o.keepsFds = true) :
    heldIn fd (trace ++ new) = heldIn fd trace :=
  Brackets.isOpen_append_of_silent fun o ho => opens_of_keepsFds (h o ho) fd

theorem Alternating.append {new : List Obs} (halt : Alternating fd trace)
    (h : ∀ o ∈ new, o.keepsFds = true) : Alternating fd (trace ++ new) := by
  refine Log.Each.append halt fun o ho before => ?_
  obtain ⟨hopens, hcloses⟩ := opens_of_keepsFds (h o ho) fd
  rw [hopens, hcloses]
  simp

/-- A number that is not held is accepted. -/
theorem Alternating.accept {o : Obs} (halt : Alternating fd trace) (hcloses : o.closes fd = false)
    (hfree : o.opens fd = true → heldIn fd trace = false) : Alternating fd (trace ++ [o]) := by
  refine Log.Each.concat halt ⟨hfree, ?_⟩
  rw [hcloses]
  simp

/-- A number that is held is closed. -/
theorem Alternating.close (halt : Alternating fd trace) {dest : Int}
    (hheld : dest = fd → heldIn fd trace = true) : Alternating fd (trace ++ [.closed dest]) := by
  refine Log.Each.concat halt ⟨by simp [Obs.opens], ?_⟩
  intro hcloses
  exact hheld (of_decide_eq_true hcloses)

end Append

/-- Descriptors are closed one after the other. -/
theorem closeAll {trace : List Obs} {fds : List Int} (halt : ∀ fd, Alternating fd trace)
    (hnodup : fds.Nodup) (hheld : ∀ fd ∈ fds, heldIn fd trace = true) (fd : Int) :
    Alternating fd (trace ++ fds.map Obs.closed) ∧
      heldIn fd (trace ++ fds.map Obs.closed) = (heldIn fd trace && decide (fd ∉ fds)) := by
  induction fds generalizing trace with
  | nil => simpa using halt fd
  | cons dest fds ih =>
      obtain ⟨hnot, hnodup⟩ := List.nodup_cons.mp hnodup
      have hclose : ∀ fd, Alternating fd (trace ++ [.closed dest]) := by
        intro fd
        refine (halt fd).close ?_
        rintro rfl
        exact hheld dest (by simp)
      have hone : ∀ fd, heldIn fd (trace ++ [.closed dest]) =
          (heldIn fd trace && decide (fd ≠ dest)) := by
        intro fd
        rw [heldIn_concat]
        by_cases hfd : dest = fd
        · simp [Obs.opens, Obs.closes, hfd]
        · simp [Obs.opens, Obs.closes, hfd, Ne.symm hfd]
      have hrest : ∀ fd ∈ fds, heldIn fd (trace ++ [.closed dest]) = true := by
        intro fd hfd
        rw [hone, hheld fd (by simp [hfd])]
        refine decide_eq_true ?_
        rintro rfl
        exact hnot hfd
      obtain ⟨halt', hheld'⟩ := ih hclose hnodup hrest
      have hsplit : trace ++ (dest :: fds).map Obs.closed =
          (trace ++ [.closed dest]) ++ fds.map Obs.closed := by simp
      rw [hsplit]
      refine ⟨halt', ?_⟩
      rw [hheld', hone]
      by_cases hfd : fd = dest
      · simp [hfd]
      · simp [hfd]

/-! ## The invariant -/

/-- The descriptors that were open when the server started. -/
def Setup.initialFds (c : Setup) : List Int := c.listenerFd :: c.openFds

/-- What is open was open at the start, or is held by the server. -/
structure Descriptors (c : Setup) (s : ExchangeServer) : Prop where
  stays : ∀ fd ∈ c.initialFds, fd ∈ s.kernel.openFds
  client : ∀ fd, (s.sessions.lookup fd).isSome = true → fd ∉ c.initialFds
  closing : ∀ fd ∈ s.closedFds, fd ∉ c.initialFds
  held_iff : ∀ fd, heldIn fd s.trace = true ↔ fd ∈ s.kernel.openFds ∧ fd ∉ c.initialFds
  owned : ∀ fd ∈ s.kernel.openFds, fd ∈ c.initialFds ∨
    (s.sessions.lookup fd).isSome = true ∨ fd ∈ s.closedFds
  past : ∀ fd, Alternating fd s.trace

namespace Descriptors

variable {c : Setup} {s s' : ExchangeServer} (hi : Descriptors c s)

include hi

/-- Nothing is opened or closed, and no session comes or goes. -/
private theorem quiet (hs : ∀ fd, (s'.sessions.lookup fd).isSome = (s.sessions.lookup fd).isSome)
    (hc : s'.closedFds = s.closedFds) (ho : s'.kernel.openFds = s.kernel.openFds)
    {new : List Obs} (htrace : s'.trace = s.trace ++ new)
    (hnew : ∀ o ∈ new, o.keepsFds = true) : Descriptors c s' where
  stays := by
    rw [ho]
    exact hi.stays
  client := by
    intro fd
    rw [hs]
    exact hi.client fd
  closing := by
    rw [hc]
    exact hi.closing
  held_iff := by
    intro fd
    rw [htrace, heldIn_append hnew, ho]
    exact hi.held_iff fd
  owned := by
    intro fd
    rw [ho, hs, hc]
    exact hi.owned fd
  past := by
    intro fd
    rw [htrace]
    exact (hi.past fd).append hnew

private theorem put {fd : Int} {session session' : ClientSession}
    (h : s.sessions.lookup fd = some session) (hs : s'.sessions = s.sessions.insert fd session')
    (hc : s'.closedFds = s.closedFds) (ho : s'.kernel.openFds = s.kernel.openFds)
    {new : List Obs} (htrace : s'.trace = s.trace ++ new)
    (hnew : ∀ o ∈ new, o.keepsFds = true) : Descriptors c s' := by
  refine hi.quiet ?_ hc ho htrace hnew
  intro fd'
  rw [hs, lookup_insert]
  split
  · next heq => rw [heq, h]; rfl
  · rfl

private theorem same (hs : s'.sessions = s.sessions) (hc : s'.closedFds = s.closedFds)
    (ho : s'.kernel.openFds = s.kernel.openFds) {new : List Obs}
    (htrace : s'.trace = s.trace ++ new) (hnew : ∀ o ∈ new, o.keepsFds = true) :
    Descriptors c s' :=
  hi.quiet (fun fd => by rw [hs]) hc ho htrace hnew

/-- From the sessions to `closed_fds_`. -/
private theorem drop (fd : Int) (reason : DropReason) : Descriptors c (s.drop fd reason) := by
  cases h : s.sessions.lookup fd with
  | none =>
      rw [drop_of_lookup_none h]
      exact hi
  | some session =>
      have hclosed : (s.drop fd reason).closedFds = s.closedFds ++ [fd] := by
        simp only [ExchangeServer.drop, h]
      have hopen : (s.drop fd reason).kernel.openFds = s.kernel.openFds := by
        simp only [ExchangeServer.drop, h]
      have htrace := drop_trace h reason
      have hnew : ∀ o ∈ [Obs.dropped fd reason], o.keepsFds = true := by simp [Obs.keepsFds]
      refine ⟨?_, ?_, ?_, ?_, ?_, ?_⟩
      · rw [hopen]
        exact hi.stays
      · intro fd' hfd'
        rw [drop_sessions] at hfd'
        split at hfd'
        · cases hfd'
        · exact hi.client fd' hfd'
      · intro fd' hfd'
        rw [hclosed, List.mem_append, List.mem_singleton] at hfd'
        rcases hfd' with hfd' | rfl
        · exact hi.closing fd' hfd'
        · exact hi.client fd' (by rw [h]; rfl)
      · intro fd'
        rw [htrace, heldIn_append hnew, hopen]
        exact hi.held_iff fd'
      · intro fd' hfd'
        rw [hopen] at hfd'
        rw [hclosed, drop_sessions, List.mem_append, List.mem_singleton]
        by_cases hne : fd' = fd
        · exact Or.inr (Or.inr (Or.inr hne))
        · rw [if_neg hne]
          rcases hi.owned fd' hfd' with hfd' | hfd' | hfd'
          · exact Or.inl hfd'
          · exact Or.inr (Or.inl hfd')
          · exact Or.inr (Or.inr (Or.inl hfd'))
      · intro fd'
        rw [htrace]
        exact (hi.past fd').append hnew

/-- A number that is not open is not held. -/
theorem not_held {fd : Int} (hfd : fd ∉ s.kernel.openFds) : heldIn fd s.trace = false := by
  cases hheld : heldIn fd s.trace with
  | false => rfl
  | true => exact absurd ((hi.held_iff fd).mp hheld).1 hfd

private theorem accept {fd : Int} (peer : Bytes) (hfd : fd ∉ s.kernel.openFds) :
    Descriptors c (((s.openFd fd).putSession fd { fd := fd, peer := peer }).observe
      (.accepted fd)) := by
  have hnew : fd ∉ c.initialFds := fun hmem => hfd (hi.stays fd hmem)
  have hsessions : ∀ fd', ((((s.openFd fd).putSession fd { fd := fd, peer := peer }).observe
      (.accepted fd)).sessions.lookup fd').isSome =
        if fd' = fd then true else (s.sessions.lookup fd').isSome := by
    intro fd'
    show ((s.sessions.insert fd { fd := fd, peer := peer }).lookup fd').isSome = _
    rw [lookup_insert]
    split <;> rfl
  refine ⟨fun fd' hfd' => List.mem_cons_of_mem _ (hi.stays fd' hfd'), ?_, hi.closing, ?_, ?_, ?_⟩
  · intro fd' hfd'
    rw [hsessions] at hfd'
    split at hfd'
    · next heq => rw [heq]; exact hnew
    · exact hi.client fd' hfd'
  · intro fd'
    show heldIn fd' (s.trace ++ [.accepted fd]) = true ↔ fd' ∈ fd :: s.kernel.openFds ∧ _
    rw [heldIn_concat, List.mem_cons]
    by_cases hne : fd = fd'
    · subst hne
      simpa [Obs.opens] using hnew
    · simp only [Obs.opens, Obs.closes, hne, Ne.symm hne, decide_false, Bool.false_eq_true,
        if_false, false_or]
      exact hi.held_iff fd'
  · intro fd' hfd'
    rw [hsessions]
    rcases List.mem_cons.mp hfd' with rfl | hfd'
    · exact Or.inr (Or.inl (if_pos rfl))
    · rcases hi.owned fd' hfd' with hinit | hsome | hclosed
      · exact Or.inl hinit
      · exact Or.inr (Or.inl (by rw [hsome]; split <;> rfl))
      · exact Or.inr (Or.inr hclosed)
  · intro fd'
    refine (hi.past fd').accept rfl ?_
    intro hopens
    rw [← of_decide_eq_true hopens]
    exact hi.not_held hfd

/-- Descriptors the server holds are closed, and are gone from its tables. -/
theorem close {fds : List Int} (hnodup : fds.Nodup)
    (hheld : ∀ fd ∈ fds, heldIn fd s.trace = true)
    (hs : ∀ fd, (s'.sessions.lookup fd).isSome = true ↔
      (s.sessions.lookup fd).isSome = true ∧ fd ∉ fds)
    (hc : ∀ fd, fd ∈ s'.closedFds ↔ fd ∈ s.closedFds ∧ fd ∉ fds)
    (ho : ∀ fd, fd ∈ s'.kernel.openFds ↔ fd ∈ s.kernel.openFds ∧ fd ∉ fds)
    (htrace : s'.trace = s.trace ++ fds.map Obs.closed) : Descriptors c s' where
  stays := by
    intro fd hfd
    refine (ho fd).mpr ⟨hi.stays fd hfd, fun hmem => ?_⟩
    exact ((hi.held_iff fd).mp (hheld fd hmem)).2 hfd
  client := fun fd hfd => hi.client fd ((hs fd).mp hfd).1
  closing := fun fd hfd => hi.closing fd ((hc fd).mp hfd).1
  held_iff := by
    intro fd
    rw [htrace, (closeAll hi.past hnodup hheld fd).2, Bool.and_eq_true, hi.held_iff, ho,
      decide_eq_true_eq]
    exact and_right_comm
  owned := by
    intro fd hfd
    obtain ⟨hopen, hnot⟩ := (ho fd).mp hfd
    rw [hs, hc]
    rcases hi.owned fd hopen with hinit | hsome | hclosed
    · exact Or.inl hinit
    · exact Or.inr (Or.inl ⟨hsome, hnot⟩)
    · exact Or.inr (Or.inr ⟨hclosed, hnot⟩)
  past := by
    intro fd
    rw [htrace]
    exact (closeAll hi.past hnodup hheld fd).1

/-- What a session is stored under is held, and so is what waits to be closed. -/
theorem held (hb : Base s) {fd : Int}
    (h : (s.sessions.lookup fd).isSome = true ∨ fd ∈ s.closedFds) :
    heldIn fd s.trace = true := by
  rw [hi.held_iff]
  rcases h with h | h
  · obtain ⟨session, hsession⟩ := Option.isSome_iff_exists.mp h
    exact ⟨hb.isOpen fd session hsession, hi.client fd h⟩
  · exact ⟨hb.closedOpen fd h, hi.closing fd h⟩

private theorem refuse (hb : Base s) {fd : Int} {session : ClientSession}
    (h : s.sessions.lookup fd = some session) :
    Descriptors c
      (closeFd ({ s with sessions := s.sessions.erase fd }.observe (.refused fd)) fd) := by
  have hobserved : Descriptors c (s.observe (.refused fd)) :=
    hi.same rfl rfl rfl rfl (by simp [Obs.keepsFds])
  have hb' : Base (s.observe (.refused fd)) :=
    ⟨hb.own, hb.nonneg, hb.isOpen, hb.closedOpen, hb.closedGone, hb.closedNodup⟩
  have hsome : (s.sessions.lookup fd).isSome = true := by
    rw [h]
    rfl
  refine hobserved.close (List.nodup_singleton fd) ?_ ?_ ?_ ?_ rfl
  · intro fd' hfd'
    rw [List.mem_singleton.mp hfd']
    exact hobserved.held hb' (Or.inl hsome)
  · intro fd'
    show ((s.sessions.erase fd).lookup fd').isSome = true ↔
      (s.sessions.lookup fd').isSome = true ∧ _
    rw [lookup_erase, List.mem_singleton]
    by_cases hne : fd' = fd
    · simp [hne]
    · simp [hne]
  · intro fd'
    show fd' ∈ s.closedFds ↔ fd' ∈ s.closedFds ∧ _
    rw [List.mem_singleton, iff_self_and]
    rintro hmem rfl
    rw [hb.closedGone fd' hmem] at h
    cases h
  · intro fd'
    show fd' ∈ s.kernel.openFds.filter (· ≠ fd) ↔ _
    simp [observe]

private theorem reap (hb : Base s) : Descriptors c s.reapClosed := by
  refine hi.close hb.closedNodup (fun fd hfd => hi.held hb (Or.inr hfd)) ?_ ?_
    (mem_reapClosed_open s) (reapClosed_trace s)
  · intro fd
    rw [(reapClosed_tables s).1, iff_self_and]
    intro hsome hmem
    rw [hb.closedGone fd hmem] at hsome
    cases hsome
  · intro fd
    exact iff_of_false List.not_mem_nil fun h => h.2 h.1

/-- Opened, and closed at once. -/
private theorem bounce {fd : Int} (hfd : fd ∉ s.kernel.openFds) :
    Descriptors c (((s.openFd fd).observe (.bounced fd)).closeFd fd) := by
  have hopen : (((s.openFd fd).observe (.bounced fd)).closeFd fd).kernel.openFds =
      s.kernel.openFds := by
    show (fd :: s.kernel.openFds).filter (· ≠ fd) = s.kernel.openFds
    rw [List.filter_cons_of_neg (by simp), List.filter_eq_self]
    intro x hx
    refine decide_eq_true ?_
    rintro rfl
    exact hfd hx
  have hnot := hi.not_held hfd
  have htrace : (((s.openFd fd).observe (.bounced fd)).closeFd fd).trace =
      (s.trace ++ [.bounced fd]) ++ [.closed fd] := rfl
  refine ⟨?_, hi.client, hi.closing, ?_, ?_, ?_⟩
  · rw [hopen]
    exact hi.stays
  · intro fd'
    rw [hopen, ← hi.held_iff fd', htrace, heldIn_concat, heldIn_concat]
    by_cases hne : fd = fd'
    · subst hne
      simp [Obs.opens, Obs.closes, hnot]
    · simp [Obs.opens, Obs.closes, hne]
  · rw [hopen]
    exact hi.owned
  · intro fd'
    rw [htrace]
    refine ((hi.past fd').accept rfl ?_).close ?_
    · intro hopens
      rw [← of_decide_eq_true hopens]
      exact hnot
    · rintro rfl
      simp [heldIn_concat, Obs.opens]

end Descriptors

theorem Act.descriptors {c : Setup} {fd : Int} {s s' : ExchangeServer} (hact : Act fd s s')
    (hi : Descriptors c s) : Descriptors c s' := by
  cases hact with
  | queue dest session message h howed =>
      exact hi.put h rfl rfl rfl rfl (by simp [Obs.keepsFds])
  | write dest session h => exact hi.put h rfl rfl rfl rfl (by simp [Obs.keepsFds])
  | drop dest reason h => exact hi.drop dest reason
  | relist loop => exact hi.same rfl rfl rfl (List.append_nil _).symm (by simp)
  | leave session reason h => exact hi.put h rfl rfl rfl rfl (by simp [Obs.keepsFds])
  | interest session wantRead wantWrite h =>
      exact hi.put h rfl rfl rfl (List.append_nil _).symm (by simp)
  | login session username h hrole hout hfree =>
      exact hi.put h rfl rfl rfl rfl (by simp [Obs.keepsFds])
  | subscribe session instrument h hrole =>
      exact hi.put h rfl rfl rfl rfl (by simp [Obs.keepsFds])
  | unsubscribe session instrument h hrole hin =>
      exact hi.put h rfl rfl rfl rfl (by simp [Obs.keepsFds])
  | submit session cmd h hrole hin hcmd =>
      exact hi.same rfl rfl rfl rfl (by simp [Obs.keepsFds])
  | cancel session orderId h hin hok => exact hi.same rfl rfl rfl rfl (by simp [Obs.keepsFds])

theorem Env.descriptors {c : Setup} {s s' : ExchangeServer} (henv : Env s s') (hb : Base s)
    (hi : Descriptors c s) : Descriptors c s' := by
  cases henv with
  | accept fd peer hfd h hnonneg => exact hi.accept peer hfd
  | refuse fd peer h => exact hi.refuse hb h
  | bounce fd hfd => exact hi.bounce hfd
  | reap => exact hi.reap hb
  | timer resumeAt loop => exact hi.same rfl rfl rfl (List.append_nil _).symm (by simp)
  | load a => exact hi.same rfl rfl rfl (List.append_nil _).symm (by simp)

theorem Move.descriptors {c : Setup} {s s' : ExchangeServer} (hmove : Move s s') (hb : Base s)
    (hi : Descriptors c s) : Descriptors c s' := by
  cases hmove with
  | serve hserve =>
      cases hserve with
      | act hact => exact hact.descriptors hi
      | receive session bytes h hopen => exact hi.put h rfl rfl rfl rfl (by simp [Obs.keepsFds])
      | take session line tail h hline => exact hi.put h rfl rfl rfl rfl (by simp [Obs.keepsFds])
      | handled line => exact hi.same rfl rfl rfl rfl (by simp [Obs.keepsFds])
  | env henv => exact henv.descriptors hb hi

/-- **The server owns what it has accepted**, in every state. -/
theorem Reachable.descriptors {c : Setup} {s : ExchangeServer} (h : Reachable c s) :
    Descriptors c s := by
  have hstart : Descriptors c
      (ExchangeServer.start c.backend c.listenerFd c.openFds c.clock) := by
    refine ⟨fun fd hfd => hfd, ?_, ?_, ?_, fun fd hfd => Or.inl hfd, fun fd => Log.each_nil⟩
    · intro fd hfd
      simp [ExchangeServer.start] at hfd
    · intro fd hfd
      cases hfd
    · intro fd
      exact iff_of_false (fun hheld => by cases hheld) fun hopen => hopen.2 hopen.1
  have hboth := Moves.invariant h (I := fun s => Base s ∧ Descriptors c s)
    (fun _ _ hmove hi => ⟨hmove.base hi.1, hmove.descriptors hi.1 hi.2⟩) ⟨base_start c, hstart⟩
  exact hboth.2

end SocketExchange.Server
