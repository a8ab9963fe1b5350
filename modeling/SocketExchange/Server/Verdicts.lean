import SocketExchange.Server.Replay
import SocketExchange.Trading.Holdings

/-!
# What a line can do at the exchange

`Exchange.hear` branches over the command, over who sent it and over what is in the
market.  What comes out of it is one of five things, and `Outcome` lists them with all
that later proofs need to know.

The state of the exchange is then easy to follow over a whole run: its market is one that
a book can stand for, and every order in it belongs to somebody who is there.
-/

namespace SocketExchange.Server

open SocketExchange.Lib
open SocketExchange.Lib.Bytes
open SocketExchange.Protocol
open SocketExchange.Trading.OrderBook
open ExchangeServer

/-! ## Reasons -/

/-- A reason that does not begin like the one for a line that is too long. -/
def AnswersLine (reason : Bytes) : Prop := reason.head? ≠ (ascii "Message").head?

instance (reason : Bytes) : Decidable (AnswersLine reason) := inferInstanceAs (Decidable (_ ≠ _))

theorem answersLine_append {text : Bytes} (h : AnswersLine text) (hne : text ≠ [])
    (more : Bytes) : AnswersLine (text ++ more) := by
  cases text with
  | nil => exact absurd rfl hne
  | cons c text => exact h

theorem AnswersLine.ne_oversized {reason : Bytes} (h : AnswersLine reason) :
    .error reason ≠ oversizedMessage := by
  intro heq
  have hreason : reason = ascii "Message exceeds " ++ decimal kMaxLineBytes ++
      ascii " bytes without a newline" := Response.error.inj heq
  rw [hreason] at h
  exact h rfl

theorem answersLine_verb (type : CommandType) (more : Bytes) :
    AnswersLine (verb type ++ more) := by
  cases type <;> exact answersLine_append (by decide) (by decide) more

theorem answersLine_usage (more : Bytes) : AnswersLine (ascii "Usage: " ++ more) :=
  answersLine_append (by decide) (by decide) more

theorem answersLine_instrument (more : Bytes) : AnswersLine (ascii "Unknown instrument " ++ more) :=
  answersLine_append (by decide) (by decide) more

theorem reject_reason {cmd : ParsedCommand} {reason : Bytes} (h : AnswersLine reason) :
    AnswersLine (reject cmd reason).error := h

section Parsing

variable {cmd : ParsedCommand} (h : AnswersLine cmd.error)

include h

theorem parseLogin_reason : AnswersLine (parseLogin cmd).error := by
  unfold parseLogin
  split
  · exact reject_reason (by decide)
  · split
    · exact reject_reason (by decide)
    · exact h

theorem parseOrder_reason : AnswersLine (parseOrder cmd).error := by
  unfold parseOrder
  split
  · rw [List.append_assoc]
    exact answersLine_usage _
  · split
    · exact answersLine_instrument _
    · split
      · exact reject_reason (by decide)
      · dsimp only
        split
        · exact reject_reason (by decide)
        · split
          · exact reject_reason (by decide)
          · split
            · exact reject_reason (by decide)
            · exact h

theorem parseCancel_reason : AnswersLine (parseCancel cmd).error := by
  unfold parseCancel
  split
  · exact reject_reason (by decide)
  · split
    · exact reject_reason (by decide)
    · exact h

theorem parseSubscription_reason : AnswersLine (parseSubscription cmd).error := by
  unfold parseSubscription
  split
  · rw [List.append_assoc]
    exact answersLine_usage _
  · split
    · exact answersLine_instrument _
    · exact h

theorem parseQuit_reason : AnswersLine (parseQuit cmd).error := by
  unfold parseQuit
  split
  · exact reject_reason (by decide)
  · exact h

end Parsing

/-- **No reason of the parser reads like the one for a line that is too long.** -/
theorem parse_reason (line : Bytes) : AnswersLine (parse line).error := by
  unfold parse
  split
  · decide
  · next token args htokens =>
    have hnone : AnswersLine ({ type := verbOf token, args := args } : ParsedCommand).error :=
      (by decide : AnswersLine [])
    dsimp only
    split
    · exact reject_reason (by decide)
    · exact parseLogin_reason hnone
    · exact parseOrder_reason hnone
    · exact parseOrder_reason hnone
    · exact parseCancel_reason hnone
    · exact parseSubscription_reason hnone
    · exact parseSubscription_reason hnone
    · exact parseQuit_reason hnone

/-! ## Verdicts -/

/-- What may come of a line that `fd` says. -/
inductive Outcome (x : Exchange) (fd : Int) (line : Bytes) : Verdict → Prop where
  | silent (h : x.members.lookup fd = none ∨ Quits line) : Outcome x fd line { exchange := x }
  | refused (hquit : ¬ Quits line) (reason : Bytes) (h : AnswersLine reason) :
      Outcome x fd line (x.refuse reason)
  | enrolled (hquit : ¬ Quits line) (hthere : x.members.lookup fd ≠ none) (member : Member) :
      Outcome x fd line { exchange := x.enrol fd member, reply := some .ok }
  | ordered (hquit : ¬ Quits line) (hthere : x.members.lookup fd ≠ none)
      (hpos : 0 < (parse line).quantity) :
      Outcome x fd line (x.order fd (sideOf (parse line).type) (parse line))
  | cancelled (hquit : ¬ Quits line)
      (h : x.market.cancelAnswer (parse line).orderId fd = .cancelled) :
      Outcome x fd line
        { exchange := { x with market := x.market.step (.cancelOrder (parse line).orderId fd) }
          reply := some (.orderCancelled (parse line).orderId) }

section Hear

variable {x : Exchange} {fd : Int} (member : Member) {line : Bytes} (hquit : ¬ Quits line)
  (hthere : x.members.lookup fd ≠ none)

include hquit

theorem misplaced_outcome (actual : Bytes) :
    Outcome x fd line (x.misplaced (parse line).type actual) := by
  refine .refused hquit _ ?_
  rw [List.append_assoc, List.append_assoc]
  exact answersLine_verb _ _

theorem watch_outcome {act : List Bytes → ParsedCommand → Verdict}
    (h : ∀ instruments, Outcome x fd line (act instruments (parse line))) :
    Outcome x fd line (x.watch member (parse line) act) := by
  unfold Exchange.watch
  split
  · exact misplaced_outcome hquit _
  · exact h _
  · exact h _

theorem trade_outcome {act : Verdict} (h : Outcome x fd line act) :
    Outcome x fd line (x.trade member (parse line) act) := by
  unfold Exchange.trade
  split
  · exact misplaced_outcome hquit _
  · exact .refused hquit _ (by decide)
  · exact h

theorem cancel_outcome : Outcome x fd line (x.cancel fd (parse line)) := by
  unfold Exchange.cancel
  cases hanswer : x.market.cancelAnswer (parse line).orderId fd with
  | cancelled => exact .cancelled hquit hanswer
  | refused reason =>
      refine .refused hquit _ ?_
      unfold Market.cancelAnswer at hanswer
      split at hanswer
      · rw [← Answer.refused.inj hanswer]
        exact answersLine_append (by decide) (by decide) _
      · split at hanswer
        · rw [← Answer.refused.inj hanswer, List.append_assoc]
          exact answersLine_append (by decide) (by decide) _
        · cases hanswer
  | accepted orderId executions | removed =>
      unfold Market.cancelAnswer at hanswer
      split at hanswer
      · cases hanswer
      · split at hanswer <;> cases hanswer

include hthere

theorem login_outcome : Outcome x fd line (x.login fd member (parse line)) := by
  unfold Exchange.login
  split
  · exact misplaced_outcome hquit _
  · exact .refused hquit _ (answersLine_append (by decide) (by decide) _)
  · split
    · refine .refused hquit _ ?_
      rw [List.append_assoc]
      exact answersLine_append (by decide) (by decide) _
    · exact .enrolled hquit hthere _

theorem subscribe_outcome (instruments : List Bytes) :
    Outcome x fd line (x.subscribe fd instruments (parse line)) := .enrolled hquit hthere _

theorem unsubscribe_outcome (instruments : List Bytes) :
    Outcome x fd line (x.unsubscribe fd instruments (parse line)) := by
  unfold Exchange.unsubscribe
  split
  · exact .refused hquit _ (answersLine_append (by decide) (by decide) _)
  · exact .enrolled hquit hthere _

end Hear

theorem hear_outcome {x : Exchange} {fd : Int} (hthere : x.members.lookup fd ≠ none)
    (member : Member) (line : Bytes) : Outcome x fd line (x.hear fd member line) := by
  by_cases hquit : Quits line
  · rw [hear_quit hquit]
    exact .silent (Or.inr hquit)
  · unfold Exchange.hear
    dsimp only
    by_cases hvalid : (parse line).valid = true
    · rw [if_neg (by simp [hvalid])]
      cases htype : (parse line).type with
      | quit => exact absurd ⟨hvalid, htype⟩ hquit
      | login => exact login_outcome member hquit hthere
      | subscribe => exact watch_outcome member hquit (subscribe_outcome hquit hthere)
      | unsubscribe => exact watch_outcome member hquit (unsubscribe_outcome hquit hthere)
      | buy =>
          have horder : Outcome x fd line (x.order fd (sideOf (parse line).type) (parse line)) :=
            .ordered hquit hthere (parse_order_pos hvalid (Or.inl htype)).1
          rw [htype] at horder
          exact trade_outcome member hquit horder
      | sell =>
          have horder : Outcome x fd line (x.order fd (sideOf (parse line).type) (parse line)) :=
            .ordered hquit hthere (parse_order_pos hvalid (Or.inr htype)).1
          rw [htype] at horder
          exact trade_outcome member hquit horder
      | cancel => exact trade_outcome member hquit (cancel_outcome hquit)
      | unknown => exact .refused hquit _ (by decide)
    · rw [if_pos (by simp [hvalid])]
      exact .refused hquit _ (parse_reason line)

/-- **One of five things comes of a line.** -/
theorem verdict_outcome (x : Exchange) (fd : Int) (line : Bytes) :
    Outcome x fd line (x.verdict fd line) := by
  rw [Exchange.verdict]
  cases hmember : x.members.lookup fd with
  | none => exact .silent (Or.inl hmember)
  | some member => exact hear_outcome (by simp [hmember]) member line

/-! ## The exchange over a whole run -/

/-- The market is one that a book can stand for, and every order in it belongs to somebody
who is there. -/
structure InOrder (x : Exchange) : Prop where
  sound : x.market.Sound
  owners : ∀ y ∈ x.market.orders, x.members.lookup y.ownerFd ≠ none

theorem inOrder_start : InOrder exchange.start := ⟨sound_empty, fun _ hy => by cases hy⟩

section InOrder

variable {x : Exchange} (h : InOrder x)

include h

theorem InOrder.enrol (fd : Int) (member : Member) : InOrder (x.enrol fd member) where
  sound := h.sound
  owners := by
    intro y hy
    rw [lookup_enrol]
    split
    · exact Option.some_ne_none _
    · exact h.owners y hy

theorem InOrder.leaves (fd : Int) : InOrder (x.next (.leaves fd)) where
  sound := h.sound.removeOrdersOf fd
  owners := by
    intro y hy
    obtain ⟨hy, howner⟩ := List.mem_filter.mp hy
    have hne : y.ownerFd ≠ fd := by simpa using howner
    show (x.members.erase fd).lookup y.ownerFd ≠ none
    rw [AList.lookup_erase_ne hne]
    exact h.owners y hy

theorem InOrder.outcome {fd : Int} {line : Bytes} {v : Verdict} (hv : Outcome x fd line v) :
    InOrder v.exchange := by
  cases hv with
  | silent => exact h
  | refused => exact h
  | enrolled _ _ member => exact h.enrol fd member
  | ordered _ hthere =>
      refine ⟨h.sound.addOrder _ _ _ _ _, fun y hy => ?_⟩
      rcases Market.mem_addOrder hy with ⟨z, hz, _, howner⟩ | ⟨_, howner⟩
      · rw [howner]
        exact h.owners z hz
      · rw [howner]
        exact hthere
  | cancelled =>
      exact ⟨h.sound.cancelOrder _ _, fun y hy => h.owners y (List.mem_of_mem_filter hy)⟩

theorem InOrder.next (happening : Happening) : InOrder (x.next happening) := by
  cases happening with
  | joins fd => exact h.enrol fd .guest
  | leaves fd => exact h.leaves fd
  | speaks fd line => exact h.outcome (verdict_outcome x fd line)

end InOrder

/-- **The exchange is in order whatever happens.** -/
theorem replay_inOrder (trace : List Obs) : InOrder (replay trace) :=
  Loop.run_invariant (I := InOrder) (P := fun _ => True) (fun _ i _ h => h.next i)
    inOrder_start fun _ _ => trivial

end SocketExchange.Server
