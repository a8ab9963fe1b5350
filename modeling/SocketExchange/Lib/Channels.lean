import Mathlib.Logic.Function.Basic
import SocketExchange.Lib.Loop

/-!
# Independent channels

A sender keeps one channel per destination.  Handing a message to a channel
gives the channel's next state, or closes it for good.  Channels do not see each
other, so what becomes of one of them is a function of its own messages alone
(`run_post_apply`), and messages to different destinations are all taken, or not,
as the channels were at the start (`taken_of_nodup`).
-/

namespace SocketExchange.Lib.Channels

variable {κ σ μ : Type*} [DecidableEq κ] (send : σ → μ → Option σ)

/-- One message to one channel. -/
def post (ch : κ → Option σ) (p : κ × μ) : κ → Option σ :=
  Function.update ch p.1 ((ch p.1).bind fun x => send x p.2)

/-- What a list of messages makes of one channel. -/
def feed (x : Option σ) (messages : List μ) : Option σ :=
  Loop.run (fun x m => x.bind fun y => send y m) x messages

/-- The messages of a list that are for one destination. -/
def messagesFor (k : κ) (ps : List (κ × μ)) : List μ :=
  ps.filterMap fun p => if p.1 = k then some p.2 else none

/-- The messages of a list that find their channel open. -/
def taken : (κ → Option σ) → List (κ × μ) → List (κ × μ)
  | _, [] => []
  | ch, p :: ps => (if (ch p.1).isSome then [p] else []) ++ taken (post send ch p) ps

/-- The messages one channel takes before it is closed. -/
def heard : Option σ → List μ → List μ
  | none, _ => []
  | some _, [] => []
  | some x, m :: messages => m :: heard (send x m) messages

variable {send}

theorem feed_none (messages : List μ) : feed send none messages = none := by
  induction messages with
  | nil => rfl
  | cons m messages ih => exact ih

theorem feed_append (x : Option σ) (ms ms' : List μ) :
    feed send x (ms ++ ms') = feed send (feed send x ms) ms' :=
  Loop.run_append _ x ms ms'

theorem post_apply (ch : κ → Option σ) (p : κ × μ) (k : κ) :
    post send ch p k = if k = p.1 then (ch p.1).bind fun x => send x p.2 else ch k := by
  by_cases h : k = p.1
  · rw [if_pos h, h, post, Function.update_self]
  · rw [if_neg h, post, Function.update_of_ne h]

theorem isSome_of_post {ch : κ → Option σ} {p : κ × μ} {k : κ}
    (h : (post send ch p k).isSome = true) : (ch k).isSome = true := by
  rw [post_apply] at h
  split at h
  · next hk =>
    rw [hk]
    cases hch : ch p.1 with
    | none => rw [hch] at h; exact h
    | some x => rfl
  · exact h

theorem messagesFor_cons (k : κ) (p : κ × μ) (ps : List (κ × μ)) :
    messagesFor k (p :: ps) =
      if k = p.1 then p.2 :: messagesFor k ps else messagesFor k ps := by
  by_cases hk : k = p.1
  · simp [messagesFor, hk]
  · simp [messagesFor, hk, Ne.symm hk]

theorem messagesFor_append (k : κ) (ps qs : List (κ × μ)) :
    messagesFor k (ps ++ qs) = messagesFor k ps ++ messagesFor k qs :=
  List.filterMap_append

/-- The same message to each of a list of destinations. -/
theorem messagesFor_map (k : κ) (m : μ) {dests : List κ} (h : dests.Nodup) :
    messagesFor k (dests.map fun dest => (dest, m)) = if k ∈ dests then [m] else [] := by
  induction dests with
  | nil => rfl
  | cons dest dests ih =>
      rw [List.nodup_cons] at h
      rw [List.map_cons, messagesFor_cons, ih h.2]
      by_cases hk : k = dest
      · subst hk
        simp [h.1]
      · simp [hk]

/-- **Channels are independent.** -/
theorem run_post_apply (ch : κ → Option σ) (ps : List (κ × μ)) (k : κ) :
    Loop.run (post send) ch ps k = feed send (ch k) (messagesFor k ps) := by
  induction ps generalizing ch with
  | nil => rfl
  | cons p ps ih =>
      rw [Loop.run_cons, ih, post_apply, messagesFor_cons]
      by_cases hk : k = p.1
      · rw [if_pos hk, if_pos hk, hk]
        rfl
      · rw [if_neg hk, if_neg hk]

theorem taken_append (ch : κ → Option σ) (ps qs : List (κ × μ)) :
    taken send ch (ps ++ qs) = taken send ch ps ++ taken send (Loop.run (post send) ch ps) qs := by
  induction ps generalizing ch with
  | nil => rfl
  | cons p ps ih => rw [List.cons_append, taken, ih, taken, Loop.run_cons, List.append_assoc]

theorem taken_sublist (ch : κ → Option σ) (ps : List (κ × μ)) :
    (taken send ch ps).Sublist ps := by
  induction ps generalizing ch with
  | nil => exact List.Sublist.refl _
  | cons p ps ih =>
      rw [taken]
      split
      · exact (ih _).cons_cons p
      · exact (ih _).cons p

/-- **One message each.**  Whether a message is taken was decided beforehand. -/
theorem taken_of_nodup {ch : κ → Option σ} {ps : List (κ × μ)}
    (h : (ps.map Prod.fst).Nodup) :
    taken send ch ps = ps.filter fun p => (ch p.1).isSome := by
  induction ps generalizing ch with
  | nil => rfl
  | cons p ps ih =>
      rw [List.map_cons, List.nodup_cons] at h
      have hsame : ps.filter (fun q => (post send ch p q.1).isSome) =
          ps.filter fun q => (ch q.1).isSome := by
        refine List.filter_congr fun q hq => ?_
        have hne : q.1 ≠ p.1 := by
          intro heq
          exact h.1 (heq ▸ List.mem_map_of_mem hq)
        rw [post_apply, if_neg hne]
      rw [taken, ih h.2, hsame, List.filter_cons]
      split <;> rfl

/-! ## What one destination gets -/

@[simp] theorem heard_none (messages : List μ) : heard send none messages = [] := by
  cases messages <;> rfl

@[simp] theorem heard_nil (x : Option σ) : heard send x [] = [] := by
  cases x <;> rfl

theorem heard_append (x : Option σ) (ms ms' : List μ) :
    heard send x (ms ++ ms') = heard send x ms ++ heard send (feed send x ms) ms' := by
  induction ms generalizing x with
  | nil => simp [feed]
  | cons m ms ih =>
      cases x with
      | none => rw [feed_none, heard_none, heard_none, heard_none, List.append_nil]
      | some y =>
          rw [List.cons_append, heard, heard, ih, List.cons_append]
          rfl

/-- A channel takes messages in order and stops for good. -/
theorem heard_prefix (x : Option σ) (messages : List μ) : heard send x messages <+: messages := by
  induction messages generalizing x with
  | nil => simp
  | cons m messages ih =>
      cases x with
      | none => exact List.nil_prefix
      | some y => exact (List.prefix_cons_inj m).mpr (ih _)

/-- A channel that is still open has taken everything. -/
theorem heard_of_open {x : Option σ} {messages : List μ}
    (h : (feed send x messages).isSome = true) : heard send x messages = messages := by
  induction messages generalizing x with
  | nil => exact heard_nil x
  | cons m messages ih =>
      cases x with
      | none => rw [feed_none] at h; cases h
      | some y => exact congrArg (m :: ·) (ih h)

/-- **What is taken for a destination is what its own channel takes.** -/
theorem messagesFor_taken (ch : κ → Option σ) (ps : List (κ × μ)) (k : κ) :
    messagesFor k (taken send ch ps) = heard send (ch k) (messagesFor k ps) := by
  induction ps generalizing ch with
  | nil => exact (heard_nil _).symm
  | cons p ps ih =>
      rw [taken, messagesFor_append, ih, post_apply, messagesFor_cons]
      by_cases hk : k = p.1
      · rw [if_pos hk, if_pos hk, hk]
        cases hch : ch p.1 with
        | none => simp [messagesFor]
        | some x => simp [messagesFor, heard]
      · rw [if_neg hk, if_neg hk]
        split
        · simp [messagesFor, Ne.symm hk]
        · rfl

end SocketExchange.Lib.Channels
