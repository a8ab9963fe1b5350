import SocketExchange.Lib.Log

/-!
# Openings and closings in a log

Some entries of a log open something and some close it.  A log alternates if
nothing is opened that is open and nothing is closed that is not.  A log that
alternates and ends closed has one closing for each opening: the next one, and no
other before the next opening.
-/

namespace SocketExchange.Lib.Brackets

variable {α : Type*} (opens closes : α → Bool)

/-- Whether it is open after an entry. -/
def after (now : Bool) (x : α) : Bool :=
  if opens x then true else if closes x then false else now

/-- Whether it is open at the end of the log. -/
def isOpen (log : List α) : Bool := log.foldl (after opens closes) false

/-- It is opened only while closed, and closed only while open. -/
def Alternates (log : List α) : Prop :=
  Log.Each (fun before x => (opens x = true → isOpen opens closes before = false) ∧
    (closes x = true → isOpen opens closes before = true)) log

/-- It is closed once: by the first entry about it, and not again before it is
opened again. -/
def ClosedOnce (log : List α) : Prop :=
  ∃ mid x rest, log = mid ++ x :: rest ∧ closes x = true ∧
    (∀ y ∈ mid, opens y = false ∧ closes y = false) ∧
    ∀ mid' y rest', rest = mid' ++ y :: rest' → closes y = true → ∃ z ∈ mid', opens z = true

variable {opens closes}

theorem isOpen_concat (log : List α) (x : α) :
    isOpen opens closes (log ++ [x]) = after opens closes (isOpen opens closes log) x := by
  simp [isOpen]

/-- Entries that are about something else. -/
theorem isOpen_append_of_silent {log new : List α}
    (h : ∀ x ∈ new, opens x = false ∧ closes x = false) :
    isOpen opens closes (log ++ new) = isOpen opens closes log := by
  induction new using List.reverseRecOn with
  | nil => rw [List.append_nil]
  | append_singleton new x ih =>
      have hx := h x (by simp)
      rw [← List.append_assoc, isOpen_concat, ih fun y hy => h y (by simp [hy])]
      simp [after, hx.1, hx.2]

/-- What is closed stays closed until it is opened. -/
private theorem isOpen_append_of_unopened {log new : List α}
    (hlog : isOpen opens closes log = false) (h : ∀ x ∈ new, opens x = false) :
    isOpen opens closes (log ++ new) = false := by
  induction new using List.reverseRecOn with
  | nil => rwa [List.append_nil]
  | append_singleton new x ih =>
      rw [← List.append_assoc, isOpen_concat, ih fun y hy => h y (by simp [hy])]
      simp [after, h x (by simp)]

/-- The first closing of what is open. -/
private theorem first_closing {log new : List α} (halt : Alternates opens closes (log ++ new))
    (hopen : isOpen opens closes log = true)
    (hend : isOpen opens closes (log ++ new) = false) :
    ∃ mid x rest, new = mid ++ x :: rest ∧ closes x = true ∧ opens x = false ∧
      ∀ y ∈ mid, opens y = false ∧ closes y = false := by
  induction new generalizing log with
  | nil =>
      rw [List.append_nil, hopen] at hend
      cases hend
  | cons x new ih =>
      obtain ⟨hopens, _⟩ := halt log x new rfl
      have hx : opens x = false := by
        cases hx : opens x with
        | false => rfl
        | true =>
            rw [hopens hx] at hopen
            cases hopen
      cases hcloses : closes x with
      | true => exact ⟨[], x, new, rfl, hcloses, hx, by simp⟩
      | false =>
          have hsplit : log ++ x :: new = (log ++ [x]) ++ new := by simp
          rw [hsplit] at halt hend
          have hstill : isOpen opens closes (log ++ [x]) = true := by
            rw [isOpen_concat, hopen]
            simp [after, hx, hcloses]
          obtain ⟨mid, y, rest, rfl, hy, hy', hmid⟩ := ih halt hstill hend
          refine ⟨x :: mid, y, rest, rfl, hy, hy', fun z hz => ?_⟩
          rcases List.mem_cons.mp hz with rfl | hz
          · exact ⟨hx, hcloses⟩
          · exact hmid z hz

/-- **Every opening is closed exactly once.** -/
theorem Alternates.closedOnce {log : List α} (halt : Alternates opens closes log)
    (hend : isOpen opens closes log = false) {before rest : List α} {x : α}
    (hlog : log = before ++ x :: rest) (hx : opens x = true) :
    ClosedOnce opens closes rest := by
  have hsplit : log = (before ++ [x]) ++ rest := by simp [hlog]
  have hopen : isOpen opens closes (before ++ [x]) = true := by
    rw [isOpen_concat]
    simp [after, hx]
  rw [hsplit] at halt hend
  obtain ⟨mid, y, rest, rfl, hy, hy', hmid⟩ := first_closing halt hopen hend
  refine ⟨mid, y, rest, rfl, hy, hmid, fun mid' z rest' hrest hz => ?_⟩
  -- otherwise it is still closed when it is closed again
  by_contra hnone
  have hclosed : isOpen opens closes ((before ++ [x]) ++ mid ++ [y]) = false := by
    rw [isOpen_concat]
    simp [after, hy, hy']
  have hstill : isOpen opens closes ((before ++ [x]) ++ mid ++ [y] ++ mid') = false := by
    refine isOpen_append_of_unopened hclosed fun w hw => ?_
    cases hopens : opens w with
    | false => rfl
    | true => exact absurd ⟨w, hw, hopens⟩ hnone
  have hthere : isOpen opens closes ((before ++ [x]) ++ mid ++ [y] ++ mid') = true :=
    (halt _ z rest' (by simp [hrest])).2 hz
  rw [hstill] at hthere
  cases hthere

end SocketExchange.Lib.Brackets
