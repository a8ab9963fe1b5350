import Mathlib.Data.List.Basic
import Mathlib.Data.List.Induction

/-!
# Logs

A log is a list that grows at its end.  `since p log` is what was written after
the last entry that satisfies `p`: the part of the log that belongs to the
present epoch.  `Each P log` says of every entry, given what was written before
it, that it was in order when it was written.  What is written later cannot
change that, so `Each` is an invariant with one obligation per new entry.
-/

namespace SocketExchange.Lib.Log

variable {α : Type*} (p : α → Bool)

/-- The entries after the last one that satisfies `p`, or all of them. -/
def since (log : List α) : List α :=
  log.foldl (fun acc x => if p x then [] else acc ++ [x]) []

theorem since_concat (log : List α) (x : α) :
    since p (log ++ [x]) = if p x then [] else since p log ++ [x] := by
  simp [since]

/-- The present epoch is the end of the log. -/
theorem since_isSuffix (log : List α) : since p log <:+ log := by
  induction log using List.reverseRecOn with
  | nil => exact List.suffix_rfl
  | append_singleton log x ih =>
      rw [since_concat]
      split
      · exact List.nil_suffix
      · obtain ⟨before, hlog⟩ := ih
        exact ⟨before, by rw [← List.append_assoc, hlog]⟩

variable {p}

theorem since_append {log new : List α} (h : ∀ x ∈ new, p x = false) :
    since p (log ++ new) = since p log ++ new := by
  induction new generalizing log with
  | nil => simp
  | cons x new ih =>
      have hx := h x (by simp)
      have hstep : since p ((log ++ [x]) ++ new) = since p (log ++ [x]) ++ new :=
        ih fun y hy => h y (by simp [hy])
      rw [List.append_assoc, List.singleton_append, since_concat, hx] at hstep
      simpa using hstep

/-- An entry of the present epoch is one after which no epoch began. -/
theorem mem_since {log : List α} {x : α} : x ∈ since p log ↔ ∃ before after,
    log = before ++ x :: after ∧ p x = false ∧ ∀ y ∈ after, p y = false := by
  constructor
  · induction log using List.reverseRecOn with
    | nil => simp [since]
    | append_singleton log y ih =>
        rw [since_concat]
        cases hy : p y with
        | true => simp
        | false =>
            simp only [Bool.false_eq_true, if_false, List.mem_append, List.mem_singleton]
            rintro (hx | rfl)
            · obtain ⟨before, after, rfl, hpx, hafter⟩ := ih hx
              refine ⟨before, after ++ [y], by simp, hpx, fun z hz => ?_⟩
              rcases List.mem_append.mp hz with hz | hz
              · exact hafter z hz
              · rw [List.mem_singleton.mp hz]
                exact hy
            · exact ⟨log, [], rfl, hy, by simp⟩
  · rintro ⟨before, after, rfl, hx, hafter⟩
    rw [since_append]
    · simp
    · intro y hy
      rcases List.mem_cons.mp hy with rfl | hy
      · exact hx
      · exact hafter y hy

/-- What is read off the present epoch is not changed by entries that say nothing
about it. -/
theorem flatMap_since_append {β : Type*} {f : α → List β} {log new : List α}
    (h : ∀ x ∈ new, p x = false) (hf : ∀ x ∈ new, f x = []) :
    (since p (log ++ new)).flatMap f = (since p log).flatMap f := by
  rw [since_append h, List.flatMap_append, List.flatMap_eq_nil_iff.mpr hf, List.append_nil]

/-- The new entry, or an old one. -/
theorem split_of_concat {log before after : List α} {x y : α}
    (h : log ++ [y] = before ++ x :: after) :
    (before = log ∧ x = y ∧ after = []) ∨
      ∃ after', after = after' ++ [y] ∧ log = before ++ x :: after' := by
  rcases List.eq_nil_or_concat after with rfl | ⟨after', z, rfl⟩
  · obtain ⟨hlog, hx⟩ := List.append_inj' h rfl
    exact Or.inl ⟨hlog.symm, (List.singleton_inj.mp hx).symm, rfl⟩
  · rw [List.concat_eq_append, ← List.cons_append, ← List.append_assoc] at h
    obtain ⟨hlog, hy⟩ := List.append_inj' h rfl
    exact Or.inr ⟨after', by rw [List.concat_eq_append, hy], hlog⟩

/-- An entry of two logs written one after the other. -/
theorem split_of_append {log new before after : List α} {x : α}
    (h : log ++ new = before ++ x :: after) :
    (∃ after', log = before ++ x :: after' ∧ after = after' ++ new) ∨
      ∃ before', before = log ++ before' ∧ new = before' ++ x :: after := by
  rcases List.append_eq_append_iff.mp h with ⟨before', hbefore, hnew⟩ | ⟨rest, hlog, hrest⟩
  · exact Or.inr ⟨before', hbefore, hnew⟩
  · cases rest with
    | nil =>
        rw [List.nil_append] at hrest
        rw [List.append_nil] at hlog
        exact Or.inr ⟨[], by rw [hlog, List.append_nil], hrest.symm⟩
    | cons y rest =>
        rw [List.cons_append, List.cons.injEq] at hrest
        exact Or.inl ⟨rest, by rw [hlog, hrest.1], hrest.2⟩

/-- Every entry was in order when it was written. -/
def Each (P : List α → α → Prop) (log : List α) : Prop :=
  ∀ before x after, log = before ++ x :: after → P before x

variable {P : List α → α → Prop}

theorem each_nil : Each P [] := by
  intro before x after h
  simp at h

theorem each_congr {Q : List α → α → Prop} {log : List α}
    (h : ∀ before x after, log = before ++ x :: after → (P before x ↔ Q before x)) :
    Each P log ↔ Each Q log := by
  constructor
  · intro hP before x after hlog
    exact (h before x after hlog).mp (hP before x after hlog)
  · intro hQ before x after hlog
    exact (h before x after hlog).mpr (hQ before x after hlog)

theorem each_cons {x : α} {log : List α} :
    Each P (x :: log) ↔ P [] x ∧ Each (fun before => P (x :: before)) log := by
  constructor
  · intro h
    refine ⟨h [] x log rfl, ?_⟩
    intro before y after hlog
    exact h (x :: before) y after (by rw [hlog, List.cons_append])
  · rintro ⟨hx, h⟩ before y after hsplit
    cases before with
    | nil =>
        rw [List.nil_append, List.cons.injEq] at hsplit
        exact hsplit.1 ▸ hx
    | cons z before =>
        rw [List.cons_append, List.cons.injEq] at hsplit
        exact hsplit.1 ▸ h before y after hsplit.2

theorem each_append {log new : List α} :
    Each P (log ++ new) ↔ Each P log ∧ Each (fun before => P (log ++ before)) new := by
  constructor
  · intro h
    refine ⟨?_, ?_⟩
    · intro before x after hlog
      exact h before x (after ++ new) (by rw [hlog, List.append_assoc, List.cons_append])
    · intro before x after hnew
      exact h (log ++ before) x after (by rw [hnew, List.append_assoc])
  · rintro ⟨hlog, hnew⟩ before x after hsplit
    rcases split_of_append hsplit with ⟨after', hold, _⟩ | ⟨before', rfl, hlater⟩
    · exact hlog before x after' hold
    · exact hnew before' x after hlater

instance Each.decidable {α : Type*} (P : List α → α → Prop)
    [h : ∀ before x, Decidable (P before x)] : (log : List α) → Decidable (Each P log)
  | [] => isTrue each_nil
  | x :: log =>
      have := Each.decidable (fun before => P (x :: before)) log
      decidable_of_iff' _ each_cons

theorem Each.concat {log : List α} (h : Each P log) {x : α} (hx : P log x) :
    Each P (log ++ [x]) := by
  intro before y after hsplit
  rcases split_of_concat hsplit with ⟨rfl, rfl, _⟩ | ⟨after', _, hlog⟩
  · exact hx
  · exact h before y after' hlog

/-- Entries that are in order anywhere. -/
theorem Each.append {log new : List α} (h : Each P log)
    (hnew : ∀ x ∈ new, ∀ before, P before x) : Each P (log ++ new) := by
  induction new generalizing log with
  | nil => simpa using h
  | cons x new ih =>
      have hstep : Each P ((log ++ [x]) ++ new) :=
        ih (h.concat (hnew x (by simp) log)) fun y hy => hnew y (by simp [hy])
      simpa using hstep

end SocketExchange.Lib.Log
