import Mathlib.Algebra.BigOperators.Group.List.Basic
import Mathlib.Data.List.AList

/-!
# Sums over keyed tables

A table of lists (`AList` with list values) is flattened to sum over everything
in it.  When only one key can contribute, the sum is the sum over that key's
list; this is how a total over a whole container is computed from one bucket.
-/

namespace SocketExchange.Lib.Tables

variable {κ α M : Type*} [DecidableEq κ]

/-- The elements filed under some key. -/
theorem mem_flatMap_iff_lookup {m : AList fun _ : κ => List α} {x : α} :
    x ∈ m.entries.flatMap (·.2) ↔ ∃ k, x ∈ (m.lookup k).getD [] := by
  rw [List.mem_flatMap]
  constructor
  · rintro ⟨e, he, hx⟩
    refine ⟨e.1, ?_⟩
    rw [AList.mem_lookup_iff.mpr he]
    exact hx
  · rintro ⟨k, hx⟩
    cases h : m.lookup k with
    | none =>
        rw [h] at hx
        simp at hx
    | some l =>
        rw [h] at hx
        exact ⟨⟨k, l⟩, AList.mem_lookup_iff.mp h, hx⟩

variable [AddMonoid M]

private theorem sum_eq_zero {l : List α} {f : α → M} (h : ∀ x ∈ l, f x = 0) :
    (l.map f).sum = 0 := by
  refine List.sum_eq_zero fun y hy => ?_
  obtain ⟨x, hx, rfl⟩ := List.mem_map.mp hy
  exact h x hx

private theorem sum_flatMap_dlookup (k : κ) (f : α → M) :
    ∀ l : List (Sigma fun _ : κ => List α), l.NodupKeys →
      (∀ e ∈ l, e.1 ≠ k → ∀ x ∈ e.2, f x = 0) →
      ((l.flatMap (·.2)).map f).sum = (((l.dlookup k).getD []).map f).sum := by
  intro l
  induction l with
  | nil => intro _ _; rfl
  | cons e l ih =>
      intro hnodup hzero
      rw [List.nodupKeys_cons] at hnodup
      have hl := fun e' he' => hzero e' (List.mem_cons_of_mem e he')
      rw [List.flatMap_cons, List.map_append, List.sum_append]
      by_cases hk : e.1 = k
      · subst hk
        -- no other entry has this key
        have hrest : ((l.flatMap (·.2)).map f).sum = 0 := by
          refine sum_eq_zero fun x hx => ?_
          obtain ⟨e', he', hx⟩ := List.mem_flatMap.mp hx
          refine hl e' he' (fun h => hnodup.1 ?_) x hx
          rw [← h]
          exact List.mem_keys_of_mem he'
        rw [hrest, add_zero, List.dlookup_cons_eq]
        rfl
      · have hhead : (e.2.map f).sum = 0 := sum_eq_zero (hzero e (by simp) hk)
        rw [hhead, zero_add, ih hnodup.2 hl, List.dlookup_cons_ne _ _ (Ne.symm hk)]

/-- **One bucket.**  If `f` vanishes outside the list filed under `k`, the sum
over the table is the sum over that list. -/
theorem sum_flatMap_lookup (m : AList fun _ : κ => List α) (k : κ) (f : α → M)
    (h : ∀ k', k' ≠ k → ∀ x ∈ (m.lookup k').getD [], f x = 0) :
    ((m.entries.flatMap (·.2)).map f).sum = (((m.lookup k).getD []).map f).sum := by
  refine sum_flatMap_dlookup k f m.entries m.nodupKeys ?_
  intro e he hk x hx
  refine h e.1 hk x ?_
  rw [AList.mem_lookup_iff.mpr he]
  exact hx

/-- A table to which nothing contributes. -/
theorem sum_flatMap_eq_zero (m : AList fun _ : κ => List α) (f : α → M)
    (h : ∀ k, ∀ x ∈ (m.lookup k).getD [], f x = 0) :
    ((m.entries.flatMap (·.2)).map f).sum = 0 := by
  refine sum_eq_zero fun x hx => ?_
  obtain ⟨k, hk⟩ := mem_flatMap_iff_lookup.mp hx
  exact h k x hk

end SocketExchange.Lib.Tables
