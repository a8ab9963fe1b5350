import Mathlib.Data.List.Induction
import Mathlib.Data.List.Nodup
import Mathlib.Data.List.Perm.Basic

/-!
# Grouping by key

A pass over a list that keeps one accumulator for each key: an element whose key is new
opens an accumulator at the end of the output, and every element is folded into the
accumulator of its key, wherever that is.

`total` is what becomes of one key.  The output of the pass is the `total` of every key, in
the order in which the keys first appear; `map_total_concat` is the one step in place that
this rests on.  If the fold does not depend on the order of its elements, rearranging the
list only rearranges the output.
-/

namespace SocketExchange.Lib.Grouping

/-! ## First appearances -/

section Firsts

variable {κ : Type*} [DecidableEq κ]

theorem eraseDups_concat_of_mem {ks : List κ} {k : κ} (h : k ∈ ks) :
    (ks ++ [k]).eraseDups = ks.eraseDups := by
  rw [List.eraseDups_append]
  simp [List.removeAll, h]

theorem eraseDups_concat_of_notMem {ks : List κ} {k : κ} (h : k ∉ ks) :
    (ks ++ [k]).eraseDups = ks.eraseDups ++ [k] := by
  rw [List.eraseDups_append]
  simp [List.removeAll, h, List.eraseDups_cons]

theorem nodup_eraseDups (ks : List κ) : ks.eraseDups.Nodup := by
  induction ks using List.reverseRecOn with
  | nil => exact List.nodup_nil
  | append_singleton ks k ih =>
      by_cases h : k ∈ ks
      · rw [eraseDups_concat_of_mem h]
        exact ih
      · rw [eraseDups_concat_of_notMem h, ← List.concat_eq_append]
        exact ih.concat (mt List.mem_eraseDups.mp h)

theorem idxOf?_concat_self {ks : List κ} {k : κ} (h : k ∉ ks) :
    (ks ++ [k]).idxOf? k = some ks.length := by
  have hnone : ks.findIdx? (· == k) = none := List.idxOf?_eq_none_iff.mpr h
  rw [List.idxOf?, List.findIdx?_append, hnone]
  simp

theorem idxOf?_concat_of_ne {ks : List κ} {k k' : κ} (h : k' ≠ k) :
    (ks ++ [k]).idxOf? k' = ks.idxOf? k' := by
  rw [List.idxOf?, List.findIdx?_append]
  simp [Ne.symm h]

/-- Which keys appear does not depend on the order, only where they first do. -/
theorem eraseDups_perm {ks ks' : List κ} (h : ks.Perm ks') :
    ks.eraseDups.Perm ks'.eraseDups := by
  rw [List.perm_ext_iff_of_nodup (nodup_eraseDups ks) (nodup_eraseDups ks')]
  intro k
  rw [List.mem_eraseDups, List.mem_eraseDups]
  exact h.mem_iff

end Firsts

/-! ## Accumulators -/

section Totals

variable {κ ι β : Type*} [DecidableEq κ] (key : ι → κ) (start : κ → β) (merge : β → ι → β)

/-- The elements with key `k`, folded. -/
def total (k : κ) (xs : List ι) : β := (xs.filter fun x => key x = k).foldl merge (start k)

variable {key start merge}

theorem total_of_absent {k : κ} {xs : List ι} (h : ∀ x ∈ xs, key x ≠ k) :
    total key start merge k xs = start k := by
  have hnone : (xs.filter fun x => key x = k) = [] := by
    rw [List.filter_eq_nil_iff]
    intro x hx
    simpa using h x hx
  rw [total, hnone, List.foldl_nil]

theorem total_concat_self (xs : List ι) (x : ι) :
    total key start merge (key x) (xs ++ [x]) = merge (total key start merge (key x) xs) x := by
  simp [total, List.filter_append]

theorem total_concat_of_ne {k : κ} {x : ι} (h : key x ≠ k) (xs : List ι) :
    total key start merge k (xs ++ [x]) = total key start merge k xs := by
  simp [total, List.filter_append, h]

/-- **One step in place.**  To fold one more element, only the accumulator at the place of
its key is updated. -/
theorem map_total_concat {ks : List κ} (hnodup : ks.Nodup) (xs : List ι) {x : ι} {i : Nat}
    (hi : ks.idxOf? (key x) = some i) :
    ks.map (fun k => total key start merge k (xs ++ [x])) =
      (ks.map fun k => total key start merge k xs).modify i fun b => merge b x := by
  induction ks generalizing i with
  | nil => cases hi
  | cons k ks ih =>
      obtain ⟨hk, hnodup⟩ := List.nodup_cons.mp hnodup
      rw [List.map_cons, List.map_cons]
      rw [List.idxOf?_cons] at hi
      by_cases h : key x = k
      · subst h
        rw [if_pos (beq_self_eq_true _)] at hi
        cases hi
        -- the key is not found again further on
        have hrest : ∀ k ∈ ks, total key start merge k (xs ++ [x]) =
            total key start merge k xs := by
          intro k hmem
          apply total_concat_of_ne
          rintro rfl
          exact hk hmem
        rw [List.modify_zero_cons, total_concat_self, List.map_congr_left hrest]
      · rw [if_neg (by simpa using Ne.symm h), Option.map_eq_some_iff] at hi
        obtain ⟨j, hj, rfl⟩ := hi
        rw [List.modify_succ_cons, total_concat_of_ne h, ih hnodup hj]

/-- **The order does not matter**, if it does not matter to the fold. -/
theorem total_perm [RightCommutative merge] {xs ys : List ι} (h : xs.Perm ys) (k : κ) :
    total key start merge k xs = total key start merge k ys :=
  (h.filter _).foldl_eq _

end Totals

end SocketExchange.Lib.Grouping
