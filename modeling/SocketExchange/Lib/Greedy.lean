import Mathlib.Algebra.Order.Group.MinMax
import Mathlib.Algebra.BigOperators.Group.List.Basic
import Mathlib.Algebra.Order.BigOperators.Group.List

/-!
# Drawing on a row of stocks

A demand is met from a row of stocks, front first.  Each stock gives what is still
wanted or all it has, and once nothing is wanted the rest are not asked.

`draw` lists what was given.  Four facts describe it: each entry in terms of the ones
before it, its sign, that only the last stock asked can be left with something, and the
sum, which is the demand or everything there was.
-/

namespace SocketExchange.Lib.Greedy

variable {α : Type*} [AddCommGroup α] [LinearOrder α]

/-- What each stock gives, front first, until the demand is met. -/
def draw (demand : α) : List α → List α
  | [] => []
  | stock :: stocks =>
      if demand ≤ 0 then []
      else min demand stock :: draw (demand - min demand stock) stocks

@[simp] theorem draw_nil (demand : α) : draw demand [] = [] := rfl

theorem draw_of_nonpos {demand : α} (h : demand ≤ 0) (stocks : List α) :
    draw demand stocks = [] := by
  cases stocks with
  | nil => rfl
  | cons stock stocks => rw [draw, if_pos h]

theorem draw_cons {demand : α} (h : 0 < demand) (stock : α) (stocks : List α) :
    draw demand (stock :: stocks) =
      min demand stock :: draw (demand - min demand stock) stocks := by
  rw [draw, if_neg (not_le.mpr h)]

theorem length_draw_le (demand : α) (stocks : List α) :
    (draw demand stocks).length ≤ stocks.length := by
  induction stocks generalizing demand with
  | nil => exact Nat.le_refl 0
  | cons stock stocks ih =>
      by_cases hdemand : demand ≤ 0
      · simp [draw_of_nonpos hdemand]
      · rw [draw_cons (not_le.mp hdemand), List.length_cons, List.length_cons]
        exact Nat.succ_le_succ (ih _)

/-- Each stock gives what the ones before it left wanted, or all it has. -/
theorem getElem?_draw {demand : α} {stocks : List α} {k : Nat} {given : α}
    (h : (draw demand stocks)[k]? = some given) :
    ∃ stock, stocks[k]? = some stock ∧
      given = min (demand - ((draw demand stocks).take k).sum) stock := by
  induction stocks generalizing demand k with
  | nil => simp at h
  | cons stock stocks ih =>
      by_cases hdemand : demand ≤ 0
      · simp [draw_of_nonpos hdemand] at h
      · rw [draw_cons (not_le.mp hdemand)] at h ⊢
        cases k with
        | zero =>
            refine ⟨stock, rfl, ?_⟩
            rw [List.getElem?_cons_zero, Option.some.injEq] at h
            rw [List.take_zero, List.sum_nil, sub_zero, h]
        | succ k =>
            rw [List.getElem?_cons_succ] at h
            obtain ⟨stock', hstock, hgiven⟩ := ih h
            refine ⟨stock', hstock, ?_⟩
            rw [List.take_succ_cons, List.sum_cons, hgiven, sub_add_eq_sub_sub]

theorem draw_pos {demand : α} {stocks : List α} (hstocks : ∀ s ∈ stocks, 0 < s) :
    ∀ given ∈ draw demand stocks, 0 < given := by
  induction stocks generalizing demand with
  | nil => simp
  | cons stock stocks ih =>
      intro given hgiven
      by_cases hdemand : demand ≤ 0
      · simp [draw_of_nonpos hdemand] at hgiven
      · rw [draw_cons (not_le.mp hdemand), List.mem_cons] at hgiven
        rcases hgiven with rfl | hgiven
        · exact lt_min (not_le.mp hdemand) (hstocks stock (by simp))
        · exact ih (fun s hs => hstocks s (by simp [hs])) given hgiven

/-- **Only the last stock asked can be left with something.** -/
theorem draw_full {demand : α} {stocks : List α} {k : Nat} {given stock : α}
    (hmore : k + 1 < (draw demand stocks).length)
    (hgiven : (draw demand stocks)[k]? = some given) (hstock : stocks[k]? = some stock) :
    given = stock := by
  induction stocks generalizing demand k with
  | nil => simp at hgiven
  | cons s stocks ih =>
      by_cases hdemand : demand ≤ 0
      · simp [draw_of_nonpos hdemand] at hgiven
      · rw [draw_cons (not_le.mp hdemand)] at hmore hgiven
        cases k with
        | zero =>
            rw [List.getElem?_cons_zero, Option.some.injEq] at hgiven hstock
            subst hgiven hstock
            -- another stock was asked, so this one did not meet the demand
            refine min_eq_right (le_of_lt (not_le.mp fun hle => ?_))
            rw [min_eq_left hle, sub_self, draw_of_nonpos (le_refl 0)] at hmore
            simp at hmore
        | succ k =>
            rw [List.getElem?_cons_succ] at hgiven hstock
            exact ih (by simpa using hmore) hgiven hstock

variable [IsOrderedAddMonoid α]

/-- **The demand is met, or everything is gone.** -/
theorem sum_draw {demand : α} {stocks : List α} (hdemand : 0 ≤ demand)
    (hstocks : ∀ s ∈ stocks, 0 ≤ s) : (draw demand stocks).sum = min demand stocks.sum := by
  induction stocks generalizing demand with
  | nil => rw [draw_nil, List.sum_nil, min_eq_right hdemand]
  | cons stock stocks ih =>
      have hrest : ∀ s ∈ stocks, 0 ≤ s := fun s hs => hstocks s (by simp [hs])
      have hsum : 0 ≤ stocks.sum := List.sum_nonneg hrest
      rcases hdemand.eq_or_lt with rfl | hpos
      · rw [draw_of_nonpos (le_refl 0), List.sum_nil, min_eq_left]
        exact List.sum_nonneg hstocks
      · rw [draw_cons hpos, List.sum_cons, List.sum_cons,
          ih (sub_nonneg.mpr (min_le_left _ _)) hrest]
        rcases le_total demand stock with hle | hle
        · rw [min_eq_left hle, sub_self, min_eq_left hsum, add_zero, min_eq_left]
          exact hle.trans (le_add_of_nonneg_right hsum)
        · rw [min_eq_right hle, ← min_add_add_left, add_sub_cancel]

end SocketExchange.Lib.Greedy
