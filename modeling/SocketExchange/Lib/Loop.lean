import Mathlib.Logic.Relation

/-!
# Loops and runs of a deterministic machine

Two shapes of repetition cover every program in this package.

* A `while` loop: `step s = none` when the loop is left and `some s'` when one
  more pass is made.  `loop` bounds the number of passes by a fuel argument, so
  it is an ordinary structural recursion that the kernel can evaluate.
* A run: a list of inputs fed one by one to a total transition function.

Both come with an invariant rule, and runs with rules for comparing two of them.
`Reaches` names the intermediate states of a loop, so that a property can be claimed
*between two passes* and not only at the exit.
-/

namespace SocketExchange.Lib.Loop

section While

variable {σ : Type*} (step : σ → Option σ)

/-- At most `fuel` passes of the loop body. -/
def loop : Nat → σ → σ
  | 0, s => s
  | fuel + 1, s =>
      match step s with
      | none => s
      | some s' => loop fuel s'

/-- `Reaches step s t`: a loop entered in `s` is at its head in `t` at some
point. -/
def Reaches : σ → σ → Prop := Relation.ReflTransGen fun s t => step s = some t

variable {step}

theorem loop_of_none {s : σ} (h : step s = none) (fuel : Nat) :
    loop step fuel s = s := by
  cases fuel with
  | zero => rfl
  | succ fuel => simp only [loop, h]

theorem loop_of_some {s s' : σ} (h : step s = some s') (fuel : Nat) :
    loop step (fuel + 1) s = loop step fuel s' := by
  simp only [loop, h]

/-- The exit state is one of the states the loop passes through. -/
theorem reaches_loop (fuel : Nat) (s : σ) : Reaches step s (loop step fuel s) := by
  induction fuel generalizing s with
  | zero => exact Relation.ReflTransGen.refl
  | succ fuel ih =>
      cases h : step s with
      | none => rw [loop_of_none h]; exact Relation.ReflTransGen.refl
      | some s' =>
          rw [loop_of_some h]
          exact Relation.ReflTransGen.head h (ih s')

/-- **Loop invariant.**  What every pass preserves holds at every loop head. -/
theorem Reaches.invariant {I : σ → Prop} {s t : σ} (hr : Reaches step s t)
    (hstep : ∀ a b, step a = some b → I a → I b) (h : I s) : I t := by
  induction hr with
  | refl => exact h
  | tail _ hab ih => exact hstep _ _ hab ih

end While

section Run

variable {σ ι : Type*} (step : σ → ι → σ)

/-- The state after feeding the inputs in order. -/
def run (s : σ) (inputs : List ι) : σ := inputs.foldl step s

@[simp] theorem run_nil (s : σ) : run step s [] = s := rfl

@[simp] theorem run_cons (s : σ) (i : ι) (inputs : List ι) :
    run step s (i :: inputs) = run step (step s i) inputs := rfl

theorem run_append (s : σ) (xs ys : List ι) :
    run step s (xs ++ ys) = run step (run step s xs) ys :=
  List.foldl_append

theorem run_concat (s : σ) (xs : List ι) (i : ι) :
    run step s (xs ++ [i]) = step (run step s xs) i := by
  rw [run_append, run_cons, run_nil]

variable {step}

/-- **Run invariant.**  A property of the start that every admissible input
preserves holds after every admissible run. -/
theorem run_invariant {I : σ → Prop} {P : ι → Prop}
    (hstep : ∀ s i, P i → I s → I (step s i)) {s : σ} (hs : I s)
    {inputs : List ι} (hP : ∀ i ∈ inputs, P i) : I (run step s inputs) := by
  induction inputs generalizing s with
  | nil => exact hs
  | cons i inputs ih =>
      rw [run_cons]
      exact ih (hstep s i (hP i (by simp)) hs) (fun j hj => hP j (by simp [hj]))

end Run

section Related

variable {σ ι : Type*} {step : σ → ι → σ} {R : σ → σ → Prop}

/-- **Two runs side by side.**  What each input preserves between two states holds
after the same inputs. -/
theorem run_related {P : ι → Prop}
    (hstep : ∀ s s' i, P i → R s s' → R (step s i) (step s' i)) {s s' : σ} (h : R s s')
    {inputs : List ι} (hP : ∀ i ∈ inputs, P i) : R (run step s inputs) (run step s' inputs) := by
  induction inputs generalizing s s' with
  | nil => exact h
  | cons i inputs ih =>
      rw [run_cons, run_cons]
      exact ih (hstep s s' i (hP i (by simp)) h) (fun j hj => hP j (by simp [hj]))

/-- **The order of inputs that commute.**  If any two inputs may be exchanged, up to a
relation that every input preserves, then the whole list may be rearranged. -/
theorem run_perm {I : σ → Prop} {P : ι → Prop}
    (hinv : ∀ s i, P i → I s → I (step s i)) (hrefl : ∀ s, I s → R s s)
    (htrans : ∀ {s t u}, R s t → R t u → R s u)
    (hstep : ∀ s s' i, P i → R s s' → R (step s i) (step s' i))
    (hcomm : ∀ s i j, P i → P j → I s → R (step (step s i) j) (step (step s j) i))
    {xs ys : List ι} (hperm : xs.Perm ys) {s : σ} (hs : I s) (hP : ∀ i ∈ xs, P i) :
    R (run step s xs) (run step s ys) := by
  induction hperm generalizing s with
  | nil => exact hrefl s hs
  | cons i _ ih =>
      rw [run_cons, run_cons]
      exact ih (hinv s i (hP i (by simp)) hs) (fun j hj => hP j (by simp [hj]))
  | swap i j xs =>
      have hi := hP i (by simp)
      have hj := hP j (by simp)
      simp only [run_cons]
      exact run_related hstep (hcomm s j i hj hi hs) (fun k hk => hP k (by simp [hk]))
  | trans hxy _ ih ih' =>
      exact htrans (ih hs hP) (ih' hs fun i hi => hP i (hxy.mem_iff.mpr hi))

end Related

end SocketExchange.Lib.Loop
