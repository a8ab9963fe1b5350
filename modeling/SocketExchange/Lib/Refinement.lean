import SocketExchange.Lib.Loop

/-!
# One machine doing the work of another

A machine is a deterministic transition function that answers each of its inputs.  A
program is one, and so is the account of what the program is for, which may keep its
state in quite another shape and be told less in each input.

`Refines` relates the two one input at a time.  `Refines.run` turns that into the
statement a user of the program cares about: over a whole run the answers are the same
list, and the two states are still related.
-/

namespace SocketExchange.Lib.Refinement

/-- A transition function with an answer to each input. -/
structure Machine (ι σ ο : Type*) where
  start : σ
  step : σ → ι → σ
  answer : σ → ι → ο

section Runs

variable {ι σ ο : Type*}

/-- The state after some inputs. -/
def Machine.after (m : Machine ι σ ο) (inputs : List ι) : σ := Loop.run m.step m.start inputs

/-- The answers to some inputs given from the state `s` on. -/
def Machine.answersFrom (m : Machine ι σ ο) (s : σ) : List ι → List ο
  | [] => []
  | i :: inputs => m.answer s i :: m.answersFrom (m.step s i) inputs

/-- The answers to some inputs given from the start. -/
def Machine.answers (m : Machine ι σ ο) (inputs : List ι) : List ο :=
  m.answersFrom m.start inputs

theorem Machine.answersFrom_append (m : Machine ι σ ο) (s : σ) (xs ys : List ι) :
    m.answersFrom s (xs ++ ys) = m.answersFrom s xs ++ m.answersFrom (Loop.run m.step s xs) ys := by
  induction xs generalizing s with
  | nil => rfl
  | cons i xs ih =>
      rw [List.cons_append, Machine.answersFrom, Machine.answersFrom, ih, Loop.run_cons,
        List.cons_append]

theorem Machine.length_answersFrom (m : Machine ι σ ο) (s : σ) (inputs : List ι) :
    (m.answersFrom s inputs).length = inputs.length := by
  induction inputs generalizing s with
  | nil => rfl
  | cons i inputs ih => rw [Machine.answersFrom, List.length_cons, List.length_cons, ih]

end Runs

section Simulation

variable {ι κ σ τ ο : Type*}

/-- **A forward simulation.**  `read` is what the specification is told of an input, and
`R` holds between the states the two are in after the same inputs. -/
structure Refines (m : Machine ι σ ο) (spec : Machine κ τ ο) (read : ι → κ) (P : ι → Prop)
    (R : σ → τ → Prop) : Prop where
  start : R m.start spec.start
  step : ∀ s t i, P i → R s t → R (m.step s i) (spec.step t (read i))
  answer : ∀ s t i, P i → R s t → m.answer s i = spec.answer t (read i)

variable {m : Machine ι σ ο} {spec : Machine κ τ ο} {read : ι → κ} {P : ι → Prop}
  {R : σ → τ → Prop}

private theorem Refines.runFrom (h : Refines m spec read P R) {s : σ} {t : τ} (hst : R s t)
    {inputs : List ι} (hP : ∀ i ∈ inputs, P i) :
    m.answersFrom s inputs = spec.answersFrom t (inputs.map read) ∧
      R (Loop.run m.step s inputs) (Loop.run spec.step t (inputs.map read)) := by
  induction inputs generalizing s t with
  | nil => exact ⟨rfl, hst⟩
  | cons i inputs ih =>
      have hi := hP i (by simp)
      obtain ⟨hanswers, hrun⟩ := ih (h.step s t i hi hst) fun j hj => hP j (by simp [hj])
      refine ⟨?_, hrun⟩
      rw [List.map_cons, Machine.answersFrom, Machine.answersFrom, h.answer s t i hi hst, hanswers]

/-- **Refinement over whole runs.** -/
theorem Refines.run (h : Refines m spec read P R) {inputs : List ι} (hP : ∀ i ∈ inputs, P i) :
    m.answers inputs = spec.answers (inputs.map read) ∧
      R (m.after inputs) (spec.after (inputs.map read)) :=
  h.runFrom h.start hP

end Simulation

end SocketExchange.Lib.Refinement
