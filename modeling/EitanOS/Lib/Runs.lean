import Mathlib.Data.List.Basic
import Mathlib.Tactic.Common

/-!
# Counted loops and runs of a machine

* `foldl_range`: the result of a counted loop, from what one round does.
* `run step s l`: the answers to the requests of `l`, from the state `s`, and the state then.
* **`run_invariant`**, **`run_refines`**: what one step keeps, and what one step of an abstract machine
  does too, along a run.
-/

namespace Runs

variable {α σ τ ι ο : Type*}

/-- **A counted loop**: `f i` is the state before round `i`. -/
theorem foldl_range {step : α → ℕ → α} {f : ℕ → α} {n : ℕ} (h : ∀ i < n, step (f i) i = f (i + 1)) :
    (List.range n).foldl step (f 0) = f n := by
  induction n with
  | zero => rfl
  | succ n ih =>
    rw [List.range_succ, List.foldl_append, ih fun i hi => h i (by omega)]
    exact h n (by omega)

/-- The answers to a list of requests, and the state they leave. -/
def run (step : σ → ι → ο × σ) : σ → List ι → List ο × σ
  | s, [] => ([], s)
  | s, i :: l => ((step s i).1 :: (run step (step s i).2 l).1, (run step (step s i).2 l).2)

variable {step : σ → ι → ο × σ} {step' : τ → ι → ο × τ} {abs : σ → τ} {Inv : σ → Prop}
  {Ok : ι → Prop} {s : σ} {l : List ι}

/-- **What every step keeps, a run keeps.** -/
theorem run_invariant (h : ∀ s i, Inv s → Ok i → Inv (step s i).2) (hs : Inv s) (hl : ∀ i ∈ l, Ok i) :
    Inv (run step s l).2 := by
  induction l generalizing s with
  | nil => exact hs
  | cons i l ih =>
    rw [List.forall_mem_cons] at hl
    exact ih (h s i hs hl.1) hl.2

/-- **Refinement**: an abstract machine that does at every step what the machine does, as `abs` sees
it, gives the same answers along every run and ends in the state that `abs` sees. -/
theorem run_refines (hinv : ∀ s i, Inv s → Ok i → Inv (step s i).2)
    (hstep : ∀ s i, Inv s → Ok i → step' (abs s) i = ((step s i).1, abs (step s i).2)) (hs : Inv s)
    (hl : ∀ i ∈ l, Ok i) : run step' (abs s) l = ((run step s l).1, abs (run step s l).2) := by
  induction l generalizing s with
  | nil => rfl
  | cons i l ih =>
    rw [List.forall_mem_cons] at hl
    simp only [run, hstep s i hs hl.1, ih (hinv s i hs hl.1) hl.2]

end Runs
