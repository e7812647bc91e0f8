import Mathlib.Algebra.Group.Basic
import MiniMemcached.Runs.Steps

/-! What the steps of a run add up to. Each step has a weight, which may depend on
the states before and after it; an invariant that speaks of the sum so far holds of the
sum over the run. -/

namespace MiniMemcached.Runs

variable {σ α ε M : Type*} [AddMonoid M] (step : σ → α → Except ε σ) (w : σ → α → σ → M)

/-- The sum of the weights of the steps; a step that fails ends the run. -/
def total : σ → List α → M
  | _, [] => 0
  | s, a :: as =>
    match step s a with
    | .ok s' => w s a s' + total s' as
    | .error _ => 0

theorem total_nil (s : σ) : total step w s [] = 0 := rfl

variable {step w}

theorem total_cons_ok {s s' : σ} {a : α} (h : step s a = .ok s') (as : List α) :
    total step w s (a :: as) = w s a s' + total step w s' as := by
  rw [total, h]

/-- What holds of the state and the sum so far is kept by each step. -/
theorem total_run {I : σ → M → Prop} (hstep : ∀ s m a s', I s m → step s a = .ok s' → I s' (m + w s a s'))
    {s t : σ} {m : M} {as : List α} (hs : I s m) (hrun : run step s as = .ok t) :
    I t (m + total step w s as) := by
  induction as generalizing s m with
  | nil =>
    cases hrun
    rw [total_nil, add_zero]
    exact hs
  | cons a as ih =>
    obtain ⟨s', ha, hrest⟩ := (run_cons_eq_ok step).mp hrun
    rw [total_cons_ok ha, ← add_assoc]
    exact ih (hstep s m a s' hs ha) hrest

end MiniMemcached.Runs
