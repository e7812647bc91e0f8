import Mathlib.Order.RelClasses
import Mathlib.Order.Nat

/-! Loops that take steps until they halt, while the step may depend on its number in
the loop. Such a loop ends when every step that is not taken in a trap makes
something less, and it ends in no other way when a trap is never left. -/

namespace MiniMemcached.Runs

variable {σ ε : Type*} (step : ℕ → σ → Except ε σ)

/-- The state after `n` steps. -/
def iterate : ℕ → σ → Except ε σ
  | 0, s => .ok s
  | n + 1, s => iterate n s >>= step n

theorem iterate_succ_eq_ok {n : ℕ} {s t : σ} :
    iterate step (n + 1) s = .ok t ↔ ∃ m, iterate step n s = .ok m ∧ step n m = .ok t := by
  cases h : iterate step n s with
  | error e => simp [iterate, h, bind, Except.bind]
  | ok m => simp [iterate, h, bind, Except.bind]

variable {step} {I halted trap : σ → Prop}

theorem invariant_iterate (hI : ∀ n s s', I s → step n s = .ok s' → I s') {n : ℕ} {s t : σ}
    (hs : I s) (h : iterate step n s = .ok t) : I t := by
  induction n generalizing t with
  | zero => cases h; exact hs
  | succ n ih =>
    obtain ⟨m, hm, hstep⟩ := (iterate_succ_eq_ok step).mp h
    exact hI n m t (ih hm) hstep

/-- What the steps keep, once it holds, holds from then on. -/
theorem iterate_mono {P : σ → Prop} (hP : ∀ n s s', P s → step n s = .ok s' → P s') {n m : ℕ}
    {s t u : σ} (hle : n ≤ m) (ht : iterate step n s = .ok t) (hu : iterate step m s = .ok u)
    (hPt : P t) : P u := by
  induction m, hle using Nat.le_induction generalizing u with
  | base =>
    rw [ht] at hu
    cases hu
    exact hPt
  | succ m hle ih =>
    obtain ⟨v, hv, hstep⟩ := (iterate_succ_eq_ok step).mp hu
    exact hP m v u (ih hv) hstep

theorem exists_iterate_of_le {n m : ℕ} {s u : σ} (hle : n ≤ m) (hu : iterate step m s = .ok u) :
    ∃ t, iterate step n s = .ok t := by
  induction m, hle using Nat.le_induction generalizing u with
  | base => exact ⟨u, hu⟩
  | succ m hle ih =>
    obtain ⟨v, hv, -⟩ := (iterate_succ_eq_ok step).mp hu
    exact ih hv

variable (step halted) in
/-- The loop from `s` ends. -/
def Halts (s : σ) : Prop := ∃ n t, iterate step n s = .ok t ∧ halted t

variable (step halted trap) in
/-- Every step of the loop from `s` can be taken, and none is taken in a trap. -/
def NeverStuck (s : σ) : Prop :=
  ∀ n t, iterate step n s = .ok t → ¬halted t → ¬trap t ∧ ∃ t', step n t = .ok t'

/-- A loop whose steps make something less ends. -/
theorem halts_of_measure {ω : Type*} [Preorder ω] [WellFoundedLT ω] (μ : σ → ω)
    (hI : ∀ n s s', I s → step n s = .ok s' → I s')
    (hless : ∀ n s s', I s → ¬halted s → ¬trap s → step n s = .ok s' → halted s' ∨ μ s' < μ s)
    {s : σ} (hs : I s) (hgood : NeverStuck step halted trap s) : Halts step halted s := by
  have hfrom : ∀ (x : ω) n t, iterate step n s = .ok t → μ t = x → Halts step halted s := by
    intro x
    induction x using WellFoundedLT.induction with
    | ind x ih =>
      rintro n t ht rfl
      by_cases hh : halted t
      · exact ⟨n, t, ht, hh⟩
      · obtain ⟨htrap, t', hstep⟩ := hgood n t ht hh
        have ht' : iterate step (n + 1) s = .ok t' := (iterate_succ_eq_ok step).mpr ⟨t, ht, hstep⟩
        rcases hless n t t' (invariant_iterate hI hs ht) hh htrap hstep with hh' | hlt
        · exact ⟨n + 1, t', ht', hh'⟩
        · exact ih (μ t') hlt (n + 1) t' ht' rfl
  exact hfrom (μ s) 0 s rfl rfl

/-- A loop that ends was never stuck. -/
theorem neverStuck_of_halts (hI : ∀ n s s', I s → step n s = .ok s' → I s')
    (hhalt : ∀ n s s', halted s → step n s = .ok s' → halted s')
    (htrap : ∀ n s s', I s → trap s → step n s = .ok s' → trap s') (hdisj : ∀ s, trap s → ¬halted s)
    {s : σ} (hs : I s) (h : Halts step halted s) : NeverStuck step halted trap s := by
  obtain ⟨m, u, hu, hend⟩ := h
  intro n t ht hrun
  have hlt : n < m := by
    by_contra hle
    exact hrun (iterate_mono hhalt (by omega) hu ht hend)
  refine ⟨fun hbad => ?_, ?_⟩
  · have hkeep : ∀ n s s', I s ∧ trap s → step n s = .ok s' → I s' ∧ trap s' :=
      fun n s s' hs hstep => ⟨hI n s s' hs.1 hstep, htrap n s s' hs.1 hs.2 hstep⟩
    have hu' := iterate_mono hkeep (Nat.le_of_lt hlt) ht hu ⟨invariant_iterate hI hs ht, hbad⟩
    exact hdisj u hu'.2 hend
  · obtain ⟨v, hv⟩ := exists_iterate_of_le hlt hu
    obtain ⟨t₁, ht₁, hstep⟩ := (iterate_succ_eq_ok step).mp hv
    rw [ht] at ht₁
    cases ht₁
    exact ⟨v, hstep⟩

/-- The loop ends just when it is never stuck. -/
theorem halts_iff_neverStuck {ω : Type*} [Preorder ω] [WellFoundedLT ω] (μ : σ → ω)
    (hI : ∀ n s s', I s → step n s = .ok s' → I s')
    (hhalt : ∀ n s s', halted s → step n s = .ok s' → halted s')
    (htrap : ∀ n s s', I s → trap s → step n s = .ok s' → trap s') (hdisj : ∀ s, trap s → ¬halted s)
    (hless : ∀ n s s', I s → ¬halted s → ¬trap s → step n s = .ok s' → halted s' ∨ μ s' < μ s)
    {s : σ} (hs : I s) : Halts step halted s ↔ NeverStuck step halted trap s :=
  ⟨neverStuck_of_halts hI hhalt htrap hdisj hs, halts_of_measure μ hI hless hs⟩

end MiniMemcached.Runs
