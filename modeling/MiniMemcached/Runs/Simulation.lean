import MiniMemcached.Runs.Path
import MiniMemcached.Runs.Steps

/-! A run of a system that is followed by another one, which takes any number of steps,
often none, to each of its steps. The relation between the two may speak of what was
done on both sides so far. -/

namespace MiniMemcached.Runs

variable {σ τ α β ε : Type*} {step : σ → α → Except ε σ} {Step' : τ → β → τ → Prop}
  {J : List α → σ → List β → τ → Prop} {C : σ → α → Prop}

/-- One step is answered by a path, and the relation holds again. -/
def Follows (step : σ → α → Except ε σ) (Step' : τ → β → τ → Prop) (J : List α → σ → List β → τ → Prop)
    (C : σ → α → Prop) : Prop :=
  ∀ as s bs u a s', J as s bs u → C s a → step s a = .ok s' →
    ∃ bs' u', Path Step' u bs' u' ∧ J (as ++ [a]) s' (bs ++ bs') u'

/-- A run whose steps meet the condition is followed to its end. -/
theorem Follows.run (h : Follows step Step' J C) {pre as : List α} {s t : σ} {bs : List β} {u : τ}
    (hJ : J pre s bs u) (hcond : EachStep step C s as) (hrun : run step s as = .ok t) :
    ∃ bs' u', Path Step' u bs' u' ∧ J (pre ++ as) t (bs ++ bs') u' := by
  induction as generalizing pre s bs u with
  | nil =>
    cases hrun
    refine ⟨[], u, .nil u, ?_⟩
    rwa [List.append_nil, List.append_nil]
  | cons a as ih =>
    obtain ⟨s₁, hstep, hrest⟩ := (run_cons_eq_ok step).mp hrun
    obtain ⟨bs₁, u₁, hpath, hJ₁⟩ := h pre s bs u a s₁ hJ hcond.1 hstep
    obtain ⟨bs₂, u₂, hpath', hJ₂⟩ := ih hJ₁ (hcond.2 s₁ hstep) hrest
    refine ⟨bs₁ ++ bs₂, u₂, hpath.append hpath', ?_⟩
    rwa [List.append_assoc, List.singleton_append, List.append_assoc] at hJ₂

/-- Where it is known along the way which steps do not fail, it is known of the run. -/
theorem Follows.run_ok_iff (h : Follows step Step' J C) {D : σ → α → Prop}
    (hok : ∀ as s bs u a, J as s bs u → C s a → ((∃ s', step s a = .ok s') ↔ D s a)) {pre as : List α} {s : σ}
    {bs : List β} {u : τ} (hJ : J pre s bs u) (hcond : EachStep step C s as) :
    (∃ t, Runs.run step s as = .ok t) ↔ EachStep step D s as := by
  induction as generalizing pre s bs u with
  | nil => exact ⟨fun _ => trivial, fun _ => ⟨s, rfl⟩⟩
  | cons a as ih =>
    constructor
    · rintro ⟨t, hrun⟩
      obtain ⟨s₁, hstep, hrest⟩ := (run_cons_eq_ok step).mp hrun
      refine ⟨(hok pre s bs u a hJ hcond.1).mp ⟨s₁, hstep⟩, fun s' hs' => ?_⟩
      rw [hstep] at hs'
      cases hs'
      obtain ⟨bs₁, u₁, -, hJ₁⟩ := h pre s bs u a s₁ hJ hcond.1 hstep
      exact (ih hJ₁ (hcond.2 s₁ hstep)).mp ⟨t, hrest⟩
    · rintro ⟨hD, hrest⟩
      obtain ⟨s₁, hstep⟩ := (hok pre s bs u a hJ hcond.1).mpr hD
      obtain ⟨bs₁, u₁, -, hJ₁⟩ := h pre s bs u a s₁ hJ hcond.1 hstep
      obtain ⟨t, ht⟩ := (ih hJ₁ (hcond.2 s₁ hstep)).mpr (hrest s₁ hstep)
      exact ⟨t, (run_cons_eq_ok step).mpr ⟨s₁, hstep, ht⟩⟩

end MiniMemcached.Runs
