import Mathlib.Logic.Basic
import Mathlib.Data.List.Basic

/-! Runs of a deterministic system whose steps may fail. `run` performs a list of
actions; `Throughout` says that a property holds in every state on the way, and
`EachStep` that every action is taken in a state that meets a condition. The
rules at the end turn one-step facts into facts about whole runs: an invariant
kept by the steps that meet a condition, and a condition whose first violation
is visible in the next state. -/

namespace MiniMemcached.Runs

variable {σ α ε : Type*} (step : σ → α → Except ε σ)

/-- Perform the actions in order; a failing step ends the run. -/
def run : σ → List α → Except ε σ
  | s, [] => .ok s
  | s, a :: as => step s a >>= fun s' => run s' as

/-- `P` holds in every state that the run of the actions from `s` passes. -/
def Throughout (P : σ → Prop) : σ → List α → Prop
  | s, [] => P s
  | s, a :: as => P s ∧ ∀ s', step s a = .ok s' → Throughout P s' as

/-- Every action of the run from `s` is taken in a state that meets `C`. -/
def EachStep (C : σ → α → Prop) : σ → List α → Prop
  | _, [] => True
  | s, a :: as => C s a ∧ ∀ s', step s a = .ok s' → EachStep C s' as

@[simp] theorem run_nil (s : σ) : run step s [] = .ok s := rfl

theorem run_cons (s : σ) (a : α) (as : List α) :
    run step s (a :: as) = step s a >>= fun s' => run step s' as := rfl

theorem run_cons_ok {s s' : σ} {a : α} (h : step s a = .ok s') (as : List α) :
    run step s (a :: as) = run step s' as := by
  rw [run_cons, h]; rfl

theorem run_cons_eq_ok {s t : σ} {a : α} {as : List α} :
    run step s (a :: as) = .ok t ↔ ∃ s', step s a = .ok s' ∧ run step s' as = .ok t := by
  rw [run_cons]
  cases hs : step s a with
  | error e => simp [bind, Except.bind]
  | ok s' => simp [bind, Except.bind]

theorem run_append (s : σ) (as bs : List α) :
    run step s (as ++ bs) = run step s as >>= fun s' => run step s' bs := by
  induction as generalizing s with
  | nil => rfl
  | cons a as ih =>
    rw [List.cons_append, run_cons, run_cons]
    cases step s a with
    | error e => rfl
    | ok s' => exact ih s'

theorem run_append_eq_ok {s t : σ} {as bs : List α} :
    run step s (as ++ bs) = .ok t ↔ ∃ m, run step s as = .ok m ∧ run step m bs = .ok t := by
  rw [run_append]
  cases hs : run step s as with
  | error e => simp [bind, Except.bind]
  | ok m => simp [bind, Except.bind]

variable {step}

/-- An invariant of the steps is an invariant of the runs. -/
theorem invariant_run {I : σ → Prop} (hstep : ∀ s a s', I s → step s a = .ok s' → I s')
    {s t : σ} {as : List α} (hs : I s) (hrun : run step s as = .ok t) : I t := by
  induction as generalizing s with
  | nil => cases hrun; exact hs
  | cons a as ih =>
    obtain ⟨s', ha, hrest⟩ := (run_cons_eq_ok step).mp hrun
    exact ih (hstep s a s' hs ha) hrest

theorem Throughout.head {P : σ → Prop} {s : σ} {as : List α} (h : Throughout step P s as) : P s := by
  cases as with
  | nil => exact h
  | cons a as => exact h.1

/-- `Throughout` speaks of the end states of all prefixes of the run. -/
theorem throughout_iff {P : σ → Prop} {s : σ} {as : List α} :
    Throughout step P s as ↔ ∀ pre, pre <+: as → ∀ t, run step s pre = .ok t → P t := by
  induction as generalizing s with
  | nil =>
    constructor
    · rintro h pre hpre t ht
      rw [List.prefix_nil.mp hpre] at ht
      cases ht; exact h
    · exact fun h => h [] (List.prefix_refl _) s rfl
  | cons a as ih =>
    constructor
    · rintro ⟨hs, hrest⟩ pre hpre t ht
      cases pre with
      | nil => cases ht; exact hs
      | cons b pre =>
        obtain ⟨rfl, hpre'⟩ := List.cons_prefix_cons.mp hpre
        obtain ⟨s', hb, ht⟩ := (run_cons_eq_ok step).mp ht
        exact ih.mp (hrest s' hb) pre hpre' t ht
    · intro h
      refine ⟨h [] (List.nil_prefix) s rfl, fun s' ha => ih.mpr fun pre hpre t ht => ?_⟩
      exact h (a :: pre) (List.cons_prefix_cons.mpr ⟨rfl, hpre⟩) t (by rw [run_cons_ok step ha, ht])

section Conditional

variable {I : σ → List α → Prop} {P : σ → Prop} {L C : σ → α → Prop}

/-- An invariant kept by the lawful steps that meet `C` holds throughout a run all
of whose steps meet `C`. The invariant may speak of the actions still to come. -/
theorem throughout_of_eachStep
    (hstep : ∀ s a as s', I s (a :: as) → L s a → C s a → step s a = .ok s' → I s' as)
    (hP : ∀ s as, I s as → P s) {s : σ} {as : List α} (hs : I s as)
    (hlaw : EachStep step L s as) (hcond : EachStep step C s as) : Throughout step P s as := by
  induction as generalizing s with
  | nil => exact hP s [] hs
  | cons a as ih =>
    refine ⟨hP s _ hs, fun s' ha => ?_⟩
    exact ih (hstep s a as s' hs hlaw.1 hcond.1 ha) (hlaw.2 s' ha) (hcond.2 s' ha)

/-- When the first step that misses `C` leads to a state without `P`, the
condition is exact: `P` holds throughout just when every step meets `C`. -/
theorem throughout_iff_eachStep
    (hstep : ∀ s a as s', I s (a :: as) → L s a → C s a → step s a = .ok s' → I s' as)
    (hP : ∀ s as, I s as → P s)
    (hbad : ∀ s a as, I s (a :: as) → L s a → ¬ C s a → ∃ s', step s a = .ok s' ∧ ¬ P s')
    {s : σ} {as : List α} (hs : I s as) (hlaw : EachStep step L s as) :
    Throughout step P s as ↔ EachStep step C s as := by
  refine ⟨fun h => ?_, throughout_of_eachStep hstep hP hs hlaw⟩
  induction as generalizing s with
  | nil => trivial
  | cons a as ih =>
    by_cases hc : C s a
    · exact ⟨hc, fun s' ha =>
        ih (hstep s a as s' hs hlaw.1 hc ha) (hlaw.2 s' ha) (h.2 s' ha)⟩
    · obtain ⟨s', ha, hnot⟩ := hbad s a as hs hlaw.1 hc
      exact absurd (h.2 s' ha).head hnot

end Conditional

/-- A condition that every step meets. -/
theorem eachStep_of_forall {C : σ → α → Prop} (h : ∀ s a, C s a) (s : σ) (as : List α) :
    EachStep step C s as := by
  induction as generalizing s with
  | nil => trivial
  | cons a as ih => exact ⟨h s a, fun s' _ => ih s'⟩

theorem EachStep.mono {C D : σ → α → Prop} (hCD : ∀ s a, C s a → D s a) {s : σ} {as : List α}
    (h : EachStep step C s as) : EachStep step D s as := by
  induction as generalizing s with
  | nil => trivial
  | cons a as ih => exact ⟨hCD s a h.1, fun s' ha => ih (h.2 s' ha)⟩

theorem EachStep.and {C D : σ → α → Prop} {s : σ} {as : List α} (hC : EachStep step C s as)
    (hD : EachStep step D s as) : EachStep step (fun s a => C s a ∧ D s a) s as := by
  induction as generalizing s with
  | nil => trivial
  | cons a as ih => exact ⟨⟨hC.1, hD.1⟩, fun s' ha => ih (hC.2 s' ha) (hD.2 s' ha)⟩

theorem EachStep.append {C : σ → α → Prop} {s t : σ} {as bs : List α} (h : EachStep step C s as)
    (hrun : run step s as = .ok t) (h' : EachStep step C t bs) : EachStep step C s (as ++ bs) := by
  induction as generalizing s with
  | nil =>
    cases hrun
    exact h'
  | cons a as ih =>
    obtain ⟨s', ha, hrest⟩ := (run_cons_eq_ok step).mp hrun
    refine ⟨h.1, fun m hm => ?_⟩
    rw [ha] at hm
    cases hm
    exact ih (h.2 s' ha) hrest

theorem EachStep.append_left {C : σ → α → Prop} {s : σ} {as bs : List α}
    (h : EachStep step C s (as ++ bs)) : EachStep step C s as := by
  induction as generalizing s with
  | nil => trivial
  | cons a as ih => exact ⟨h.1, fun s' ha => ih (h.2 s' ha)⟩

theorem EachStep.append_right {C : σ → α → Prop} {s t : σ} {as bs : List α}
    (h : EachStep step C s (as ++ bs)) (hrun : run step s as = .ok t) : EachStep step C t bs := by
  induction as generalizing s with
  | nil =>
    cases hrun
    exact h
  | cons a as ih =>
    obtain ⟨s', ha, hrest⟩ := (run_cons_eq_ok step).mp hrun
    exact ih (h.2 s' ha) hrest

/-- A condition on the actions alone, along a run that does not fail. -/
theorem eachStep_iff_forall_mem {D : α → Prop} {s t : σ} {as : List α}
    (hrun : run step s as = .ok t) : EachStep step (fun _ a => D a) s as ↔ ∀ a ∈ as, D a := by
  induction as generalizing s with
  | nil => exact ⟨fun _ a ha => absurd ha List.not_mem_nil, fun _ => trivial⟩
  | cons a as ih =>
    obtain ⟨s', ha, hrest⟩ := (run_cons_eq_ok step).mp hrun
    constructor
    · rintro ⟨hD, h⟩ b hb
      rcases List.mem_cons.mp hb with rfl | hb
      · exact hD
      · exact (ih hrest).mp (h s' ha) b hb
    · refine fun h => ⟨h a List.mem_cons_self, fun m hm => ?_⟩
      rw [ha] at hm
      cases hm
      exact (ih hrest).mpr fun b hb => h b (List.mem_cons_of_mem a hb)

/-- The steps of a run that does not fail do not fail. -/
theorem eachStep_ok {s t : σ} {as : List α} (hrun : run step s as = .ok t) :
    EachStep step (fun s a => ∃ s', step s a = .ok s') s as := by
  induction as generalizing s with
  | nil => trivial
  | cons a as ih =>
    obtain ⟨s', ha, hrest⟩ := (run_cons_eq_ok step).mp hrun
    refine ⟨⟨s', ha⟩, fun m hm => ?_⟩
    rw [ha] at hm
    cases hm
    exact ih hrest

/-- `Throughout` at the end of the run. -/
theorem Throughout.last {P : σ → Prop} {s t : σ} {as : List α} (h : Throughout step P s as)
    (hrun : run step s as = .ok t) : P t :=
  throughout_iff.mp h as (List.prefix_refl as) t hrun

/-- Whether a condition is met along a run can be computed by running it. -/
instance decidableEachStep (step : σ → α → Except ε σ) (C : σ → α → Prop) [∀ s a, Decidable (C s a)] :
    ∀ s as, Decidable (EachStep step C s as)
  | _, [] => .isTrue trivial
  | s, a :: as =>
    match h : step s a with
    | .ok s' =>
      have := decidableEachStep step C s' as
      decidable_of_iff (C s a ∧ EachStep step C s' as)
        ⟨fun hc => ⟨hc.1, fun t ht => by rw [h] at ht; cases ht; exact hc.2⟩,
          fun hc => ⟨hc.1, hc.2 s' h⟩⟩
    | .error _ =>
      decidable_of_iff (C s a)
        ⟨fun hc => ⟨hc, fun t ht => by rw [h] at ht; cases ht⟩, fun hc => hc.1⟩

/-- So can a property of the states on the way. -/
instance decidableThroughout (step : σ → α → Except ε σ) (P : σ → Prop) [DecidablePred P] :
    ∀ s as, Decidable (Throughout step P s as)
  | s, [] => inferInstanceAs (Decidable (P s))
  | s, a :: as =>
    match h : step s a with
    | .ok s' =>
      have := decidableThroughout step P s' as
      decidable_of_iff (P s ∧ Throughout step P s' as)
        ⟨fun hp => ⟨hp.1, fun t ht => by rw [h] at ht; cases ht; exact hp.2⟩,
          fun hp => ⟨hp.1, hp.2 s' h⟩⟩
    | .error _ =>
      decidable_of_iff (P s)
        ⟨fun hp => ⟨hp, fun t ht => by rw [h] at ht; cases ht⟩, fun hp => hp.1⟩

end MiniMemcached.Runs
