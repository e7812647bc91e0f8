import Mathlib.Logic.Basic
import Mathlib.Data.List.Basic

/-! Labelled paths of a step relation. A path carries the list of its labels; the
rules lift a fact about one step to a path: an invariant of the steps whose label
meets a condition, and a reflexive and transitive relation that contains them. -/

namespace MiniMemcached.Runs

variable {σ α : Type*} {Step : σ → α → σ → Prop}

/-- A run of steps with exactly these labels. -/
inductive Path (Step : σ → α → σ → Prop) : σ → List α → σ → Prop
  | nil (s : σ) : Path Step s [] s
  | cons {s m t : σ} {a : α} {as : List α} : Step s a m → Path Step m as t → Path Step s (a :: as) t

namespace Path

theorem single {s t : σ} {a : α} (h : Step s a t) : Path Step s [a] t := .cons h (.nil t)

theorem append {s m t : σ} {as bs : List α} (h₁ : Path Step s as m) (h₂ : Path Step m bs t) :
    Path Step s (as ++ bs) t := by
  induction h₁ with
  | nil s => exact h₂
  | cons hstep _ ih => exact .cons hstep (ih h₂)

theorem append_iff {s t : σ} {as bs : List α} :
    Path Step s (as ++ bs) t ↔ ∃ m, Path Step s as m ∧ Path Step m bs t := by
  constructor
  · intro h
    induction as generalizing s with
    | nil => exact ⟨s, .nil s, h⟩
    | cons a as ih =>
      cases h with
      | cons hstep hrest =>
        obtain ⟨m, hm, hb⟩ := ih hrest
        exact ⟨m, .cons hstep hm, hb⟩
  · rintro ⟨m, h₁, h₂⟩
    exact h₁.append h₂

theorem snoc {s m t : σ} {as : List α} {a : α} (h₁ : Path Step s as m) (h₂ : Step m a t) :
    Path Step s (as ++ [a]) t := h₁.append (single h₂)

/-- An invariant of the steps whose labels meet `C`. -/
theorem invariant {I : σ → Prop} {C : α → Prop}
    (hstep : ∀ s a t, I s → C a → Step s a t → I t) {s t : σ} {as : List α}
    (h : Path Step s as t) (hC : ∀ a ∈ as, C a) (hs : I s) : I t := by
  induction h with
  | nil s => exact hs
  | cons hab _ ih =>
    exact ih (fun a ha => hC a (List.mem_cons_of_mem _ ha)) (hstep _ _ _ hs (hC _ (by simp)) hab)

/-- A relation that contains the steps whose labels meet `C`, under an invariant. -/
theorem rel {I : σ → Prop} {C : α → Prop} {R : σ → σ → Prop} (hrefl : ∀ s, R s s)
    (htrans : ∀ a b c, R a b → R b c → R a c)
    (hstep : ∀ s a t, I s → C a → Step s a t → I t ∧ R s t) {s t : σ} {as : List α}
    (h : Path Step s as t) (hC : ∀ a ∈ as, C a) (hs : I s) : R s t := by
  induction h with
  | nil s => exact hrefl s
  | cons hab _ ih =>
    obtain ⟨hm, hr⟩ := hstep _ _ _ hs (hC _ (by simp)) hab
    exact htrans _ _ _ hr (ih (fun a ha => hC a (List.mem_cons_of_mem _ ha)) hm)

/-- Two systems that take the same labels keep a relation between their states. -/
theorem simulation {τ : Type*} {Step' : τ → α → τ → Prop} {J : σ → τ → Prop}
    (hstep : ∀ s a t u v, J s u → Step s a t → Step' u a v → J t v) {s t : σ} {u v : τ} {as : List α}
    (h : Path Step s as t) (h' : Path Step' u as v) (hJ : J s u) : J t v := by
  induction h generalizing u with
  | nil s => cases h'; exact hJ
  | cons hab _ ih =>
    cases h' with
    | cons hab' hrest => exact ih hrest (hstep _ _ _ _ _ hJ hab hab')

/-- A system whose steps, under an invariant, are steps of another one along a map of
the states. -/
theorem refines {τ : Type*} {Step' : τ → α → τ → Prop} {I : σ → Prop} {f : σ → τ}
    (hstep : ∀ s a t, I s → Step s a t → I t ∧ Step' (f s) a (f t)) {s t : σ} {as : List α}
    (h : Path Step s as t) (hs : I s) : I t ∧ Path Step' (f s) as (f t) := by
  induction h with
  | nil s => exact ⟨hs, .nil (f s)⟩
  | cons hab _ ih =>
    obtain ⟨hm, hab'⟩ := hstep _ _ _ hs hab
    obtain ⟨ht, hrest⟩ := ih hm
    exact ⟨ht, .cons hab' hrest⟩

/-- An observation that every step changes by its label alone. -/
theorem foldl {β : Type*} {f : β → α → β} {o : σ → β}
    (hstep : ∀ s a t, Step s a t → o t = f (o s) a) {s t : σ} {as : List α}
    (h : Path Step s as t) : o t = as.foldl f (o s) := by
  induction h with
  | nil => rfl
  | cons hab _ ih => rw [ih, hstep _ _ _ hab, List.foldl_cons]

end Path

end MiniMemcached.Runs
