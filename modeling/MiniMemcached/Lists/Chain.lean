import Mathlib.Logic.Function.Basic
import Mathlib.Data.List.Basic
import Mathlib.Data.List.Nodup

/-! Singly linked chains in a pointer memory. The memory is a function `next`
that gives the successor of every cell, and a chain is the list of cells met on
the way from a start pointer to null. A chain that ends is acyclic, and it is
determined by its start. The update laws say what one write does to it: a write
outside the chain, a new front cell, a new last cell, a cell taken out after its
predecessor. -/

namespace MiniMemcached.Lists

variable {α : Type*}

/-- Following `next` from `start` visits exactly the cells of `l` and then null. -/
def Chain (next : α → Option α) : Option α → List α → Prop
  | start, [] => start = none
  | start, a :: l => start = some a ∧ Chain next (next a) l

@[simp] theorem chain_nil (next : α → Option α) (start : Option α) :
    Chain next start [] ↔ start = none := Iff.rfl

@[simp] theorem chain_cons (next : α → Option α) (start : Option α) (a : α) (l : List α) :
    Chain next start (a :: l) ↔ start = some a ∧ Chain next (next a) l := Iff.rfl

namespace Chain

variable {next next' : α → Option α} {start : Option α} {a b : α} {l l₁ l₂ : List α}

theorem of_none (h : Chain next none l) : l = [] := by
  cases l with
  | nil => rfl
  | cons a l => simp at h

theorem start_eq (h : Chain next start l) : start = l.head? := by
  cases l with
  | nil => exact h
  | cons a l => exact h.1

theorem start_mem (h : Chain next start l) (ha : start = some a) : a ∈ l :=
  List.mem_of_mem_head? (h.start_eq ▸ ha)

/-- A start pointer has at most one chain. -/
theorem unique (h₁ : Chain next start l₁) (h₂ : Chain next start l₂) : l₁ = l₂ := by
  induction l₁ generalizing start l₂ with
  | nil => exact (of_none (h₁ ▸ h₂)).symm
  | cons a l₁ ih =>
    obtain ⟨rfl, h₁⟩ := h₁
    cases l₂ with
    | nil => simp at h₂
    | cons b l₂ =>
      obtain ⟨hab, h₂⟩ := h₂
      cases hab
      rw [ih h₁ h₂]

theorem drop (h : Chain next start (l₁ ++ a :: l₂)) : Chain next (next a) l₂ := by
  induction l₁ generalizing start with
  | nil => exact h.2
  | cons b l₁ ih => exact ih h.2

theorem next_mem (h : Chain next start l) (ha : a ∈ l) (hb : next a = some b) : b ∈ l := by
  obtain ⟨l₁, l₂, rfl⟩ := List.append_of_mem ha
  have h₂ := h.drop
  rw [hb] at h₂
  cases l₂ with
  | nil => simp at h₂
  | cons c l₂ => cases h₂.1; simp

/-- A chain that reaches null never meets a cell twice. -/
theorem nodup (h : Chain next start l) : l.Nodup := by
  induction l generalizing start with
  | nil => exact List.nodup_nil
  | cons a l ih =>
    refine List.nodup_cons.mpr ⟨fun hmem => ?_, ih h.2⟩
    -- a second visit of `a` would start a shorter chain at the same pointer
    obtain ⟨l₁, l₂, rfl⟩ := List.append_of_mem hmem
    have hlen := congrArg List.length (unique h.2 h.2.drop)
    simp only [List.length_append, List.length_cons] at hlen
    omega

theorem congr (h : Chain next start l) (heq : ∀ a ∈ l, next' a = next a) :
    Chain next' start l := by
  induction l generalizing start with
  | nil => exact h
  | cons a l ih =>
    refine ⟨h.1, ?_⟩
    rw [heq a (by simp)]
    exact ih h.2 fun b hb => heq b (by simp [hb])

section Update

variable [DecidableEq α]

theorem update_of_notMem (h : Chain next start l) (ha : a ∉ l) (v : Option α) :
    Chain (Function.update next a v) start l :=
  h.congr fun _ hb => Function.update_of_ne (ne_of_mem_of_not_mem hb ha) _ _

/-- A new cell in front of a chain. -/
theorem push (h : Chain next start l) (ha : a ∉ l) :
    Chain (Function.update next a start) (some a) (a :: l) := by
  refine ⟨rfl, ?_⟩
  rw [Function.update_self]
  exact h.update_of_notMem ha start

/-- The cell after `a` is taken out by redirecting `a` past it. -/
theorem unlink (h : Chain next start (l₁ ++ a :: b :: l₂)) :
    Chain (Function.update next a (next b)) start (l₁ ++ a :: l₂) := by
  induction l₁ generalizing start with
  | nil =>
    have hnd := h.nodup
    obtain ⟨hs, -, hl⟩ := h
    refine ⟨hs, ?_⟩
    rw [Function.update_self]
    exact hl.update_of_notMem (by simp_all) (next b)
  | cons c l₁ ih =>
    have hc : c ≠ a := by
      rintro rfl
      simpa using h.nodup
    refine ⟨h.1, ?_⟩
    rw [Function.update_of_ne hc]
    exact ih h.2

/-- Taking a cell out and clearing its own successor. -/
theorem unlink_clear (h : Chain next start (l₁ ++ a :: b :: l₂)) :
    Chain (Function.update (Function.update next b none) a (next b)) start (l₁ ++ a :: l₂) := by
  have hnd : (l₁ ++ [a] ++ b :: l₂).Nodup := by simpa using h.nodup
  have hb : b ∉ l₁ ++ a :: l₂ := by
    simpa using (List.nodup_cons.mp (List.nodup_middle.mp hnd)).1
  have hne : b ≠ a := by
    rintro rfl
    simp at hb
  rw [Function.update_comm hne]
  exact h.unlink.update_of_notMem hb none

/-- A new cell behind the last cell `b` of a chain. -/
theorem concat (h : Chain next start (l ++ [b])) (ha : a ∉ l ++ [b]) (hnone : next a = none) :
    Chain (Function.update next b (some a)) start (l ++ [b, a]) := by
  induction l generalizing start with
  | nil =>
    have hba : a ≠ b := by simpa using ha
    refine ⟨h.1, ?_⟩
    simp [Function.update_of_ne hba, hnone]
  | cons c l ih =>
    have hc : c ≠ b := by
      rintro rfl
      simpa using h.nodup
    refine ⟨h.1, ?_⟩
    rw [Function.update_of_ne hc]
    exact ih h.2 (by simp_all)

end Update

end Chain

/-- The cells met in the first `fuel` steps from `start`. -/
def walk (next : α → Option α) : ℕ → Option α → List α
  | 0, _ => []
  | _ + 1, none => []
  | n + 1, some a => a :: walk next n (next a)

@[simp] theorem walk_none (next : α → Option α) (n : ℕ) : walk next n none = [] := by
  cases n <;> rfl

theorem Chain.walk_eq {next : α → Option α} {start : Option α} {l : List α}
    (h : Chain next start l) {n : ℕ} (hn : l.length ≤ n) : walk next n start = l := by
  induction l generalizing start n with
  | nil => rw [h, walk_none]
  | cons a l ih =>
    obtain ⟨n, rfl⟩ : ∃ m, n = m + 1 := ⟨n - 1, by simp at hn; omega⟩
    rw [h.1, walk, ih h.2 (by simpa using hn)]

/-- `a` is met on the way from `start`, whether or not the way ends. -/
inductive Reach (next : α → Option α) : Option α → α → Prop
  | here (a : α) : Reach next (some a) a
  | there {a b : α} : Reach next (next a) b → Reach next (some a) b

theorem Chain.reach_iff {next : α → Option α} {start : Option α} {l : List α}
    (h : Chain next start l) (a : α) : Reach next start a ↔ a ∈ l := by
  constructor
  · intro hr
    induction hr generalizing l with
    | here a =>
      cases l with
      | nil => simp at h
      | cons b l => simp [Option.some.inj h.1]
    | there _ ih =>
      cases l with
      | nil => simp at h
      | cons b l =>
        cases h.1
        exact List.mem_cons_of_mem _ (ih h.2)
  · intro ha
    induction l generalizing start with
    | nil => simp at ha
    | cons b l ih =>
      rw [h.1]
      rcases List.mem_cons.mp ha with rfl | ha
      · exact .here a
      · exact .there (ih h.2 ha)

/-- A walk that comes to an end passes the whole chain. -/
theorem chain_walk {next : α → Option α} {n : ℕ} {start : Option α}
    (h : (walk next n start).length < n) : Chain next start (walk next n start) := by
  induction n generalizing start with
  | zero => simp at h
  | succ n ih =>
    cases start with
    | none => rfl
    | some a => exact ⟨rfl, ih (by simpa [walk] using h)⟩

theorem reach_iff_mem_walk {next : α → Option α} {n : ℕ} {start : Option α}
    (h : (walk next n start).length < n) (a : α) : Reach next start a ↔ a ∈ walk next n start :=
  (chain_walk h).reach_iff a

end MiniMemcached.Lists
