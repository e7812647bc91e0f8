import MiniMemcached.Runs.Locks
import MiniMemcached.Runs.Path
import Mathlib.Logic.Relation

/-! Threads that contend for locks. Each does one piece of work after another, and a piece
of work is a list of lock events; the threads take their turns in any order. When the
pieces keep to the order of the locks, a lock has one holder and no threads wait for one
another in a circle. -/

namespace MiniMemcached.Runs

variable {ι L : Type*} [DecidableEq L]

/-- The locks that each thread holds, and the events of its piece of work that are still to
come. -/
structure Threads (ι L : Type*) where
  held : ι → List L
  rest : ι → List (LockEvent L)

namespace Threads

/-- Nobody has begun. -/
def idle : Threads ι L where
  held _ := []
  rest _ := []

/-- The next event of `i` is to take a lock that `j` holds. -/
def WaitsFor (ts : Threads ι L) (i j : ι) : Prop := ∃ l es, ts.rest i = .lock l :: es ∧ l ∈ ts.held j

/-- Each thread keeps to the order and will leave no lock behind, and no lock is held twice. -/
structure Orderly (rank : L → ℕ) (ts : Threads ι L) : Prop where
  follows : ∀ i, follow rank (ts.held i) (ts.rest i) = some []
  nodup : ∀ i, (ts.held i).Nodup
  one : ∀ i j l, l ∈ ts.held i → l ∈ ts.held j → i = j

variable {rank : L → ℕ} {Work : List (LockEvent L) → Prop} {ts ts' : Threads ι L} {i j : ι}

theorem orderly_idle : Orderly rank (idle : Threads ι L) :=
  ⟨fun _ => rfl, fun _ => List.nodup_nil, fun _ _ _ h => by cases h⟩

/-- A thread between two pieces of work holds no lock. -/
theorem Orderly.held_nil (h : Orderly rank ts) (hidle : ts.rest i = []) : ts.held i = [] := by
  have hfollow := h.follows i
  rw [hidle, follow_nil, Option.some.injEq] at hfollow
  exact hfollow

/-- A thread that holds what another one waits for does not wait for anything lower. -/
theorem Orderly.awaited_lt (h : Orderly rank ts) (hij : ts.WaitsFor i j) {k : ι} (hjk : ts.WaitsFor j k) :
    awaited rank (ts.rest i) < awaited rank (ts.rest j) := by
  obtain ⟨l, es, hrest, hl⟩ := hij
  obtain ⟨l', es', hrest', -⟩ := hjk
  have hfollow := h.follows j
  rw [hrest', follow_cons, heldAfter] at hfollow
  split_ifs at hfollow with hrank
  · rw [hrest, hrest']
    exact hrank l hl
  · simp at hfollow

/-- Along a chain of waiting threads the locks go up. -/
theorem Orderly.chain_lt (h : Orderly rank ts) (hij : Relation.TransGen ts.WaitsFor i j) {k : ι}
    (hjk : ts.WaitsFor j k) : awaited rank (ts.rest i) < awaited rank (ts.rest j) := by
  induction hij generalizing k with
  | single hij => exact h.awaited_lt hij hjk
  | tail _ hjm ih => exact (ih hjm).trans (h.awaited_lt hjm hjk)

/-- No threads wait for one another in a circle. -/
theorem Orderly.no_circle (h : Orderly rank ts) : ¬Relation.TransGen ts.WaitsFor i i := by
  intro hcircle
  obtain ⟨k, hik, -⟩ := Relation.TransGen.head'_iff.mp hcircle
  exact absurd (h.chain_lt hcircle hik) (lt_irrefl _)

/-- As long as a thread is at work, some thread at work does not wait. -/
theorem Orderly.exists_free [Finite ι] (h : Orderly rank ts) (hbusy : ∃ i, ts.rest i ≠ []) :
    ∃ i, ts.rest i ≠ [] ∧ ∀ j, ¬ts.WaitsFor i j := by
  obtain ⟨i, hi, hfree⟩ := exists_not_waiting (fun i => ⟨ts.held i, ts.rest i, h.follows i⟩) hbusy
  exact ⟨i, hi, fun j ⟨l, es, hrest, hl⟩ => hfree ⟨l, es, j, hrest, hl⟩⟩

/-! ### Turns -/

variable [DecidableEq ι]

/-- A thread has come to this point. -/
def at_ (ts : Threads ι L) (i : ι) (held : List L) (rest : List (LockEvent L)) : Threads ι L where
  held := Function.update ts.held i held
  rest := Function.update ts.rest i rest

/-- A turn of one thread. A lock that somebody holds cannot be taken; a try may fail. -/
inductive Turn (Work : List (LockEvent L) → Prop) (ts : Threads ι L) (i : ι) : Threads ι L → Prop
  | begin {es : List (LockEvent L)} (hidle : ts.rest i = []) (hwork : Work es) :
      Turn Work ts i (ts.at_ i (ts.held i) es)
  | lock {l : L} {es : List (LockEvent L)} (hrest : ts.rest i = .lock l :: es) (hfree : ∀ j, l ∉ ts.held j) :
      Turn Work ts i (ts.at_ i (l :: ts.held i) es)
  | taken {l : L} {es : List (LockEvent L)} (hrest : ts.rest i = .tryLock l true :: es)
      (hfree : ∀ j, l ∉ ts.held j) : Turn Work ts i (ts.at_ i (l :: ts.held i) es)
  | missed {l : L} {es : List (LockEvent L)} (hrest : ts.rest i = .tryLock l false :: es) :
      Turn Work ts i (ts.at_ i (ts.held i) es)
  | unlock {l : L} {es : List (LockEvent L)} (hrest : ts.rest i = .unlock l :: es) :
      Turn Work ts i (ts.at_ i ((ts.held i).erase l) es)

/-- A thread has come to a point from which it keeps to the order. -/
theorem Orderly.at_ (h : Orderly rank ts) {held : List L} {rest : List (LockEvent L)}
    (hfollow : follow rank held rest = some []) (hnodup : held.Nodup)
    (hheld : ∀ l ∈ held, ∀ j, l ∈ ts.held j → j = i) : Orderly rank (ts.at_ i held rest) := by
  have hself : (ts.at_ i held rest).held i = held := Function.update_self ..
  have hother : ∀ j ≠ i, (ts.at_ i held rest).held j = ts.held j := fun j hj => Function.update_of_ne hj ..
  refine ⟨fun j => ?_, fun j => ?_, fun j k l hj hk => ?_⟩
  · by_cases hj : j = i
    · subst hj
      rw [hself, show (ts.at_ j held rest).rest j = rest from Function.update_self ..]
      exact hfollow
    · rw [hother j hj, show (ts.at_ i held rest).rest j = ts.rest j from Function.update_of_ne hj ..]
      exact h.follows j
  · by_cases hj : j = i
    · rw [hj, hself]
      exact hnodup
    · rw [hother j hj]
      exact h.nodup j
  · by_cases hji : j = i <;> by_cases hki : k = i
    · rw [hji, hki]
    · rw [hji, hself] at hj
      rw [hother k hki] at hk
      exact absurd (hheld l hj k hk) hki
    · rw [hki, hself] at hk
      rw [hother j hji] at hj
      exact absurd (hheld l hk j hj) hji
    · rw [hother j hji] at hj
      rw [hother k hki] at hk
      exact h.one j k l hj hk

/-- A turn keeps the threads in order. -/
theorem Orderly.turn (hwork : ∀ es, Work es → follow rank [] es = some []) (h : Orderly rank ts)
    (hturn : Turn Work ts i ts') : Orderly rank ts' := by
  have hfollow := h.follows i
  have hmine : ∀ l ∈ ts.held i, ∀ j, l ∈ ts.held j → j = i := fun l hl j hj => h.one j i l hj hl
  cases hturn with
  | begin hidle hes =>
    rw [hidle, follow_nil, Option.some.injEq] at hfollow
    exact h.at_ (hfollow ▸ hwork _ hes) (h.nodup i) hmine
  | @lock l es hrest hfree =>
    rw [hrest, follow_cons, heldAfter] at hfollow
    split_ifs at hfollow
    · refine h.at_ hfollow (List.nodup_cons.mpr ⟨hfree i, h.nodup i⟩) fun l' hl' j hj => ?_
      rcases List.mem_cons.mp hl' with rfl | hl'
      · exact absurd hj (hfree j)
      · exact hmine l' hl' j hj
    · simp at hfollow
  | @taken l es hrest hfree =>
    rw [hrest, follow_cons, heldAfter, if_neg (hfree i)] at hfollow
    refine h.at_ hfollow (List.nodup_cons.mpr ⟨hfree i, h.nodup i⟩) fun l' hl' j hj => ?_
    rcases List.mem_cons.mp hl' with rfl | hl'
    · exact absurd hj (hfree j)
    · exact hmine l' hl' j hj
  | missed hrest =>
    rw [hrest] at hfollow
    exact h.at_ hfollow (h.nodup i) hmine
  | @unlock l es hrest =>
    rw [hrest, follow_cons, heldAfter] at hfollow
    split_ifs at hfollow
    · exact h.at_ hfollow ((h.nodup i).erase l) fun l' hl' j hj => hmine l' (List.mem_of_mem_erase hl') j hj
    · simp at hfollow

theorem Orderly.path (hwork : ∀ es, Work es → follow rank [] es = some []) {is : List ι}
    (hpath : Path (Turn Work) idle is ts) : Orderly rank ts :=
  hpath.invariant (fun _ _ _ h _ hturn => h.turn hwork hturn) (fun _ _ => trivial) orderly_idle

end Threads

end MiniMemcached.Runs
