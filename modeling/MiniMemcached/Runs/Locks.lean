import Mathlib.Data.List.Basic
import Mathlib.Data.Set.Finite.Lemmas

/-! Locks that are taken in one order. Every lock has a rank, and `follow` checks a
list of lock events: a thread waits only for a lock that ranks above all those it
holds, and gives back only what it holds. A try does not wait, so it may come out
of order. Threads that keep to this and end without a lock never all wait for
one another. -/

namespace MiniMemcached.Runs

inductive LockEvent (L : Type*)
  | lock (l : L)
  | tryLock (l : L) (taken : Bool)
  | unlock (l : L)

variable {L : Type*} [DecidableEq L] (rank : L → ℕ)

/-- The locks held after an event, if it keeps to the order. -/
def heldAfter (held : List L) : LockEvent L → Option (List L)
  | .lock l => if ∀ h ∈ held, rank h < rank l then some (l :: held) else none
  | .tryLock l true => if l ∈ held then none else some (l :: held)
  | .tryLock _ false => some held
  | .unlock l => if l ∈ held then some (held.erase l) else none

/-- The locks held after a list of events, if each one keeps to the order. -/
def follow : List L → List (LockEvent L) → Option (List L)
  | held, [] => some held
  | held, e :: es => (heldAfter rank held e).bind fun held => follow held es

@[simp] theorem follow_nil (held : List L) : follow rank held [] = some held := rfl

@[simp] theorem follow_cons (held : List L) (e : LockEvent L) (es : List (LockEvent L)) :
    follow rank held (e :: es) = (heldAfter rank held e).bind fun held => follow rank held es := rfl

variable {rank}

theorem follow_append {held held' : List L} {es : List (LockEvent L)}
    (h : follow rank held es = some held') (fs : List (LockEvent L)) :
    follow rank held (es ++ fs) = follow rank held' fs := by
  induction es generalizing held with
  | nil => cases h; rfl
  | cons e es ih =>
    rw [List.cons_append, follow_cons]
    rw [follow_cons] at h
    cases he : heldAfter rank held e with
    | none => simp [he] at h
    | some held₁ =>
      rw [he] at h
      exact ih h

/-! ### Threads -/

/-- A thread with the locks that it holds and the events still to come, all of them in
order and leaving no lock behind. -/
structure Thread (rank : L → ℕ) where
  held : List L
  rest : List (LockEvent L)
  orderly : follow rank held rest = some []

/-- The thread waits for a lock that some thread holds. -/
def Waits {ι : Type*} (ts : ι → Thread rank) (i : ι) : Prop :=
  ∃ l es j, (ts i).rest = .lock l :: es ∧ l ∈ (ts j).held

/-- The rank of the lock that a thread waits for. -/
def awaited (rank : L → ℕ) : List (LockEvent L) → ℕ
  | .lock l :: _ => rank l
  | _ => 0

/-- As long as a thread has events to come, some thread does not wait. -/
theorem exists_not_waiting {ι : Type*} [Finite ι] (ts : ι → Thread rank)
    (hbusy : ∃ i, (ts i).rest ≠ []) : ∃ i, (ts i).rest ≠ [] ∧ ¬Waits ts i := by
  by_contra hall
  push Not at hall
  -- the thread that waits for the highest lock
  obtain ⟨i, hi, hmax⟩ := Set.exists_max_image {i | (ts i).rest ≠ []}
    (fun i => awaited rank (ts i).rest) (Set.toFinite _) hbusy
  obtain ⟨l, es, j, hrest, hj⟩ := hall i hi
  have horder := (ts j).orderly
  cases hrestj : (ts j).rest with
  | nil =>
    rw [hrestj, follow_nil, Option.some.injEq] at horder
    rw [horder] at hj
    cases hj
  | cons e fs =>
    have hbusyj : (ts j).rest ≠ [] := by simp [hrestj]
    obtain ⟨l', fs', k, hwait, -⟩ := hall j hbusyj
    have hle := hmax j hbusyj
    simp only [hrest, hwait, awaited] at hle
    rw [hwait, follow_cons, heldAfter] at horder
    split_ifs at horder with hrank
    · have := hrank l hj
      omega
    · simp at horder

end MiniMemcached.Runs
