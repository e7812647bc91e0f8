import Mathlib.Data.Finset.Basic
import Mathlib.Data.Finset.Range
import Mathlib.Data.Multiset.UnionInter

/-! Names in use and their holders. A resource that is handed out under a name, and
handed out again under the same name once it was given back, has one holder at a
time when the names in use are just those that are held, each of them once. -/

namespace MiniMemcached.Runs

variable {α : Type*} {used : Finset α} {holders : Multiset α} {a : α}

/-- The names in use are held, each of them once, and no other name is. -/
def Owned (used : Finset α) (holders : Multiset α) : Prop := used.val = holders

namespace Owned

theorem mem_iff (h : Owned used holders) : a ∈ used ↔ a ∈ holders := by
  rw [← h]
  exact Finset.mem_def

theorem nodup (h : Owned used holders) : holders.Nodup := by
  rw [← h]
  exact used.nodup

variable [DecidableEq α]

/-- A name that is not in use gets a holder. -/
theorem take (h : Owned used holders) (ha : a ∉ used) : Owned (insert a used) (a ::ₘ holders) := by
  rw [Owned, Finset.insert_val_of_notMem ha, h]

/-- The holder of a name gives it back. -/
theorem give (h : Owned used (a ::ₘ holders)) : Owned (used.erase a) holders := by
  rw [Owned, Finset.erase_val, h, Multiset.erase_cons_head]

end Owned

/-- The names of the first `n` holders that are not gone. -/
def remaining (n : ℕ) (gone : Finset ℕ) (name : ℕ → α) : Multiset α := (Finset.range n \ gone).val.map name

section Remaining

variable {n : ℕ} {gone : Finset ℕ} {name : ℕ → α}

/-- One more holder comes, and the earlier ones keep their names. -/
theorem remaining_succ {name' : ℕ → α} (hgone : ∀ k ∈ gone, k < n) (hname : ∀ k < n, name' k = name k) :
    remaining (n + 1) gone name' = name' n ::ₘ remaining n gone name := by
  have hn : n ∉ gone := fun h => lt_irrefl n (hgone n h)
  unfold remaining
  rw [Finset.range_add_one, Finset.insert_sdiff_of_notMem _ hn,
    Finset.insert_val_of_notMem (by simp), Multiset.map_cons]
  congr 1
  refine Multiset.map_congr rfl fun k hk => hname k ?_
  exact Finset.mem_range.mp (Finset.mem_sdiff.mp (Finset.mem_def.mpr hk)).1

/-- A holder goes. -/
theorem remaining_insert {k : ℕ} (hk : k < n) (hgone : k ∉ gone) :
    remaining n gone name = name k ::ₘ remaining n (insert k gone) name := by
  have hmem : k ∈ Finset.range n \ gone := Finset.mem_sdiff.mpr ⟨Finset.mem_range.mpr hk, hgone⟩
  unfold remaining
  rw [Finset.sdiff_insert, Finset.erase_val, ← Multiset.map_cons,
    Multiset.cons_erase (Finset.mem_def.mp hmem)]

theorem mem_remaining {k : ℕ} (hk : k < n) (hgone : k ∉ gone) : name k ∈ remaining n gone name := by
  rw [remaining_insert hk hgone]
  exact Multiset.mem_cons_self ..

/-- Where the names are apart, one of them tells the holder. -/
theorem eq_of_remaining {j k : ℕ} (hnodup : (remaining n gone name).Nodup) (hj : j < n) (hjg : j ∉ gone)
    (hk : k < n) (hkg : k ∉ gone) (h : name j = name k) : j = k := by
  by_contra hne
  rw [remaining_insert hk hkg] at hnodup
  refine (Multiset.nodup_cons.mp hnodup).1 (h ▸ mem_remaining hj ?_)
  simpa [hjg] using hne

end Remaining

end MiniMemcached.Runs
