import Mathlib.Data.Option.Basic
import Mathlib.Logic.Function.Basic

/-! Maps that may forget. To rebind a key gives it a new entry, or none; where an entry
of the key was taken out the keys of its class may lose theirs, and no key gets an entry
back. A map that is only rebound stays below the map that forgets nothing, and equal to
it on the keys whose classes no other key shares. -/

namespace MiniMemcached.Maps

variable {K V W C : Type*}

/-- What the map `m` shows of an entry is what `n` has. -/
def Below (show_ : V → W) (m : K → Option V) (n : K → Option W) : Prop :=
  ∀ k, ∀ v ∈ m k, show_ v ∈ n k

/-- The key `k` of `m` gets the entry `o`. -/
structure Rebinds (cls : K → C) (m : K → Option V) (k : K) (o : Option V) (m' : K → Option V) : Prop where
  self : m' k = o
  other : ∀ j ≠ k, m' j = m j ∨ m' j = none ∧ (m k).isSome ∧ cls j = cls k

theorem Below.empty (show_ : V → W) (n : K → Option W) : Below show_ (fun _ => none) n := by
  intro k v hv
  cases hv

namespace Rebinds

variable {cls : K → C} {m m' : K → Option V} {k : K} {o : Option V} {show_ : V → W} {n : K → Option W}

/-- An entry of another key was there before. -/
theorem kept (h : Rebinds cls m k o m') {j : K} (hj : j ≠ k) {v : V} (hv : m' j = some v) : m j = some v := by
  rcases h.other j hj with hsame | ⟨hnone, -⟩
  · rw [← hsame, hv]
  · rw [hnone] at hv
    cases hv

/-- No entry of the key itself is left when it gets none. -/
theorem cleared (h : Rebinds cls m k none m') {j : K} {v : V} (hv : m' j = some v) :
    j ≠ k ∧ m j = some v := by
  have hj : j ≠ k := by
    rintro rfl
    rw [h.self] at hv
    cases hv
  exact ⟨hj, h.kept hj hv⟩

theorem below_other (h : Rebinds cls m k o m') (hm : Below show_ m n) {j : K} (hj : j ≠ k) :
    ∀ v ∈ m' j, show_ v ∈ n j := by
  intro v hv
  rcases h.other j hj with hsame | ⟨hnone, -⟩
  · exact hm j v (hsame ▸ hv)
  · rw [hnone] at hv
    cases hv

/-- A key that is rebound to what the other map is told stays below it. -/
theorem below [DecidableEq K] (h : Rebinds cls m k o m') (hm : Below show_ m n) {w : Option W}
    (ho : ∀ v ∈ o, show_ v ∈ w) : Below show_ m' (Function.update n k w) := by
  intro j v hv
  by_cases hj : j = k
  · subst hj
    rw [Function.update_self]
    exact ho v (h.self ▸ hv)
  · rw [Function.update_of_ne hj]
    exact h.below_other hm hj v hv

/-- A key that is left with what it had, or with nothing, needs no word of it. -/
theorem below_same (h : Rebinds cls m k o m') (hm : Below show_ m n) (ho : ∀ v ∈ o, v ∈ m k) :
    Below show_ m' n := by
  intro j v hv
  by_cases hj : j = k
  · subst hj
    exact hm j v (ho v (h.self ▸ hv))
  · exact h.below_other hm hj v hv

/-- Where no other key of the class has an entry, only the key itself changes. -/
theorem eq_update [DecidableEq K] (h : Rebinds cls m k o m')
    (halone : ∀ j ≠ k, cls j = cls k → m j = none) : m' = Function.update m k o := by
  funext j
  by_cases hj : j = k
  · rw [hj, Function.update_self, h.self]
  · rw [Function.update_of_ne hj]
    rcases h.other j hj with hsame | ⟨hnone, -, hcls⟩
    · exact hsame
    · rw [hnone, halone j hj hcls]

/-- What is seen of a rebound map, when the entries that stay look the same. -/
theorem map (h : Rebinds cls m k o m') {f f' : V → W} (hf : ∀ j ≠ k, ∀ v ∈ m j, f' v = f v) :
    Rebinds cls (fun j => (m j).map f) k (o.map f') (fun j => (m' j).map f') := by
  refine ⟨congrArg (Option.map f') h.self, fun j hj => ?_⟩
  rcases h.other j hj with hsame | ⟨hnone, hsome, hcls⟩
  · left
    rw [hsame]
    exact Option.map_congr (hf j hj)
  · exact .inr ⟨by rw [hnone, Option.map_none], by rwa [Option.isSome_map], hcls⟩

end Rebinds

end MiniMemcached.Maps
