import MiniMemcached.Service.UniqueKeys

/-! Eviction. An item is linked into the LRU list of the class that its `slabs_clsid`
names, which is 0 for every item, so that the tail scan of `do_item_alloc` finds the
list of the class empty and nothing is ever evicted. -/

namespace MiniMemcached.Service

open MiniMemcached.Lists Runs

/-- Class `id` has a linked item, in a chunk of its own, that nobody else references. -/
structure Evictable (s : Cache) (id : ℕ) : Prop where
  enabled : s.memSetting.evictToFree = true
  item : ∃ p b, Reach s.items.hNext (s.hashtable.primaryHashtable b) p ∧
    p ∈ (s.slab.cls id).chunks ∧ s.items.refcount p = 1

/-- `item_alloc` for an item with these lengths returns a chunk. -/
def Allocates (s : Cache) (nkey : ℕ) (nbytes : ℤ) : Prop :=
  ∃ s' it, s.doItemAlloc nkey nbytes = .ok (s', some it)

/-- In every reachable state `item_alloc` returns a chunk just when the freelist of the
class has one or `do_slabs_newslab` grants a page. -/
theorem allocates_iff {limit : ℕ} {set : Settings} {mallocOk : ℕ → Bool} {hashpower : ℕ} {s : Cache}
    (hinit : Cache.init limit set mallocOk hashpower = some s) {as : List Action} {st : Service}
    (hrun : run step (start s) as = .ok st) {nkey : ℕ} {nbytes : ℤ} {id : ℕ} (hid : id ≠ 0)
    (hclass : st.cache.slab.slabsClsid (ntotal nkey nbytes) = id) :
    Allocates st.cache nkey nbytes ↔ st.cache.slab.grants id := by
  obtain ⟨g, h⟩ := invariant_run (I := fun st => ∃ g, Inv st g)
    (fun _ _ _ hI hstep => inv_step hI hstep) (start_inv hinit) hrun
  obtain ⟨hno, hyes⟩ := h.sound.doItemAlloc_spec nkey nbytes
  have hok : st.cache.slab.allocOk nkey nbytes ↔ st.cache.slab.grants id := by
    rw [Slab.allocOk, hclass]
    exact and_iff_right hid
  constructor
  · rintro ⟨s', it, heq⟩
    by_contra hng
    obtain ⟨b, t, hnone, -⟩ := hno (hok.not.mpr hng)
    rw [heq] at hnone
    cases hnone
  · intro hg
    obtain ⟨s', g', it, heq, -⟩ := hyes (hok.mpr hg)
    exact ⟨s', it, heq⟩

/-- Two keys that fill the two chunks of class 1. -/
def fillClass : List Action :=
  storing 1 0 (shortLine .set 97 0 0 0) set_ne_error ++ storing 1 0 (shortLine .set 98 0 0 0) set_ne_error

/-- Class 1 has a linked item that nobody references, and gives no chunk for a third key. -/
theorem fillClass_refused : ∃ s st, Cache.init 1 smallSettings (fun _ => true) 0 = some s ∧
    run step (start s) fillClass = .ok st ∧ Evictable st.cache 1 ∧
    st.cache.slab.slabsClsid (ntotal 1 3) = 1 ∧ ¬Allocates st.cache 1 3 := by
  have htrial : (trial 1 0 fillClass).any (fun st =>
      st.cache.memSetting.evictToFree &&
      decide ((⟨1, 104⟩ : Ptr) ∈ walk st.cache.items.hNext 5 (st.cache.hashtable.primaryHashtable 0)) &&
      decide ((walk st.cache.items.hNext 5 (st.cache.hashtable.primaryHashtable 0)).length < 5) &&
      decide ((⟨1, 104⟩ : Ptr) ∈ (st.cache.slab.cls 1).chunks) &&
      decide (st.cache.items.refcount ⟨1, 104⟩ = 1) &&
      decide (st.cache.slab.slabsClsid (ntotal 1 3) = 1) &&
      (st.cache.doItemAlloc 1 3).toOption.any fun r => r.2 = none) = true := by decide +kernel
  obtain ⟨s, st, hinit, hrun, hp⟩ := exists_of_trial htrial
  simp only [Bool.and_eq_true, decide_eq_true_eq] at hp
  obtain ⟨⟨⟨⟨⟨⟨he, hw⟩, hlen⟩, hc⟩, hr⟩, hid⟩, hnone⟩ := hp
  refine ⟨s, st, hinit, hrun, ⟨he, _, 0, (reach_iff_mem_walk hlen _).mpr hw, hc, hr⟩, hid, ?_⟩
  rintro ⟨s', it, heq⟩
  simp [heq, Except.toOption] at hnone

theorem allocates_iff_fillClass : ∃ s st, Cache.init 1 smallSettings (fun _ => true) 0 = some s ∧
    run step (start s) fillClass = .ok st ∧ (Allocates st.cache 1 3 ↔ st.cache.slab.grants 1) := by
  have htrial : (trial 1 0 fillClass).any (fun st =>
      decide (st.cache.slab.slabsClsid (ntotal 1 3) = 1)) = true := by decide +kernel
  obtain ⟨s, st, hinit, hrun, hp⟩ := exists_of_trial htrial
  exact ⟨s, st, hinit, hrun, allocates_iff hinit hrun (by decide) (by simpa using hp)⟩

end MiniMemcached.Service
