import Mathlib.Data.Set.Insert
import MiniMemcached.Cache.Store

/-! What the operations write. `item_link_q` and `item_unlink_q` write `next`,
`prev` and the slots of one class, and they stay within a set of items that is
closed under those pointers. `do_item_remove` only decrements: the counter that
`atomic_fetch_sub` finds at 0 is `2 ^ 32 - 1` afterwards, and `item_free` refuses
such an item, so no chunk ever goes back to its freelist. -/

namespace MiniMemcached

/-- `item_link_q` writes `next`, `prev` and the lists only. -/
theorem itemLinkQ_form (m : Items) (l : LruList) (it : Ptr) :
    ∃ nx pv, (itemLinkQ m l it).1 = { m with next := nx, prev := pv } := by
  unfold itemLinkQ
  extract_lets c head m'
  split
  · exact ⟨_, _, rfl⟩
  · split <;> exact ⟨_, _, rfl⟩

theorem itemUnlinkQ_form (m : Items) (l : LruList) (it : Ptr) :
    ∃ nx pv, (itemUnlinkQ m l it).1 = { m with next := nx, prev := pv } := by
  unfold itemUnlinkQ
  extract_lets c heads tails m₁ m₂
  split <;> exact ⟨_, _, rfl⟩

/-- The list of class 0 stays within `Q`, the lists of the other classes are empty,
and the cells of `S` outside `Q` have no predecessor. -/
structure LruClosed (m : Items) (l : LruList) (Q S : Set Ptr) : Prop where
  next : ∀ p ∈ Q, ∀ q, m.next p = some q → q ∈ Q
  prev : ∀ p ∈ Q, ∀ q, m.prev p = some q → q ∈ Q
  heads : ∀ q, l.heads 0 = some q → q ∈ Q
  tails : ∀ q, l.tails 0 = some q → q ∈ Q
  others : ∀ i ≠ 0, l.heads i = none ∧ l.tails i = none
  outside : ∀ p ∈ S, p ∉ Q → m.prev p = none

namespace LruClosed

variable {m : Items} {l : LruList} {Q S : Set Ptr} {it : Ptr}

theorem congr (h : LruClosed m l Q S) {m' : Items} {S' : Set Ptr}
    (hn : ∀ p ∈ Q, m'.next p = m.next p) (hp : ∀ p ∈ Q, m'.prev p = m.prev p)
    (hout : ∀ p ∈ S', p ∉ Q → m'.prev p = none) : LruClosed m' l Q S' where
  next p hpQ q hq := h.next p hpQ q (by rw [← hn p hpQ, hq])
  prev p hpQ q hq := h.prev p hpQ q (by rw [← hp p hpQ, hq])
  heads := h.heads
  tails := h.tails
  others := h.others
  outside := hout

/-- The linked item joins the closed set, unless `item_link_q` gives up. -/
theorem link (h : LruClosed m l Q S) (hc : m.slabsClsid it = 0) :
    LruClosed (itemLinkQ m l it).1 (itemLinkQ m l it).2 (insert it Q) S ∨
      itemLinkQ m l it = (m, l) := by
  unfold itemLinkQ
  extract_lets c head m'
  have hc0 : c = 0 := by simp [c, hc]
  split
  · exact .inr rfl
  split
  · exact .inr rfl
  have hhead : ∀ q, head = some q → q ∈ Q := fun q hq => h.heads q (by rw [← hc0]; exact hq)
  refine .inl ⟨fun p hp q hq => ?_, fun p hp q hq => ?_, fun q hq => ?_, fun q hq => ?_,
    fun i hi => ?_, fun p hp hpQ => ?_⟩
  · simp only [m', Items.setPrevOf, Items.setNext, Items.setPrev, Function.update_apply] at hq
    split_ifs at hq with hpi
    · exact .inr (hhead q hq)
    · exact .inr (h.next p (hp.resolve_left hpi) q hq)
  · simp only [m', Items.setPrevOf, Items.setNext, Items.setPrev, Function.update_apply] at hq
    split_ifs at hq with hph hpi
    · cases hq; exact .inl rfl
    · exact .inr (h.prev p (hp.resolve_left hpi) q hq)
  · simp only [hc0, Function.update_self, Option.some.injEq] at hq
    exact .inl hq.symm
  · simp only [hc0] at hq
    split_ifs at hq
    · rw [Function.update_self] at hq
      exact .inl (Option.some.inj hq).symm
    · exact .inr (h.tails q hq)
  · simp only [hc0]
    rw [Function.update_of_ne hi]
    refine ⟨(h.others i hi).1, ?_⟩
    split_ifs
    · rw [Function.update_of_ne hi]; exact (h.others i hi).2
    · exact (h.others i hi).2
  · obtain ⟨hpi, hpQ⟩ := not_or.mp hpQ
    have hph : head ≠ some p := fun e => hpQ (hhead p e)
    simpa [m', Items.setPrevOf, Items.setNext, Items.setPrev, hpi, hph] using h.outside p hp hpQ

/-- An item of the closed set has its neighbours there; another one has no
predecessor, so that only a `prev` field is cleared. -/
theorem unlink (h : LruClosed m l Q S) (hit : it ∈ S) (hc : m.slabsClsid it = 0) :
    LruClosed (itemUnlinkQ m l it).1 (itemUnlinkQ m l it).2 Q S := by
  have hprevQ : ∀ q, m.prev it = some q → it ∈ Q ∧ q ∈ Q := by
    intro q hq
    by_cases hQ : it ∈ Q
    · exact ⟨hQ, h.prev it hQ q hq⟩
    · rw [h.outside it hit hQ] at hq
      cases hq
  unfold itemUnlinkQ
  extract_lets c heads tails m₁ m₂
  have hc0 : c = 0 := by simp [c, hc]
  have hm₁ : ∀ q, m₁.prev it = some q → it ∈ Q ∧ q ∈ Q := by
    intro q hq
    simp only [m₁, Items.setPrevOf, ite_self] at hq
    exact hprevQ q hq
  split
  · exact h
  refine ⟨fun p hp q hq => ?_, fun p hp q hq => ?_, fun q hq => ?_, fun q hq => ?_,
    fun i hi => ?_, fun p hp hpQ => ?_⟩
  · simp only [m₂, Items.setNextOf] at hq
    split_ifs at hq with hpi
    · exact h.next it (hm₁ p hpi).1 q hq
    · exact h.next p hp q hq
  · simp only [m₂, m₁, Items.setNextOf, Items.setPrevOf] at hq
    split_ifs at hq
    · exact (hprevQ q hq).2
    · exact h.prev p hp q hq
  · simp only [heads, hc0] at hq
    split_ifs at hq with hand
    · rw [Function.update_self] at hq
      exact h.next it (h.heads it hand.1) q hq
    · exact h.heads q hq
  · simp only [tails, hc0] at hq
    split_ifs at hq
    · rw [Function.update_self] at hq
      exact (hprevQ q hq).2
    · exact h.tails q hq
  · simp only [heads, tails, hc0]
    constructor
    · split_ifs
      · rw [Function.update_of_ne hi]; exact (h.others i hi).1
      · exact (h.others i hi).1
    · split_ifs
      · rw [Function.update_of_ne hi]; exact (h.others i hi).2
      · exact (h.others i hi).2
  · simp only [m₂, m₁, Items.setNextOf, Items.setPrevOf]
    split_ifs with hnext
    · by_cases hQ : it ∈ Q
      · exact absurd (h.next it hQ p hnext) hpQ
      · exact h.outside it hit hQ
    · exact h.outside p hp hpQ

end LruClosed

/-- `item_link_q` writes the `next` field of the linked item only. -/
theorem itemLinkQ_next {m : Items} {l : LruList} {it p : Ptr} (hp : p ≠ it) :
    (itemLinkQ m l it).1.next p = m.next p := by
  unfold itemLinkQ
  extract_lets c head m'
  split
  · rfl
  · split
    · rfl
    · simp [m', Items.setPrevOf, Items.setNext, Items.setPrev, hp]

/-- `item_unlink_q` writes the `next` field of the item's predecessor only. -/
theorem itemUnlinkQ_next {m : Items} {l : LruList} {it p : Ptr} (hp : m.prev it ≠ some p) :
    (itemUnlinkQ m l it).1.next p = m.next p := by
  unfold itemUnlinkQ
  extract_lets c heads tails m₁ m₂
  split
  · rfl
  · simp [m₂, m₁, Items.setNextOf, Items.setPrevOf, hp]

namespace Cache

/-- `do_item_remove` decrements, and nothing more. -/
theorem doItemRemove_eq {s : Cache} {it : Ptr}
    (h : s.items.itemFlag it &&& Slab.ITEM_SLABBED = 0) : s.doItemRemove it = s.fetchSub it := by
  unfold doItemRemove
  rw [if_neg (not_not.mpr h)]
  split_ifs with hz
  · unfold itemFree
    have hne : (s.fetchSub it).items.refcount it ≠ 0 := by
      simp [fetchSub, emit, Items.setRefcount, hz]
    rw [if_pos fun hand => hne hand.2.2.2]
  · rfl

end Cache

end MiniMemcached
