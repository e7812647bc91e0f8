import MiniMemcached.Cache.Lru
import MiniMemcached.Lists.DoublyLinked

/-! The LRU list of class 0 as a doubly linked list. `item_link_q` puts an item in
front. `item_unlink_q` takes out an item between two others; the head slot and
the tail slot are not moved for the items that stand there, so those stay. -/

namespace MiniMemcached

open MiniMemcached.Lists

section Class

variable {m : Items} {l : LruList} {it : Ptr} {c : ℕ} (hc : (m.slabsClsid it).toNat = c)
  (hslab : m.itemFlag it &&& Slab.ITEM_SLABBED = 0)
include hc hslab

/-- `item_link_q` of an item that it does not refuse. -/
theorem itemLinkQ_eq (hle : c ≤ Slab.POWER_LARGEST) (hhead : l.heads c ≠ some it)
    (hends : (l.heads c).isSome = (l.tails c).isSome) :
    itemLinkQ m l it = ({ m with
        next := Function.update m.next it (l.heads c)
        prev := fun p => if l.heads c = some p then some it else Function.update m.prev it none p },
      { heads := Function.update l.heads c (some it)
        tails := Function.update l.tails c (if l.tails c = none then some it else l.tails c)
        sizes := Function.update l.sizes c (l.sizes c + 1) }) := by
  have hguard : ¬(Slab.POWER_LARGEST < c ∨ m.itemFlag it &&& Slab.ITEM_SLABBED ≠ 0) := by
    simp only [hslab, ne_eq, not_true_eq_false, or_false]
    omega
  unfold itemLinkQ
  simp only [hc]
  rw [if_neg hguard, if_neg (by simp [hhead, hends])]
  split_ifs with htail
  · rfl
  · rw [Function.update_eq_self]
    rfl

/-- `item_unlink_q` moves no slot: it would do so for a head with a predecessor and for a
tail with a successor. -/
theorem itemUnlinkQ_eq (hle : c ≤ Slab.POWER_LARGEST) (hh : l.heads c = some it → m.prev it = none)
    (ht : l.tails c = some it → m.next it = none) :
    itemUnlinkQ m l it = ({ m with
        next := fun p => if m.prev it = some p then m.next it else m.next p
        prev := fun p => if m.next it = some p then m.prev it else m.prev p },
      { l with sizes := Function.update l.sizes c (l.sizes c - 1) }) := by
  have hguard : ¬(Slab.POWER_LARGEST < c ∨ m.itemFlag it &&& Slab.ITEM_SLABBED ≠ 0) := by
    simp only [hslab, ne_eq, not_true_eq_false, or_false]
    omega
  unfold itemUnlinkQ
  simp only [hc]
  rw [if_neg hguard, if_neg fun h => h.2 (hh h.1), if_neg fun h => h.2 (ht h.1)]
  simp [Items.setNextOf, Items.setPrevOf]

end Class

/-- The LRU list of class 0 is `L`, read both ways. -/
def Queue (m : Items) (l : LruList) (L : List Ptr) : Prop :=
  Doubly m.next m.prev (l.heads 0) (l.tails 0) L

namespace Queue

variable {m : Items} {l : LruList} {L : List Ptr} {it : Ptr}

theorem linkQ (h : Queue m l L) (hc : m.slabsClsid it = 0)
    (hslab : m.itemFlag it &&& Slab.ITEM_SLABBED = 0) (hit : it ∉ L) :
    Queue (itemLinkQ m l it).1 (itemLinkQ m l it).2 (it :: L) := by
  have hpush := Doubly.push h hit
  rw [itemLinkQ_eq (congrArg UInt8.toNat hc) hslab (Nat.zero_le _)
    (fun e => hit (h.mem_of_head e)) h.isSome_eq]
  unfold Queue
  simp only [UInt8.toNat_zero, Function.update_self]
  exact hpush

/-- The item has a neighbour on both sides, so it is taken out. -/
theorem unlinkQ (h : Queue m l L) (hc : m.slabsClsid it = 0)
    (hslab : m.itemFlag it &&& Slab.ITEM_SLABBED = 0) (hit : it ∈ L) (hh : l.heads 0 ≠ some it)
    (ht : l.tails 0 ≠ some it) :
    Queue (itemUnlinkQ m l it).1 (itemUnlinkQ m l it).2 (L.erase it) := by
  rw [itemUnlinkQ_eq (congrArg UInt8.toNat hc) hslab (Nat.zero_le _) h.prev_head h.next_tail]
  exact Doubly.unlink h hit hh ht

/-- A list whose first cell is its last one. -/
theorem eq_singleton (h : Queue m l L) (hh : l.heads 0 = some it) (ht : l.tails 0 = some it) :
    L = [it] := by
  have hnodup := h.forward.nodup
  have hhead := h.head_eq
  have htail := h.tail_eq
  rw [hh] at hhead
  rw [ht] at htail
  cases L with
  | nil => simp at hhead
  | cons a L =>
    obtain rfl : it = a := by simpa using hhead
    rcases List.eq_nil_or_concat L with rfl | ⟨L', b, rfl⟩
    · rfl
    · obtain rfl : it = b := by
        rw [List.concat_eq_append, ← List.cons_append, List.getLast?_concat] at htail
        exact Option.some.inj htail
      simp at hnodup

/-- An item that is alone in its list is touched without any effect on the list. -/
theorem relinkQ_alone (h : Queue m l L) (hc : m.slabsClsid it = 0)
    (hslab : m.itemFlag it &&& Slab.ITEM_SLABBED = 0) (hh : l.heads 0 = some it)
    (ht : l.tails 0 = some it) (v : UInt32) :
    Queue (itemLinkQ ((itemUnlinkQ m l it).1.setRealtime it v) (itemUnlinkQ m l it).2 it).1
      (itemLinkQ ((itemUnlinkQ m l it).1.setRealtime it v) (itemUnlinkQ m l it).2 it).2 L := by
  obtain rfl := h.eq_singleton hh ht
  have hnext : m.next it = none := h.forward.2
  have hprev : m.prev it = none := h.backward.2
  have hout : itemUnlinkQ m l it = (m, { l with sizes := Function.update l.sizes 0 (l.sizes 0 - 1) }) := by
    rw [itemUnlinkQ_eq (congrArg UInt8.toNat hc) hslab (Nat.zero_le _) h.prev_head h.next_tail]
    simp [hnext, hprev]
  have hin : itemLinkQ (m.setRealtime it v)
      { l with sizes := Function.update l.sizes 0 (l.sizes 0 - 1) } it = (m.setRealtime it v,
        { l with sizes := Function.update l.sizes 0 (l.sizes 0 - 1) }) := by
    unfold itemLinkQ
    simp [hc, hh, Items.setRealtime]
  simp only [hout, hin]
  exact h

end Queue

end MiniMemcached
