import MiniMemcached.Cache.Queue
import MiniMemcached.Cache.Store
import MiniMemcached.Runs.Steps

/-! The LRU lists against lists in order. A run links items, takes them out and
touches them, in the memory and in one list for each class side by side. The two
agree as long as no item that is taken out or moved stands at the head or the
tail of its list: `item_unlink_q` leaves the slots at such an item. -/

namespace MiniMemcached

open MiniMemcached.Lists Runs

/-- The cache, and the order that the list of each class is to have. -/
structure LruOrder where
  cache : Cache
  lists : ℕ → List Ptr

/-- The calls that change the lists. In between the clock goes on, and the fields of
items that the lists do not depend on may be written. -/
inductive LruOp
  | tick (now : UInt32)
  | write (m : Items)
  | link (it : Ptr)
  | unlink (it : Ptr)
  | update (it : Ptr)

theorem toNat_add_one {n : UInt32} (h : n ≠ 0xffffffff) : (n + 1).toNat = n.toNat + 1 := by
  have hne : n.toNat ≠ 4294967295 := fun e => h (UInt32.toNat_inj.mp e)
  have hlt := n.toNat_lt
  rw [UInt32.toNat_add]
  simp
  omega

theorem toNat_sub_one {n : UInt32} (h : n ≠ 0) : (n - 1).toNat = n.toNat - 1 := by
  have hne : n.toNat ≠ 0 := fun e => h (UInt32.toNat_inj.mp e)
  have hlt := n.toNat_lt
  rw [UInt32.toNat_sub]
  simp
  omega

namespace LruOrder

variable {x : LruOrder} {it : Ptr}

/-- The class of an item. -/
def classOf (x : LruOrder) (it : Ptr) : ℕ := (x.cache.items.slabsClsid it).toNat

/-- The item was not touched for more than `ITEM_UPDATE_INTERVAL`. -/
def Untouched (x : LruOrder) (it : Ptr) : Prop :=
  (x.cache.items.realtime it).toNat + LruList.ITEM_UPDATE_INTERVAL.toNat < x.cache.clock.toNat

instance (x : LruOrder) (it : Ptr) : Decidable (x.Untouched it) := by
  unfold Untouched
  infer_instance

def step (x : LruOrder) : LruOp → Result LruOrder
  | .tick now => .ok { x with cache := { x.cache with clock := now } }
  | .write m => .ok { x with cache := { x.cache with items := m } }
  | .link it =>
    .ok { cache := x.cache.itemLinkQ it
          lists := Function.update x.lists (x.classOf it) (it :: x.lists (x.classOf it)) }
  | .unlink it =>
    .ok { cache := x.cache.itemUnlinkQ it
          lists := Function.update x.lists (x.classOf it) ((x.lists (x.classOf it)).erase it) }
  | .update it =>
    .ok { cache := x.cache.doItemUpdate it
          lists := if x.Untouched it then
              Function.update x.lists (x.classOf it) (it :: (x.lists (x.classOf it)).erase it)
            else x.lists }

/-- The callers link items of a class that are on no list, as `do_item_link` has marked
them, and name items on their list otherwise. An item that is updated is marked. -/
def Lawful (x : LruOrder) : LruOp → Prop
  | .tick _ => True
  | .write m => ∀ c, ∀ p ∈ x.lists c, m.next p = x.cache.items.next p ∧
    m.prev p = x.cache.items.prev p ∧ m.slabsClsid p = x.cache.items.slabsClsid p ∧
    m.itemFlag p &&& Slab.ITEM_SLABBED = 0
  | .link it => x.classOf it < Slab.POWER_LARGEST ∧
    x.cache.items.itemFlag it &&& Slab.ITEM_SLABBED = 0 ∧ it ∉ x.lists (x.classOf it)
  | .unlink it => it ∈ x.lists (x.classOf it)
  | .update it => it ∈ x.lists (x.classOf it) ∧
    x.cache.items.itemFlag it &&& Slab.ITEM_LINKED ≠ 0

/-- The memory holds the lists: read from the head and from the tail, with null slots
for an empty list only, and with their lengths in `sizes`. -/
structure Represents (x : LruOrder) : Prop where
  doubly : ∀ c, Doubly x.cache.items.next x.cache.items.prev (x.cache.lru.heads c)
    (x.cache.lru.tails c) (x.lists c)
  nodup : ∀ c, (x.lists c).Nodup
  slots : ∀ c, (x.cache.lru.heads c = none ↔ x.lists c = []) ∧
    (x.cache.lru.tails c = none ↔ x.lists c = [])
  sizes : ∀ c, (x.cache.lru.sizes c).toNat = (x.lists c).length

/-- The test of `do_item_update`. -/
def Stale (x : LruOrder) (it : Ptr) : Prop :=
  x.cache.items.realtime it < x.cache.clock - LruList.ITEM_UPDATE_INTERVAL

/-- The item is neither the first nor the last one of its list. -/
def Inner (x : LruOrder) (it : Ptr) : Prop :=
  x.cache.lru.heads (x.classOf it) ≠ some it ∧ x.cache.lru.tails (x.classOf it) ≠ some it

/-- What the calls of a run have to meet: an item that is taken out stands between two
others, and so does a stale item that is updated, not in the first minute of the
clock; `sizes` has room for an item that is linked. -/
def Safe (x : LruOrder) : LruOp → Prop
  | .tick _ | .write _ => True
  | .link it => x.cache.lru.sizes (x.classOf it) ≠ 0xffffffff
  | .unlink it => x.Inner it
  | .update it => x.Stale it → LruList.ITEM_UPDATE_INTERVAL ≤ x.cache.clock ∧ x.Inner it

/-- A server whose lists are empty. -/
def start (s : Cache) : LruOrder where
  cache := s
  lists _ := []

end LruOrder

/-- The lists of all classes are in memory, and their items are of their class. -/
structure LruRep (m : Items) (l : LruList) (L : ℕ → List Ptr) : Prop where
  doubly : ∀ c, Doubly m.next m.prev (l.heads c) (l.tails c) (L c)
  sizes : ∀ c, (l.sizes c).toNat = (L c).length
  home : ∀ c, ∀ p ∈ L c, (m.slabsClsid p).toNat = c
  range : ∀ c, ∀ p ∈ L c, c < Slab.POWER_LARGEST
  unslabbed : ∀ c, ∀ p ∈ L c, m.itemFlag p &&& Slab.ITEM_SLABBED = 0

namespace LruRep

variable {m m' : Items} {l l' : LruList} {L : ℕ → List Ptr} {it : Ptr} {c : ℕ}

theorem congr (h : LruRep m l L) (hm : ∀ c, ∀ p ∈ L c, m'.next p = m.next p ∧
    m'.prev p = m.prev p ∧ m'.slabsClsid p = m.slabsClsid p ∧
    m'.itemFlag p &&& Slab.ITEM_SLABBED = 0) : LruRep m' l L where
  doubly c := (h.doubly c).congr (fun p hp => (hm c p hp).1) fun p hp => (hm c p hp).2.1
  sizes := h.sizes
  home c p hp := by
    rw [(hm c p hp).2.2.1]
    exact h.home c p hp
  range := h.range
  unslabbed c p hp := (hm c p hp).2.2.2

/-- A call that changes the list of one class only. -/
theorem update (h : LruRep m l L) {nx pv : Ptr → Option Ptr} {K : List Ptr}
    (hK : Doubly nx pv (l'.heads c) (l'.tails c) K) (hlen : (l'.sizes c).toNat = K.length)
    (hslots : ∀ j ≠ c, l'.heads j = l.heads j ∧ l'.tails j = l.tails j ∧ l'.sizes j = l.sizes j)
    (hframe : ∀ j ≠ c, ∀ p ∈ L j, nx p = m.next p ∧ pv p = m.prev p)
    (hmem : ∀ p ∈ K, (m.slabsClsid p).toNat = c ∧ c < Slab.POWER_LARGEST ∧
      m.itemFlag p &&& Slab.ITEM_SLABBED = 0) :
    LruRep { m with next := nx, prev := pv } l' (Function.update L c K) := by
  have hsplit : ∀ P : ℕ → List Ptr → Prop, P c K → (∀ j ≠ c, P j (L j)) →
      ∀ j, P j (Function.update L c K j) := by
    intro P hc hrest j
    by_cases hj : j = c
    · subst hj
      rwa [Function.update_self]
    · rw [Function.update_of_ne hj]
      exact hrest j hj
  constructor
  · apply hsplit fun j K => Doubly nx pv (l'.heads j) (l'.tails j) K
    · exact hK
    · intro j hj
      rw [(hslots j hj).1, (hslots j hj).2.1]
      exact (h.doubly j).congr (fun p hp => (hframe j hj p hp).1) fun p hp => (hframe j hj p hp).2
  · apply hsplit fun j K => (l'.sizes j).toNat = K.length
    · exact hlen
    · intro j hj
      rw [(hslots j hj).2.2, h.sizes]
  · exact hsplit (fun j K => ∀ p ∈ K, (m.slabsClsid p).toNat = j) (fun p hp => (hmem p hp).1)
      fun j _ => h.home j
  · exact hsplit (fun j K => ∀ p ∈ K, j < Slab.POWER_LARGEST) (fun p hp => (hmem p hp).2.1)
      fun j _ => h.range j
  · exact hsplit (fun _ K => ∀ p ∈ K, m.itemFlag p &&& Slab.ITEM_SLABBED = 0)
      (fun p hp => (hmem p hp).2.2) fun j _ => h.unslabbed j

theorem link (h : LruRep m l L) (hc : (m.slabsClsid it).toNat = c) (hrange : c < Slab.POWER_LARGEST)
    (hslab : m.itemFlag it &&& Slab.ITEM_SLABBED = 0) (hit : it ∉ L c)
    (hroom : l.sizes c ≠ 0xffffffff) :
    LruRep (itemLinkQ m l it).1 (itemLinkQ m l it).2 (Function.update L c (it :: L c)) := by
  have hd := h.doubly c
  rw [itemLinkQ_eq hc hslab (Nat.le_of_lt hrange) (fun e => hit (hd.mem_of_head e)) hd.isSome_eq]
  apply h.update
  · simpa only [Function.update_self] using hd.push hit
  · show (Function.update l.sizes c (l.sizes c + 1) c).toNat = _
    rw [Function.update_self, List.length_cons, ← h.sizes c]
    exact toNat_add_one hroom
  · intro j hj
    simp only [Function.update_of_ne hj, and_self]
  · intro j hj p hp
    have hne : p ≠ it := fun e => hj (by rw [← h.home j p hp, e, hc])
    have hhead : l.heads c ≠ some p := fun e => hj (by
      rw [← h.home j p hp, h.home c p (hd.mem_of_head e)])
    rw [if_neg hhead, Function.update_of_ne hne, Function.update_of_ne hne]
    exact ⟨rfl, rfl⟩
  · intro p hp
    rcases List.mem_cons.mp hp with rfl | hp
    · exact ⟨hc, hrange, hslab⟩
    · exact ⟨h.home c p hp, hrange, h.unslabbed c p hp⟩

theorem unlinkQ_eq (h : LruRep m l L) (hit : it ∈ L c) :
    itemUnlinkQ m l it = ({ m with
        next := fun p => if m.prev it = some p then m.next it else m.next p
        prev := fun p => if m.next it = some p then m.prev it else m.prev p },
      { l with sizes := Function.update l.sizes c (l.sizes c - 1) }) :=
  itemUnlinkQ_eq (h.home c it hit) (h.unslabbed c it hit)
    (Nat.le_of_lt (h.range c it hit)) (h.doubly c).prev_head (h.doubly c).next_tail

theorem unlink (h : LruRep m l L) (hit : it ∈ L c) (hh : l.heads c ≠ some it)
    (ht : l.tails c ≠ some it) :
    LruRep (itemUnlinkQ m l it).1 (itemUnlinkQ m l it).2 (Function.update L c ((L c).erase it)) := by
  have hd := h.doubly c
  rw [h.unlinkQ_eq hit]
  apply h.update
  · exact hd.unlink hit hh ht
  · show (Function.update l.sizes c (l.sizes c - 1) c).toNat = _
    rw [Function.update_self, List.length_erase_of_mem hit, ← h.sizes c]
    refine toNat_sub_one fun e => ?_
    have hlen := h.sizes c
    rw [e] at hlen
    rw [List.length_eq_zero_iff.mp hlen.symm] at hit
    cases hit
  · intro j hj
    exact ⟨rfl, rfl, Function.update_of_ne hj _ _⟩
  · intro j hj p hp
    have hprev : m.prev it ≠ some p := fun e => hj (by
      rw [← h.home j p hp, h.home c p (hd.prev_mem hit e)])
    have hnext : m.next it ≠ some p := fun e => hj (by
      rw [← h.home j p hp, h.home c p (hd.forward.next_mem hit e)])
    exact ⟨if_neg hprev, if_neg hnext⟩
  · intro p hp
    have hp := List.mem_of_mem_erase hp
    exact ⟨h.home c p hp, h.range c it hit, h.unslabbed c p hp⟩

theorem sizes_ne_zero (h : LruRep m l L) (hit : it ∈ L c) : l.sizes c ≠ 0 := by
  intro e
  have hlen := h.sizes c
  rw [e] at hlen
  rw [List.length_eq_zero_iff.mp hlen.symm] at hit
  cases hit

/-- An item between two others is moved to the front. -/
theorem relink (h : LruRep m l L) (hit : it ∈ L c) (hh : l.heads c ≠ some it)
    (ht : l.tails c ≠ some it) (v : UInt32) :
    LruRep (itemLinkQ ((itemUnlinkQ m l it).1.setRealtime it v) (itemUnlinkQ m l it).2 it).1
      (itemLinkQ ((itemUnlinkQ m l it).1.setRealtime it v) (itemUnlinkQ m l it).2 it).2
      (Function.update L c (it :: (L c).erase it)) := by
  have hform := h.unlinkQ_eq hit
  have hout := h.unlink hit hh ht
  have hroom : (itemUnlinkQ m l it).2.sizes c ≠ 0xffffffff := by
    rw [hform]
    show Function.update l.sizes c (l.sizes c - 1) c ≠ _
    rw [Function.update_self]
    intro e
    have hsub := toNat_sub_one (h.sizes_ne_zero hit)
    have hlt := (l.sizes c).toNat_lt
    rw [e] at hsub
    simp at hsub
    omega
  have hset : LruRep ((itemUnlinkQ m l it).1.setRealtime it v) (itemUnlinkQ m l it).2
      (Function.update L c ((L c).erase it)) :=
    hout.congr fun j p hp => ⟨rfl, rfl, rfl, hout.unslabbed j p hp⟩
  have hnodup := (h.doubly c).forward.nodup
  have hhome : (((itemUnlinkQ m l it).1.setRealtime it v).slabsClsid it).toNat = c := by
    rw [hform]; exact h.home c it hit
  have hin := hset.link hhome (h.range c it hit) (by rw [hform]; exact h.unslabbed c it hit)
    (by rw [Function.update_self]; exact hnodup.not_mem_erase) hroom
  simpa only [Function.update_self, Function.update_idem] using hin

/-- The first item of a list is not moved, and `sizes` loses one. -/
theorem relink_head (h : LruRep m l L) (hit : it ∈ L c) (hh : l.heads c = some it) (v : UInt32) :
    (itemLinkQ ((itemUnlinkQ m l it).1.setRealtime it v) (itemUnlinkQ m l it).2 it).2.sizes c =
      l.sizes c - 1 := by
  have hhome := h.home c it hit
  rw [h.unlinkQ_eq hit]
  unfold itemLinkQ
  simp only [Items.setRealtime, hhome, hh, true_or, if_true, ite_self, Function.update_self]

/-- Another item stands at the head of its list afterwards. -/
theorem relink_heads (h : LruRep m l L) (hit : it ∈ L c) (hh : l.heads c ≠ some it) (v : UInt32) :
    (itemLinkQ ((itemUnlinkQ m l it).1.setRealtime it v) (itemUnlinkQ m l it).2 it).2.heads c =
        some it ∧
      (l.tails c = some it → (itemLinkQ ((itemUnlinkQ m l it).1.setRealtime it v)
        (itemUnlinkQ m l it).2 it).2.tails c = some it) := by
  have hform := h.unlinkQ_eq hit
  have hclass : (((itemUnlinkQ m l it).1.setRealtime it v).slabsClsid it).toNat = c := by
    rw [hform]
    exact h.home c it hit
  have hslab : ((itemUnlinkQ m l it).1.setRealtime it v).itemFlag it &&& Slab.ITEM_SLABBED = 0 := by
    rw [hform]
    exact h.unslabbed c it hit
  have hslots : (itemUnlinkQ m l it).2.heads = l.heads ∧ (itemUnlinkQ m l it).2.tails = l.tails := by
    rw [hform]
    exact ⟨rfl, rfl⟩
  rw [itemLinkQ_eq hclass hslab (Nat.le_of_lt (h.range c it hit)) (by rw [hslots.1]; exact hh)
    (by rw [hslots.1, hslots.2]; exact (h.doubly c).isSome_eq)]
  refine ⟨Function.update_self .., fun ht => ?_⟩
  simp only [hslots.2, Function.update_self, ht, reduceCtorEq, if_false]

end LruRep

namespace LruOrder

variable {x x' : LruOrder} {a : LruOp} {it : Ptr}

/-- What the steps keep. -/
def Inv (x : LruOrder) : Prop := LruRep x.cache.items x.cache.lru x.lists

theorem Inv.represents (h : Inv x) : Represents x where
  doubly := h.doubly
  nodup c := (h.doubly c).forward.nodup
  slots c := by
    rw [(h.doubly c).head_eq, (h.doubly c).tail_eq]
    simp
  sizes := h.sizes

theorem start_inv {s : Cache} (hs : s.lru = LruList.init) : Inv (start s) := by
  have hnone : ∀ c, s.lru.heads c = none ∧ s.lru.tails c = none ∧ s.lru.sizes c = 0 := by
    intro c
    rw [hs]
    exact ⟨rfl, rfl, rfl⟩
  refine ⟨fun c => ⟨(hnone c).1, (hnone c).2.1⟩, fun c => ?_, nofun, nofun, nofun⟩
  show (s.lru.sizes c).toNat = 0
  rw [(hnone c).2.2]
  rfl

/-- The lists after `do_item_update` of a stale item. -/
theorem doItemUpdate_stale (hstale : x.Stale it)
    (hslab : x.cache.items.itemFlag it &&& Slab.ITEM_SLABBED = 0)
    (hlinked : x.cache.items.itemFlag it &&& Slab.ITEM_LINKED ≠ 0) :
    (x.cache.doItemUpdate it).items =
        (itemLinkQ ((itemUnlinkQ x.cache.items x.cache.lru it).1.setRealtime it x.cache.clock)
          (itemUnlinkQ x.cache.items x.cache.lru it).2 it).1 ∧
      (x.cache.doItemUpdate it).lru =
        (itemLinkQ ((itemUnlinkQ x.cache.items x.cache.lru it).1.setRealtime it x.cache.clock)
          (itemUnlinkQ x.cache.items x.cache.lru it).2 it).2 := by
  have hlocked : (x.cache.lock .cache).items.itemFlag it &&& Slab.ITEM_LINKED ≠ 0 := hlinked
  unfold Stale at hstale
  unfold Cache.doItemUpdate
  rw [if_pos hstale, if_neg (not_not.mpr hslab)]
  simp only [if_pos hlocked]
  exact ⟨rfl, rfl⟩

theorem doItemUpdate_fresh (hstale : ¬x.Stale it) : x.cache.doItemUpdate it = x.cache := by
  unfold Stale at hstale
  unfold Cache.doItemUpdate
  rw [if_neg hstale]

/-- An item untouched for long is stale; in the first minute no item is untouched for long. -/
theorem stale_iff (hclock : LruList.ITEM_UPDATE_INTERVAL ≤ x.cache.clock) :
    x.Stale it ↔ x.Untouched it := by
  unfold Stale Untouched
  rw [UInt32.lt_iff_toNat_lt, UInt32.toNat_sub_of_le _ _ hclock]
  rw [UInt32.le_iff_toNat_le] at hclock
  omega

theorem not_untouched (hclock : ¬LruList.ITEM_UPDATE_INTERVAL ≤ x.cache.clock) : ¬x.Untouched it := by
  unfold Untouched
  rw [UInt32.le_iff_toNat_le] at hclock
  omega

theorem step_inv (h : Inv x) (hlaw : x.Lawful a) (hsafe : x.Safe a) (hstep : step x a = .ok x') :
    Inv x' := by
  cases a with
  | tick now =>
    cases hstep
    exact h
  | write m =>
    cases hstep
    exact LruRep.congr h hlaw
  | link it =>
    cases hstep
    exact LruRep.link h rfl hlaw.1 hlaw.2.1 hlaw.2.2 hsafe
  | unlink it =>
    cases hstep
    exact LruRep.unlink h hlaw hsafe.1 hsafe.2
  | update it =>
    cases hstep
    unfold Inv
    by_cases hstale : x.Stale it
    · obtain ⟨hclock, hh, ht⟩ := hsafe hstale
      obtain ⟨hitems, hlru⟩ := doItemUpdate_stale hstale (h.unslabbed _ it hlaw.1) hlaw.2
      have hin := LruRep.relink h hlaw.1 hh ht x.cache.clock
      rw [← hitems, ← hlru] at hin
      simpa only [if_pos ((stale_iff hclock).mp hstale)] using hin
    · have hnot : ¬x.Untouched it := by
        by_cases hclock : LruList.ITEM_UPDATE_INTERVAL ≤ x.cache.clock
        · exact fun hu => hstale ((stale_iff hclock).mpr hu)
        · exact not_untouched hclock
      rw [doItemUpdate_fresh hstale, if_neg hnot]
      exact h

/-- Taking out the first or the last item leaves its slot pointing at it. -/
theorem unlink_bad (h : Inv x) (hit : it ∈ x.lists (x.classOf it)) (hends : ¬x.Inner it)
    (hstep : step x (.unlink it) = .ok x') : ¬Represents x' := by
  cases hstep
  intro hrep
  have hd := hrep.doubly (x.classOf it)
  simp only [Cache.itemUnlinkQ, LruRep.unlinkQ_eq h hit, Function.update_self] at hd
  have hnot : it ∉ (x.lists (x.classOf it)).erase it :=
    (h.doubly (x.classOf it)).forward.nodup.not_mem_erase
  rcases not_and_or.mp hends with hh | ht
  · exact hnot (hd.forward.start_mem (not_not.mp hh))
  · exact hnot (List.mem_reverse.mp (hd.backward.start_mem (not_not.mp ht)))

theorem step_update (hstep : step x (.update it) = .ok x') :
    x'.cache = x.cache.doItemUpdate it ∧ x'.lists = if x.Untouched it then
      Function.update x.lists (x.classOf it) (it :: (x.lists (x.classOf it)).erase it)
    else x.lists := by
  unfold step at hstep
  rw [← Except.ok.inj hstep]
  exact ⟨rfl, rfl⟩

/-- Moving the first or the last item of a list, or any item in the first minute. -/
theorem update_bad (h : Inv x) (hit : it ∈ x.lists (x.classOf it))
    (hlinked : x.cache.items.itemFlag it &&& Slab.ITEM_LINKED ≠ 0) (hstale : x.Stale it)
    (hbad : ¬(LruList.ITEM_UPDATE_INTERVAL ≤ x.cache.clock ∧ x.Inner it))
    (hstep : step x (.update it) = .ok x') : ¬Represents x' := by
  obtain ⟨hcache, hlists⟩ := step_update hstep
  obtain ⟨-, hlru⟩ := doItemUpdate_stale hstale (h.unslabbed _ it hit) hlinked
  rw [← hcache] at hlru
  have hd := h.doubly (x.classOf it)
  have hpos := List.length_pos_of_mem hit
  intro hrep
  have hd' := hrep.doubly (x.classOf it)
  by_cases hh : x.cache.lru.heads (x.classOf it) = some it
  · -- the list keeps its length, and `sizes` does not
    have hlen : (x'.lists (x.classOf it)).length = (x.lists (x.classOf it)).length := by
      rw [hlists]
      split_ifs
      · rw [Function.update_self, List.length_cons, List.length_erase_of_mem hit]
        omega
      · rfl
    have hsizes := hrep.sizes (x.classOf it)
    rw [hlru, LruRep.relink_head h hit hh, hlen, ← h.sizes,
      toNat_sub_one (LruRep.sizes_ne_zero h hit), h.sizes] at hsizes
    omega
  · obtain ⟨hheads, htails⟩ := LruRep.relink_heads h hit hh x.cache.clock
    rw [← hlru] at hheads htails
    by_cases hu : x.Untouched it
    · -- then the item was the last one, and the tail slot still points at it
      have hclock : LruList.ITEM_UPDATE_INTERVAL ≤ x.cache.clock :=
        not_not.mp fun hclock => not_untouched hclock hu
      have ht : x.cache.lru.tails (x.classOf it) = some it := by
        by_contra ht
        exact hbad ⟨hclock, hh, ht⟩
      have hlast := hd'.tail_eq
      have hnodup := hrep.nodup (x.classOf it)
      rw [htails ht, hlists, if_pos hu, Function.update_self] at hlast
      rw [hlists, if_pos hu, Function.update_self] at hnodup
      -- a list whose first and last items are one item has no other
      have halone : (x.lists (x.classOf it)).erase it = [] := by
        rcases List.eq_nil_or_concat ((x.lists (x.classOf it)).erase it) with hnil | ⟨l, b, hl⟩
        · exact hnil
        · rw [hl, List.concat_eq_append] at hlast hnodup
          rw [← List.cons_append, List.getLast?_concat] at hlast
          obtain rfl : it = b := Option.some.inj hlast
          simp at hnodup
      have hone : (x.lists (x.classOf it)).length = 1 := by
        have hlen := List.length_erase_of_mem hit
        rw [halone, List.length_nil] at hlen
        omega
      obtain ⟨p, hp⟩ := List.length_eq_one_iff.mp hone
      rw [hp, List.mem_singleton] at hit
      rw [hd.head_eq, hp, hit] at hh
      exact hh rfl
    · have hfirst := hd'.head_eq
      rw [hlists, if_neg hu, hheads] at hfirst
      exact hh (hd.head_eq.trans hfirst.symm)

theorem step_bad (h : Inv x) (hlaw : x.Lawful a) (hsafe : ¬x.Safe a) :
    ∃ x', step x a = .ok x' ∧ ¬Represents x' := by
  cases a with
  | tick now => exact absurd trivial hsafe
  | write m => exact absurd trivial hsafe
  | link it =>
    refine ⟨_, rfl, fun hrep => ?_⟩
    -- the counter wraps
    have hfull : x.cache.lru.sizes (x.classOf it) = 0xffffffff := not_not.mp hsafe
    have hsizes := hrep.sizes (x.classOf it)
    have hd := h.doubly (x.classOf it)
    have hform := itemLinkQ_eq rfl hlaw.2.1 (Nat.le_of_lt hlaw.1)
      (fun e => hlaw.2.2 (hd.mem_of_head e)) hd.isSome_eq
    have hzero : (x.cache.itemLinkQ it).lru.sizes (x.classOf it) = 0 := by
      show (itemLinkQ x.cache.items x.cache.lru it).2.sizes (x.classOf it) = 0
      rw [hform]
      show Function.update x.cache.lru.sizes (x.classOf it) _ (x.classOf it) = 0
      rw [Function.update_self]
      show x.cache.lru.sizes (x.classOf it) + 1 = 0
      rw [hfull]
      rfl
    rw [hzero] at hsizes
    have hlen : (Function.update x.lists (x.classOf it) (it :: x.lists (x.classOf it))
        (x.classOf it)).length = 0 := hsizes.symm
    rw [Function.update_self, List.length_cons] at hlen
    omega
  | unlink it => exact ⟨_, rfl, unlink_bad h hlaw hsafe rfl⟩
  | update it =>
    obtain ⟨hstale, hbad⟩ := Classical.not_imp.mp hsafe
    exact ⟨_, rfl, update_bad h hlaw.1 hlaw.2 hstale hbad rfl⟩

/-- The memory holds the lists in every state of a run just when every call is safe. -/
theorem represents_throughout {s : Cache} (hs : s.lru = LruList.init) {as : List LruOp}
    (hlaw : EachStep step Lawful (start s) as) :
    Throughout step Represents (start s) as ↔ EachStep step Safe (start s) as :=
  throughout_iff_eachStep (I := fun x _ => Inv x)
    (fun _ _ _ _ h hlaw hsafe hstep => step_inv h hlaw hsafe hstep) (fun _ _ h => h.represents)
    (fun _ _ _ h hlaw hsafe => step_bad h hlaw hsafe) (start_inv hs) hlaw

instance (x : LruOrder) (it : Ptr) : Decidable (x.Stale it) := by
  unfold Stale
  infer_instance

instance (x : LruOrder) (it : Ptr) : Decidable (x.Inner it) := by
  unfold Inner
  infer_instance

instance : ∀ a, Decidable (x.Safe a)
  | .tick _ => .isTrue trivial
  | .write _ => .isTrue trivial
  | .link it => inferInstanceAs (Decidable (x.cache.lru.sizes (x.classOf it) ≠ 0xffffffff))
  | .unlink it => inferInstanceAs (Decidable (x.Inner it))
  | .update it => inferInstanceAs (Decidable (x.Stale it →
      LruList.ITEM_UPDATE_INTERVAL ≤ x.cache.clock ∧ x.Inner it))

/-- A lawful call that is no write, which can be tested. -/
def LawfulCall (x : LruOrder) (a : LruOp) : Prop := (∀ m, a ≠ .write m) ∧ x.Lawful a

instance : ∀ a, Decidable (x.LawfulCall a)
  | .tick _ => .isTrue ⟨nofun, trivial⟩
  | .write m => .isFalse fun h => h.1 m rfl
  | .link it => decidable_of_iff (x.classOf it < Slab.POWER_LARGEST ∧
      x.cache.items.itemFlag it &&& Slab.ITEM_SLABBED = 0 ∧ it ∉ x.lists (x.classOf it))
      ⟨fun h => ⟨nofun, h⟩, fun h => h.2⟩
  | .unlink it => decidable_of_iff (it ∈ x.lists (x.classOf it)) ⟨fun h => ⟨nofun, h⟩, fun h => h.2⟩
  | .update it => decidable_of_iff (it ∈ x.lists (x.classOf it) ∧
      x.cache.items.itemFlag it &&& Slab.ITEM_LINKED ≠ 0) ⟨fun h => ⟨nofun, h⟩, fun h => h.2⟩

/-- Three items are linked and the middle one is taken out. -/
def takeMiddle : List LruOp :=
  [.link ⟨9, 0⟩, .link ⟨9, 104⟩, .link ⟨9, 208⟩, .unlink ⟨9, 104⟩]

theorem represents_takeMiddle : ∃ s, s.lru = LruList.init ∧
    EachStep step Lawful (start s) takeMiddle ∧ Throughout step Represents (start s) takeMiddle := by
  have htrial : (Cache.init 1 .twoChunks (fun _ => true) 0).any (fun s =>
      decide (EachStep step LawfulCall (start s) takeMiddle) &&
        decide (EachStep step Safe (start s) takeMiddle)) = true := by decide +kernel
  obtain ⟨s, hinit, hp⟩ := (Option.any_eq_true _ _).mp htrial
  obtain ⟨hcalls, hsafe⟩ := (Bool.and_eq_true _ _).mp hp
  have hs : s.lru = LruList.init := by
    obtain ⟨r, -, rfl⟩ := Option.map_eq_some_iff.mp hinit
    rfl
  have hlaw : EachStep step Lawful (start s) takeMiddle :=
    (of_decide_eq_true hcalls).mono fun _ _ h => h.2
  exact ⟨s, hs, hlaw, (represents_throughout hs hlaw).mpr (of_decide_eq_true hsafe)⟩

/-- The only item of a list is taken out, and the slots still point at it. -/
theorem not_represents_takeOnly : ∃ s, s.lru = LruList.init ∧
    EachStep step Lawful (start s) [.link ⟨9, 0⟩, .unlink ⟨9, 0⟩] ∧
    ¬Throughout step Represents (start s) [.link ⟨9, 0⟩, .unlink ⟨9, 0⟩] := by
  have htrial : (Cache.init 1 .twoChunks (fun _ => true) 0).any (fun s =>
      decide (EachStep step LawfulCall (start s) [.link ⟨9, 0⟩, .unlink ⟨9, 0⟩]) &&
        (run step (start s) [.link ⟨9, 0⟩, .unlink ⟨9, 0⟩]).toOption.any fun x =>
          decide (x.lists 0 = [] ∧ x.cache.lru.heads 0 ≠ none)) = true := by decide +kernel
  obtain ⟨s, hinit, hp⟩ := (Option.any_eq_true _ _).mp htrial
  obtain ⟨hcalls, hend⟩ := (Bool.and_eq_true _ _).mp hp
  have hs : s.lru = LruList.init := by
    obtain ⟨r, -, rfl⟩ := Option.map_eq_some_iff.mp hinit
    rfl
  refine ⟨s, hs, (of_decide_eq_true hcalls).mono fun _ _ h => h.2, fun hrep => ?_⟩
  cases hrun : run step (start s) [.link ⟨9, 0⟩, .unlink ⟨9, 0⟩] with
  | error e => simp [hrun, Except.toOption] at hend
  | ok x =>
    simp only [hrun, Except.toOption, Option.any_some, decide_eq_true_eq] at hend
    exact hend.2 (((hrep.last hrun).slots 0).1.mpr hend.1)

end LruOrder

end MiniMemcached
