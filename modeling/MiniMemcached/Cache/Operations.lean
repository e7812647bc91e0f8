import Mathlib.Data.FinEnum
import MiniMemcached.Cache.Sound

/-! The operations on a sound cache. Each one returns, leads to a sound cache again,
and leaves alone what `Evolves` names. The two operations that change the table
are given in closed form, so that facts about flags, counters and LRU pointers
can be read off. -/

namespace MiniMemcached

open MiniMemcached.Lists

/-- Memory with the same keys, values and ids. -/
structure SameContents (m m' : Items) : Prop where
  data : m'.data = m.data
  nkey : m'.nkey = m.nkey
  nbytes : m'.nbytes = m.nbytes
  exptime : m'.exptime = m.exptime
  cas : m'.cas = m.cas
  slabsClsid : m'.slabsClsid = m.slabsClsid

theorem SameContents.key {m m' : Items} (h : SameContents m m') (p : Ptr) : m'.key p = m.key p :=
  Items.key_congr (congrFun h.data p) (congrFun h.nkey p)

theorem SameContents.refl (m : Items) : SameContents m m := ⟨rfl, rfl, rfl, rfl, rfl, rfl⟩

theorem clearLinked_slabbed (f : UInt8) :
    f &&& ~~~Slab.ITEM_LINKED &&& Slab.ITEM_SLABBED = f &&& Slab.ITEM_SLABBED := by
  revert f; decide +kernel

theorem clearLinked_linked (f : UInt8) : f &&& ~~~Slab.ITEM_LINKED &&& Slab.ITEM_LINKED = 0 := by
  revert f; decide +kernel

theorem setLinked_slabbed (f : UInt8) :
    (f ||| Slab.ITEM_LINKED) &&& Slab.ITEM_SLABBED = f &&& Slab.ITEM_SLABBED := by
  revert f; decide +kernel

theorem setLinked_linked (f : UInt8) : (f ||| Slab.ITEM_LINKED) &&& Slab.ITEM_LINKED ≠ 0 := by
  revert f; decide +kernel

theorem setFetched_linked (f : UInt8) :
    (f ||| Slab.ITEM_FETCHED) &&& Slab.ITEM_LINKED = f &&& Slab.ITEM_LINKED := by
  revert f; decide +kernel

theorem setFetched_slabbed (f : UInt8) :
    (f ||| Slab.ITEM_FETCHED) &&& Slab.ITEM_SLABBED = f &&& Slab.ITEM_SLABBED := by
  revert f; decide +kernel

@[simp] theorem shownFlags_clearLinked (f : UInt8) :
    shownFlags (f &&& ~~~Slab.ITEM_LINKED) = shownFlags f := by
  revert f; decide +kernel

@[simp] theorem shownFlags_setLinked (f : UInt8) : shownFlags (f ||| Slab.ITEM_LINKED) = shownFlags f := by
  revert f; decide +kernel

@[simp] theorem shownFlags_setFetched (f : UInt8) : shownFlags (f ||| Slab.ITEM_FETCHED) = shownFlags f := by
  revert f; decide +kernel

/-- Of a linked item that was fetched the flags are shown as they are. -/
theorem setFetched_eq_shownFlags {f : UInt8} (h : f &&& Slab.ITEM_LINKED ≠ 0) :
    f ||| Slab.ITEM_FETCHED = shownFlags f := by
  revert f; decide +kernel

/-- An item that `do_item_link` takes carries neither flag. -/
theorem flags_clear {f : UInt8} (h : f &&& (Slab.ITEM_LINKED ||| Slab.ITEM_SLABBED) = 0) :
    f &&& Slab.ITEM_LINKED = 0 ∧ f &&& Slab.ITEM_SLABBED = 0 := by
  revert f; decide +kernel

/-- `item_unlink_q` reads the LRU pointers, the class and one flag. -/
theorem itemUnlinkQ_congr {m n : Items} {it : Ptr} (l : LruList) (hn : n.next = m.next)
    (hp : n.prev = m.prev) (hc : n.slabsClsid it = m.slabsClsid it)
    (hf : n.itemFlag it &&& Slab.ITEM_SLABBED = m.itemFlag it &&& Slab.ITEM_SLABBED) :
    itemUnlinkQ n l it = ({ n with
      next := (itemUnlinkQ m l it).1.next
      prev := (itemUnlinkQ m l it).1.prev }, (itemUnlinkQ m l it).2) := by
  unfold itemUnlinkQ
  rw [hn, hp, hc, hf]
  dsimp only
  split
  · simp [← hn, ← hp]
  · simp [Items.setNextOf, Items.setPrevOf, hn, hp]

theorem itemLinkQ_congr {m n : Items} {it : Ptr} (l : LruList) (hn : n.next = m.next)
    (hp : n.prev = m.prev) (hc : n.slabsClsid it = m.slabsClsid it)
    (hf : n.itemFlag it &&& Slab.ITEM_SLABBED = m.itemFlag it &&& Slab.ITEM_SLABBED) :
    itemLinkQ n l it = ({ n with
      next := (itemLinkQ m l it).1.next
      prev := (itemLinkQ m l it).1.prev }, (itemLinkQ m l it).2) := by
  unfold itemLinkQ
  rw [hc, hf]
  dsimp only
  split
  · simp [← hn, ← hp]
  · split
    · simp [← hn, ← hp]
    · simp [Items.setPrevOf, Items.setNext, Items.setPrev, hn, hp]

namespace Sound

variable {s t : Cache} {g : Shape}

/-- The invariant does not look at the clock, the locks and the other events. -/
theorem congr (h : Sound s g) (hi : t.items = s.items) (hs : t.slab = s.slab)
    (ht : t.hashtable = s.hashtable) (hl : t.lru = s.lru) (hc : t.casId = s.casId)
    (hk : t.links = s.links) : Sound t g := by
  have hE : t.everLinked = s.everLinked := by simp only [Cache.everLinked, hk]
  constructor
  all_goals simp only [hi, hs, ht, hl, hc, hk, hE]
  exacts [h.slab, h.buckets, h.clsid, h.linked, h.unslabbed, h.used, h.unlinked, h.queue, h.lru,
    h.numbered, h.once, h.stamped, h.casId]

/-- A change of pointers, flags and counters that stays outside the freelists. -/
theorem rewire (h : Sound s g) {B : ℕ → List Ptr} {Q : Set Ptr} (hs : t.slab = s.slab)
    (hc : t.casId = s.casId) (hk : t.links = s.links) (hm : SameContents s.items t.items)
    (hnext : ∀ id, ∀ p ∈ g.free id, t.items.next p = s.items.next p)
    (hrc : ∀ id, ∀ p ∈ g.free id, t.items.refcount p = s.items.refcount p)
    (hB : Buckets HashTable.hash t.items t.hashtable B)
    (hlinked : ∀ b, ∀ p ∈ B b, p ∈ s.everLinked ∧ t.items.itemFlag p &&& Slab.ITEM_LINKED ≠ 0)
    (hslabbed : ∀ p ∈ s.everLinked, t.items.itemFlag p &&& Slab.ITEM_SLABBED = 0)
    (hQ : ∀ p ∈ Q, p ∈ s.everLinked)
    (hlru : LruClosed t.items t.lru Q
      {p | p ∈ s.everLinked ∨ p ∈ g.inFlight ∨ ∃ id, (s.slab.cls id).slots = some p}) :
    Sound t { g with buckets := B, queue := Q } := by
  have hE : t.everLinked = s.everLinked := by simp only [Cache.everLinked, hk]
  constructor
  all_goals simp only [hs, hc, hk, hE, hm.cas, hm.slabsClsid]
  exacts [h.slab.congr hnext hrc, hB, h.clsid, fun p ⟨b, hp⟩ => hlinked b p hp, hslabbed, h.used,
    h.unlinked, hQ, hlru, h.numbered, h.once, h.stamped, h.casId]

end Sound

theorem Evolves.rewire {s s' : Cache} {g g' : Shape} {K : Set Ptr} (ht : s.trace <:+ s'.trace)
    (hm : SameContents s.items s'.items) (htable : ∀ p ∈ g'.table, p ∈ g.table)
    (hf : ∀ p ∈ K, s'.items.itemFlag p = s.items.itemFlag p)
    (hr : ∀ p ∈ K, s'.items.refcount p = s.items.refcount p) (hs : s'.slab = s.slab)
    (hh : s'.hashtable.hashpower = s.hashtable.hashpower) (hc : s'.clock = s.clock)
    (hset : s'.memSetting = s.memSetting) : Evolves s g s' g' K := by
  refine ⟨ht, fun p hp => .inl (htable p hp), fun p _ => congrFun hm.data p,
    fun p _ => congrFun hm.nkey p, fun p _ => congrFun hm.nbytes p,
    fun p _ => congrFun hm.exptime p, fun p _ => congrFun hm.cas p, hf, hr, ?_, hh, hc, hset⟩
  rw [hs]
  exact .refl _

namespace Cache

variable {s : Cache} {g : Shape} {it : Ptr}

@[simp] theorem links_lock (l : Lock) : (s.lock l).links = s.links := rfl
@[simp] theorem links_unlock (l : Lock) : (s.unlock l).links = s.links := rfl
@[simp] theorem links_hashLock (hv : UInt32) : (s.hashLock hv).links = s.links := rfl
@[simp] theorem links_hashUnlock (hv : UInt32) : (s.hashUnlock hv).links = s.links := rfl

end Cache

namespace Sound

variable {s : Cache} {g : Shape} {it : Ptr}

theorem lock (h : Sound s g) (l : Lock) : Sound (s.lock l) g := h.congr rfl rfl rfl rfl rfl rfl

theorem unlock (h : Sound s g) (l : Lock) : Sound (s.unlock l) g := h.congr rfl rfl rfl rfl rfl rfl

theorem hashLock (h : Sound s g) (hv : UInt32) : Sound (s.hashLock hv) g :=
  h.congr rfl rfl rfl rfl rfl rfl

theorem hashUnlock (h : Sound s g) (hv : UInt32) : Sound (s.hashUnlock hv) g :=
  h.congr rfl rfl rfl rfl rfl rfl

theorem setClock (h : Sound s g) (now : UInt32) : Sound { s with clock := now } g :=
  h.congr rfl rfl rfl rfl rfl rfl

/-- A new counter for an item that is not free. -/
theorem setRefcount (h : Sound s g) (hit : it ∈ s.everLinked) (v : UInt32) {t : List Event}
    (ht : Event.links t = s.links) :
    Sound { s with items := s.items.setRefcount it v, trace := t } g := by
  refine h.rewire (B := g.buckets) (Q := g.queue) rfl rfl ht ⟨rfl, rfl, rfl, rfl, rfl, rfl⟩
    (fun _ _ _ => rfl) (fun id p hp => ?_) (h.buckets.congr rfl fun _ _ _ => rfl)
    (fun b p hp => h.linked p ⟨b, hp⟩) h.unslabbed h.queue
    (h.lru.congr (fun _ _ => rfl) (fun _ _ => rfl) h.lru.outside)
  have hne : p ≠ it := fun e => h.notFree hit id (e ▸ hp)
  simp [Items.setRefcount, hne]

theorem fetchAdd (h : Sound s g) (hit : it ∈ s.everLinked) : Sound (s.fetchAdd it) g :=
  h.setRefcount hit _ rfl

theorem fetchSub (h : Sound s g) (hit : it ∈ s.everLinked) : Sound (s.fetchSub it) g :=
  h.setRefcount hit _ rfl

theorem doItemRemove (h : Sound s g) (hit : it ∈ s.everLinked) : Sound (s.doItemRemove it) g := by
  rw [Cache.doItemRemove_eq (h.unslabbed it hit)]
  exact h.fetchSub hit

/-- The flag that `do_item_get` sets. -/
theorem setFetched (h : Sound s g) :
    Sound (s.setFlag it (s.items.itemFlag it ||| Slab.ITEM_FETCHED)) g := by
  refine h.rewire (B := g.buckets) (Q := g.queue) rfl rfl rfl ⟨rfl, rfl, rfl, rfl, rfl, rfl⟩
    (fun _ _ _ => rfl) (fun _ _ _ => rfl) (h.buckets.congr rfl fun _ _ _ => rfl)
    (fun b p hp => ?_) (fun p hp => ?_) h.queue
    (h.lru.congr (fun _ _ => rfl) (fun _ _ => rfl) h.lru.outside)
  · refine ⟨(h.linked p ⟨b, hp⟩).1, ?_⟩
    simp only [Cache.setFlag, Items.setFlag, Function.update_apply]
    split_ifs with hpi
    · rw [setFetched_linked, ← hpi]; exact (h.linked p ⟨b, hp⟩).2
    · exact (h.linked p ⟨b, hp⟩).2
  · simp only [Cache.setFlag, Items.setFlag, Function.update_apply]
    split_ifs with hpi
    · rw [setFetched_slabbed, ← hpi]; exact h.unslabbed p hp
    · exact h.unslabbed p hp

end Sound

/-! ### Unlinking -/

/-- The state behind `do_item_unlink_nolock`; `f`, `P` and `c` are what `hash_delete`
made of the table. -/
def Cache.unlinked (s : Cache) (it : Ptr) (f : Ptr → Option Ptr) (P : ℕ → Option Ptr)
    (c : UInt32) : Cache :=
  let r := MiniMemcached.itemUnlinkQ s.items s.lru it
  { s with
    items := { s.items with
      next := r.1.next
      prev := r.1.prev
      hNext := f
      itemFlag := Function.update s.items.itemFlag it (s.items.itemFlag it &&& ~~~Slab.ITEM_LINKED)
      refcount := Function.update s.items.refcount it (s.items.refcount it - 1) }
    hashtable := { s.hashtable with primaryHashtable := P, hashitems := c }
    lru := r.2
    trace := .fetchSub it (s.items.refcount it) :: s.trace }

/-- The buckets without the key of `it`. -/
def Shape.dropped (g : Shape) (s : Cache) (it : Ptr) : Shape :=
  let b := s.hashtable.bucket (HashTable.hash (s.items.key it))
  { g with
    buckets := Function.update g.buckets b (dropKey s.items (s.items.key it) (g.buckets b)) }

theorem Shape.table_dropped {g : Shape} {s : Cache} {it p : Ptr} (hp : p ∈ (g.dropped s it).table) :
    p ∈ g.table := by
  obtain ⟨b, hp⟩ := hp
  simp only [Shape.dropped, Function.update_apply] at hp
  split_ifs at hp with hb
  · exact ⟨_, (dropKey_sublist _ _ _).subset hp⟩
  · exact ⟨b, hp⟩

/-- An item without `ITEM_LINKED` is not unlinked. -/
theorem Cache.doItemUnlinkNolock_skip {s : Cache} {it : Ptr}
    (hf : s.items.itemFlag it &&& Slab.ITEM_LINKED = 0) (hv : UInt32) :
    s.doItemUnlinkNolock it hv = .ok s := by
  unfold Cache.doItemUnlinkNolock
  rw [if_neg (not_not.mpr hf)]

/-- An item with `ITEM_LINKED` is unlinked: its key leaves its bucket. -/
theorem Cache.doItemUnlinkNolock_eq {s : Cache} {it : Ptr} {B : ℕ → List Ptr}
    (hB : Buckets HashTable.hash s.items s.hashtable B)
    (hlen : ∀ b, (B b).length ≤ s.slab.chunkCount)
    (hslab : s.items.itemFlag it &&& Slab.ITEM_SLABBED = 0)
    (hf : s.items.itemFlag it &&& Slab.ITEM_LINKED ≠ 0) :
    ∃ f P c, s.doItemUnlinkNolock it (HashTable.hash (s.items.key it)) =
        .ok (s.unlinked it f P c) ∧
      Buckets HashTable.hash { s.items with hNext := f }
        { s.hashtable with primaryHashtable := P, hashitems := c }
        (Function.update B (s.hashtable.bucket (HashTable.hash (s.items.key it)))
          (dropKey s.items (s.items.key it)
            (B (s.hashtable.bucket (HashTable.hash (s.items.key it)))))) := by
  set fl := s.items.itemFlag it &&& ~~~Slab.ITEM_LINKED with hfl
  -- `hash_delete` does not read the flags
  have hB : Buckets HashTable.hash (s.items.setFlag it fl) s.hashtable B :=
    hB.congr rfl fun _ _ _ => rfl
  obtain ⟨f, P, c, hdel, hB, -⟩ := hB.delete (s.items.key it) (hlen _)
  refine ⟨f, P, c, ?_, hB.congr rfl fun _ _ _ => rfl⟩
  have hslabbed : fl &&& Slab.ITEM_SLABBED = 0 := by
    rw [hfl, clearLinked_slabbed, hslab]
  unfold Cache.doItemUnlinkNolock
  rw [if_pos hf]
  have hdel' : (s.setFlag it fl).hashDelete ((s.setFlag it fl).items.key it)
      (HashTable.hash (s.items.key it)) = .ok { s with
        items := { s.items.setFlag it fl with hNext := f }
        hashtable := { s.hashtable with primaryHashtable := P, hashitems := c } } := by
    unfold Cache.hashDelete
    exact congrArg (· >>= _) hdel
  simp only [← hfl, hdel', Result.ok_bind, Result.pure_eq, Except.ok.injEq, Cache.itemUnlinkQ]
  rw [itemUnlinkQ_congr (m := s.items) (n := { s.items.setFlag it fl with hNext := f }) s.lru rfl
    rfl rfl (by simp [Items.setFlag, hslabbed, hslab]), Cache.doItemRemove_eq]
  · rfl
  · simp [Items.setFlag, hslabbed]

namespace Sound

variable {s : Cache} {g : Shape} {it : Ptr}

theorem doItemUnlinkNolock_eq (h : Sound s g) (hit : it ∈ s.everLinked)
    (hf : s.items.itemFlag it &&& Slab.ITEM_LINKED ≠ 0) :
    ∃ f P c, s.doItemUnlinkNolock it (HashTable.hash (s.items.key it)) =
        .ok (s.unlinked it f P c) ∧
      Buckets HashTable.hash { s.items with hNext := f }
        { s.hashtable with primaryHashtable := P, hashitems := c } (g.dropped s it).buckets :=
  Cache.doItemUnlinkNolock_eq h.buckets h.length_le (h.unslabbed it hit) hf

/-- After the deletion no item of the table has the key. -/
theorem key_ne_of_dropped (h : Sound s g) {p : Ptr} (hp : p ∈ (g.dropped s it).table) :
    s.items.key p ≠ s.items.key it := by
  obtain ⟨b, hp⟩ := hp
  simp only [Shape.dropped, Function.update_apply] at hp
  split_ifs at hp with hb
  · intro hk
    have := keyIs_of_mem_dropKey (h.buckets.keys _) hp
    rw [(s.items.keyIs_iff p _).mpr hk] at this
    cases this
  · intro hk
    rw [← h.buckets.home b p hp, hk] at hb
    exact hb rfl

theorem unlink (h : Sound s g) (hit : it ∈ s.everLinked) {f : Ptr → Option Ptr}
    {P : ℕ → Option Ptr} {c : UInt32}
    (hB : Buckets HashTable.hash { s.items with hNext := f }
      { s.hashtable with primaryHashtable := P, hashitems := c } (g.dropped s it).buckets) :
    Sound (s.unlinked it f P c) (g.dropped s it) := by
  have hlru := h.lru.unlink (.inl hit) (h.clsid it)
  refine h.rewire (t := s.unlinked it f P c) (B := (g.dropped s it).buckets) (Q := g.queue) rfl rfl
    rfl ⟨rfl, rfl, rfl, rfl, rfl, rfl⟩ (fun id p hp => ?_) (fun id p hp => ?_)
    (hB.congr rfl fun _ _ _ => rfl) (fun b p hp => ?_) (fun p hp => ?_) h.queue
    (hlru.congr (fun _ _ => rfl) (fun _ _ => rfl) hlru.outside)
  · refine itemUnlinkQ_next fun hprev => ?_
    -- the predecessor is a linked item, and those are not free
    by_cases hQ : it ∈ g.queue
    · exact h.notFree (h.queue p (h.lru.prev it hQ p hprev)) id hp
    · rw [h.lru.outside it (.inl hit) hQ] at hprev
      cases hprev
  · have hne : p ≠ it := fun e => h.notFree hit id (e ▸ hp)
    simp [Cache.unlinked, hne]
  · have hp' : p ∈ (g.dropped s it).table := ⟨b, hp⟩
    have hne : p ≠ it := fun e => h.key_ne_of_dropped hp' (by rw [e])
    simpa [Cache.unlinked, hne] using h.linked p (Shape.table_dropped hp')
  · simp only [Cache.unlinked, Function.update_apply]
    split_ifs
    · rw [clearLinked_slabbed]; exact h.unslabbed it hit
    · exact h.unslabbed p hp

theorem evolves_unlink {f : Ptr → Option Ptr} {P : ℕ → Option Ptr} {c : UInt32} (h : Sound s g)
    (hit : it ∈ s.everLinked) :
    Evolves s g (s.unlinked it f P c) (g.dropped s it) g.inFlight := by
  have hne : ∀ p ∈ g.inFlight, p ≠ it := fun p hp e => h.unlinked p hp (e ▸ hit)
  refine .rewire (List.suffix_cons _ _) ⟨rfl, rfl, rfl, rfl, rfl, rfl⟩
    (fun p hp => Shape.table_dropped hp) (fun p hp => ?_) (fun p hp => ?_) rfl rfl rfl rfl
  · simp [Cache.unlinked, hne p hp]
  · simp [Cache.unlinked, hne p hp]

end Sound

/-! ### Linking -/

/-- The state behind `do_item_link` of an item that carries neither flag. -/
def Cache.linked (s : Cache) (it : Ptr) (hv : UInt32) : Cache :=
  let r := MiniMemcached.itemLinkQ s.items s.lru it
  let t := MiniMemcached.hashInsert s.items s.hashtable it hv
  { s with
    items := { s.items with
      next := r.1.next
      prev := r.1.prev
      hNext := t.1.hNext
      itemFlag := Function.update s.items.itemFlag it (s.items.itemFlag it ||| Slab.ITEM_LINKED)
      realtime := Function.update s.items.realtime it s.clock
      cas := Function.update s.items.cas it (s.casId + 1)
      refcount := Function.update s.items.refcount it (s.items.refcount it + 1) }
    hashtable := t.2
    lru := r.2
    casId := s.casId + 1
    trace := .unlock .cache :: .link it (s.casId + 1) :: .lock .cache :: s.trace }

/-- The shape with `it` in front of its bucket. -/
def Shape.inserted (g : Shape) (s : Cache) (it : Ptr) (Q : Set Ptr) : Shape :=
  let b := s.hashtable.bucket (HashTable.hash (s.items.key it))
  { g with
    inFlight := {p | p ∈ g.inFlight ∧ p ≠ it}
    buckets := Function.update g.buckets b (it :: g.buckets b)
    queue := Q }

theorem Shape.table_inserted {g : Shape} {s : Cache} {it : Ptr} {Q : Set Ptr} {p : Ptr} :
    p ∈ (g.inserted s it Q).table ↔ p = it ∨ p ∈ g.table := by
  simp only [Shape.table, Shape.inserted, Set.mem_ofPred_eq]
  set b₀ := s.hashtable.bucket (HashTable.hash (s.items.key it))
  constructor
  · rintro ⟨b, hp⟩
    by_cases hb : b = b₀
    · subst hb
      rw [Function.update_self] at hp
      exact (List.mem_cons.mp hp).imp_right fun hp => ⟨b₀, hp⟩
    · rw [Function.update_of_ne hb] at hp
      exact .inr ⟨b, hp⟩
  · rintro (rfl | ⟨b, hp⟩)
    · exact ⟨b₀, by simp⟩
    · by_cases hb : b = b₀
      · subst hb
        exact ⟨b₀, by simp [hp]⟩
      · exact ⟨b, by rwa [Function.update_of_ne hb]⟩

theorem Cache.doItemLink_skip {s : Cache} {it : Ptr} (hv : UInt32)
    (hf : s.items.itemFlag it &&& (Slab.ITEM_LINKED ||| Slab.ITEM_SLABBED) ≠ 0) :
    s.doItemLink it hv = (s, false) := by
  unfold Cache.doItemLink
  rw [if_pos hf]

theorem Cache.doItemLink_eq {s : Cache} {it : Ptr} (hv : UInt32)
    (hf : s.items.itemFlag it &&& (Slab.ITEM_LINKED ||| Slab.ITEM_SLABBED) = 0) :
    s.doItemLink it hv = (s.linked it hv, true) := by
  let t := MiniMemcached.hashInsert s.items s.hashtable it hv
  -- the memory that `item_link_q` works on
  let m₁ : Items := { s.items with
    hNext := t.1.hNext
    itemFlag := Function.update s.items.itemFlag it (s.items.itemFlag it ||| Slab.ITEM_LINKED)
    realtime := Function.update s.items.realtime it s.clock
    cas := Function.update s.items.cas it (s.casId + 1) }
  have hstate : s.doItemLink it hv = ((({ s with
      items := (MiniMemcached.itemLinkQ m₁ s.lru it).1
      hashtable := t.2
      lru := (MiniMemcached.itemLinkQ m₁ s.lru it).2
      casId := s.casId + 1
      trace := .link it (s.casId + 1) :: .lock .cache :: s.trace } : Cache).fetchAdd it).unlock
        .cache, true) := by
    unfold Cache.doItemLink
    rw [if_neg (not_not.mpr hf)]
    rfl
  rw [hstate, itemLinkQ_congr (m := s.items) (n := m₁) s.lru rfl rfl rfl
    (by simp [m₁, setLinked_slabbed])]
  rfl

namespace Sound

variable {s : Cache} {g : Shape} {it : Ptr}

theorem link (h : Sound s g) (hit : it ∈ g.inFlight)
    (hkey : ∀ p ∈ g.table, s.items.key p ≠ s.items.key it)
    (hf : s.items.itemFlag it &&& (Slab.ITEM_LINKED ||| Slab.ITEM_SLABBED) = 0) :
    ∃ Q, Sound (s.linked it (HashTable.hash (s.items.key it))) (g.inserted s it Q) := by
  set s' := s.linked it (HashTable.hash (s.items.key it)) with hs'
  have hnew : it ∉ s.everLinked := h.unlinked it hit
  have hlinks : s'.links = (it, s.casId + 1) :: s.links := rfl
  have hE : ∀ p, p ∈ s'.everLinked ↔ p = it ∨ p ∈ s.everLinked := by
    intro p
    simp only [Cache.everLinked, hlinks, List.mem_cons, Set.mem_ofPred_eq, Prod.mk.injEq]
    constructor
    · rintro ⟨id, ⟨rfl, -⟩ | hid⟩
      · exact .inl rfl
      · exact .inr ⟨id, hid⟩
    · rintro (rfl | ⟨id, hid⟩)
      · exact ⟨_, .inl ⟨rfl, rfl⟩⟩
      · exact ⟨id, .inr hid⟩
  have hnotTable : ∀ b, it ∉ g.buckets b := fun b hb => hnew (h.linked it ⟨b, hb⟩).1
  have hfree : ∀ id, ∀ p ∈ g.free id, p ≠ it := fun id p hp e => (h.used it (.inr hit)).2 id (e ▸ hp)
  have hused : ∀ p, p ∈ s'.everLinked ∨ p ∈ g.inFlight ∧ p ≠ it →
      p ∈ s.everLinked ∨ p ∈ g.inFlight := by
    rintro p (hp | hp)
    · rcases (hE p).mp hp with rfl | hp
      · exact .inr hit
      · exact .inl hp
    · exact .inr hp.1
  have hlru : ∃ Q, (∀ p ∈ Q, p ∈ s'.everLinked) ∧ LruClosed s'.items s'.lru Q
      {p | p ∈ s.everLinked ∨ p ∈ g.inFlight ∨ ∃ id, (s.slab.cls id).slots = some p} := by
    rcases h.lru.link (h.clsid it) with hlru | hsame
    · exact ⟨_, fun p hp => (hE p).mpr (hp.imp id (h.queue p)),
        hlru.congr (fun _ _ => rfl) (fun _ _ => rfl) hlru.outside⟩
    · refine ⟨g.queue, fun p hp => (hE p).mpr (.inr (h.queue p hp)), ?_⟩
      have hr : LruClosed (itemLinkQ s.items s.lru it).1 (itemLinkQ s.items s.lru it).2 g.queue
          {p | p ∈ s.everLinked ∨ p ∈ g.inFlight ∨ ∃ id, (s.slab.cls id).slots = some p} := by
        rw [hsame]; exact h.lru
      exact hr.congr (fun _ _ => rfl) (fun _ _ => rfl) hr.outside
  obtain ⟨Q, hQ, hlru⟩ := hlru
  have hB := h.buckets.insert hnotTable fun b p hp => hkey p ⟨b, hp⟩
  refine ⟨Q, ⟨h.slab.congr (fun id p hp => itemLinkQ_next (hfree id p hp)) fun id p hp => ?_,
    hB.congr rfl fun _ _ _ => rfl, h.clsid, fun p hp => ?_, fun p hp => ?_,
    fun p hp => h.used p (hused p hp), fun p hp => ?_, hQ,
    hlru.congr (fun _ _ => rfl) (fun _ _ => rfl) fun p hp hpQ => hlru.outside p ?_ hpQ, ?_, ?_,
    fun p id hp => ?_, ?_⟩⟩
  · simp [s', Cache.linked, hfree id p hp]
  · rcases Shape.table_inserted.mp hp with rfl | hp
    · exact ⟨(hE p).mpr (.inl rfl), by simpa [s', Cache.linked] using setLinked_linked _⟩
    · obtain ⟨hpE, hpf⟩ := h.linked p hp
      have hne : p ≠ it := fun e => hnew (e ▸ hpE)
      exact ⟨(hE p).mpr (.inr hpE), by simpa [s', Cache.linked, hne] using hpf⟩
  · by_cases hpi : p = it
    · subst hpi
      simp [s', Cache.linked, setLinked_slabbed, (flags_clear hf).2]
    · have := h.unslabbed p (((hE p).mp hp).resolve_left hpi)
      simpa [s', Cache.linked, hpi] using this
  · exact fun hpE => ((hE p).mp hpE).elim hp.2 (h.unlinked p hp.1)
  · rcases hp with hp | hp | hp
    · exact ((hE p).mp hp).elim (fun e => .inr (.inl (e ▸ hit))) .inl
    · exact .inr (.inl hp.1)
    · exact .inr (.inr hp)
  · rw [hlinks]
    refine ⟨?_, h.numbered⟩
    rw [h.casId]
    simp
  · rw [hlinks, List.map_cons, List.nodup_cons]
    refine ⟨fun hmem => hnew ?_, h.once⟩
    obtain ⟨⟨q, id⟩, hq, rfl⟩ := List.mem_map.mp hmem
    exact ⟨id, hq⟩
  · rw [hlinks] at hp
    rcases List.mem_cons.mp hp with hp | hp
    · obtain ⟨rfl, rfl⟩ := Prod.mk.inj hp
      simp [s', Cache.linked]
    · have hne : p ≠ it := fun e => hnew (e ▸ ⟨id, hp⟩)
      simpa [s', Cache.linked, hne] using h.stamped p id hp
  · rw [hlinks]
    change s.casId + 1 = _
    rw [h.casId]
    simp

theorem evolves_link (h : Sound s g) (hit : it ∈ g.inFlight) (hv : UInt32) (Q : Set Ptr) :
    Evolves s g (s.linked it hv) (g.inserted s it Q) {p | p ∈ g.inFlight ∧ p ≠ it} := by
  have hne : ∀ p, p ∈ s.everLinked ∨ p ∈ {p | p ∈ g.inFlight ∧ p ≠ it} → p ≠ it := by
    rintro p (hp | hp) e
    · exact h.unlinked it hit (e ▸ hp)
    · exact hp.2 e
  refine ⟨⟨[.unlock .cache, .link it (s.casId + 1), .lock .cache], rfl⟩, fun p hp => ?_,
    fun _ _ => rfl, fun _ _ => rfl, fun _ _ => rfl, fun _ _ => rfl, fun p hp => ?_, fun p hp => ?_,
    fun p hp => ?_, .refl _, rfl, rfl, rfl⟩
  · exact (Shape.table_inserted.mp hp).elim (fun e => .inr (e ▸ h.unlinked it hit)) .inl
  · simp [Cache.linked, hne p hp]
  · simp [Cache.linked, hp.2]
  · simp [Cache.linked, hp.2]

end Sound

/-! ### Touching, allocating and filling an item -/

/-- The state behind `item_unlink_q`, a new `realtime` and `item_link_q`. -/
def Cache.touched (s : Cache) (it : Ptr) : Cache :=
  let r := MiniMemcached.itemUnlinkQ s.items s.lru it
  let m := r.1.setRealtime it s.clock
  let q := MiniMemcached.itemLinkQ m r.2 it
  { s with items := q.1, lru := q.2, trace := .unlock .cache :: .lock .cache :: s.trace }

theorem Cache.touched_form (s : Cache) (it : Ptr) : ∃ nx pv, (s.touched it).items =
    { s.items with next := nx, prev := pv, realtime := Function.update s.items.realtime it s.clock } := by
  obtain ⟨nx, pv, hform⟩ := itemUnlinkQ_form s.items s.lru it
  obtain ⟨nx', pv', hform'⟩ := itemLinkQ_form
    ((MiniMemcached.itemUnlinkQ s.items s.lru it).1.setRealtime it s.clock)
    (MiniMemcached.itemUnlinkQ s.items s.lru it).2 it
  refine ⟨nx', pv', ?_⟩
  simp only [Cache.touched]
  rw [hform', hform]
  rfl

namespace Sound

variable {s : Cache} {g : Shape} {it : Ptr}

theorem doItemUpdate_eq (h : Sound s g) (hit : it ∈ s.everLinked)
    (hf : s.items.itemFlag it &&& Slab.ITEM_LINKED ≠ 0) :
    s.doItemUpdate it =
      if s.items.realtime it < s.clock - LruList.ITEM_UPDATE_INTERVAL then s.touched it else s := by
  unfold Cache.doItemUpdate
  split_ifs with hold hslab
  · exact absurd (h.unslabbed it hit) hslab
  · have hl : (s.lock .cache).items.itemFlag it &&& Slab.ITEM_LINKED ≠ 0 := hf
    simp only [if_pos hl]
    rfl
  · rfl

theorem touch (h : Sound s g) (hit : it ∈ s.everLinked) :
    ∃ Q, Sound (s.touched it) { g with queue := Q } := by
  have hlru := h.lru.unlink (.inl hit) (h.clsid it)
  obtain ⟨nx, pv, hform⟩ := itemUnlinkQ_form s.items s.lru it
  have hlru' : LruClosed ((itemUnlinkQ s.items s.lru it).1.setRealtime it s.clock)
      (itemUnlinkQ s.items s.lru it).2 g.queue
      {p | p ∈ s.everLinked ∨ p ∈ g.inFlight ∨ ∃ id, (s.slab.cls id).slots = some p} :=
    hlru.congr (fun _ _ => rfl) (fun _ _ => rfl) hlru.outside
  have hc : ((itemUnlinkQ s.items s.lru it).1.setRealtime it s.clock).slabsClsid it = 0 := by
    rw [hform]; exact h.clsid it
  have hend : ∃ Q, (∀ p ∈ Q, p ∈ s.everLinked) ∧ LruClosed (s.touched it).items (s.touched it).lru Q
      {p | p ∈ s.everLinked ∨ p ∈ g.inFlight ∨ ∃ id, (s.slab.cls id).slots = some p} := by
    rcases hlru'.link hc with hl | hsame
    · exact ⟨_, fun p hp => hp.elim (fun e => e ▸ hit) (h.queue p), hl⟩
    · refine ⟨g.queue, h.queue, ?_⟩
      simp only [Cache.touched, hsame]
      exact hlru'
  obtain ⟨Q, hQ, hl⟩ := hend
  obtain ⟨nx', pv', hitems⟩ := s.touched_form it
  refine ⟨Q, h.rewire (t := s.touched it) (B := g.buckets) rfl rfl rfl ?_ (fun id p hp => ?_)
    (fun id p hp => ?_) (h.buckets.congr ?_ fun b p _ => ?_) (fun b p hp => ?_) (fun p hp => ?_) hQ hl⟩
  · rw [hitems]; exact ⟨rfl, rfl, rfl, rfl, rfl, rfl⟩
  · have hne : p ≠ it := fun e => h.notFree hit id (e ▸ hp)
    refine (itemLinkQ_next hne).trans (itemUnlinkQ_next fun hprev => ?_)
    by_cases hQ : it ∈ g.queue
    · exact h.notFree (h.queue p (h.lru.prev it hQ p hprev)) id hp
    · rw [h.lru.outside it (.inl hit) hQ] at hprev
      cases hprev
  · rw [hitems]
  · rw [hitems]
  · rw [hitems]; rfl
  · rw [hitems]; exact h.linked p ⟨b, hp⟩
  · rw [hitems]; exact h.unslabbed p hp

theorem evolves_touch (Q K : Set Ptr) : Evolves s g (s.touched it) { g with queue := Q } K := by
  obtain ⟨nx, pv, hitems⟩ := s.touched_form it
  refine .rewire ⟨[.unlock .cache, .lock .cache], rfl⟩ ?_ (fun _ hp => hp) (fun p _ => ?_)
    (fun p _ => ?_) rfl rfl rfl rfl
  · rw [hitems]; exact ⟨rfl, rfl, rfl, rfl, rfl, rfl⟩
  · rw [hitems]
  · rw [hitems]

/-- The fields of an item that is not stored yet are free to be written. -/
theorem fill (h : Sound s g) (hit : it ∈ g.inFlight) {m : Items} (hn : m.next = s.items.next)
    (hp : m.prev = s.items.prev) (hh : m.hNext = s.items.hNext) (hr : m.refcount = s.items.refcount)
    (hc : m.slabsClsid = s.items.slabsClsid)
    (hd : ∀ p ≠ it, m.data p = s.items.data p ∧ m.nkey p = s.items.nkey p ∧
      m.cas p = s.items.cas p ∧ m.itemFlag p = s.items.itemFlag p) :
    Sound { s with items := m } g := by
  have hne : ∀ p ∈ s.everLinked, p ≠ it := fun p hp e => h.unlinked it hit (e ▸ hp)
  have hE : ({ s with items := m } : Cache).everLinked = s.everLinked := rfl
  refine ⟨h.slab.congr (fun _ p _ => by rw [hn]) fun _ p _ => by rw [hr],
    h.buckets.congr hh fun b p hp => ?_, fun p => by rw [hc]; exact h.clsid p, fun p hp => ?_,
    fun p hp => ?_, h.used, h.unlinked, h.queue,
    h.lru.congr (fun _ _ => by rw [hn]) (fun _ _ => by rw [hp]) fun p hpS hpQ => ?_, h.numbered,
    h.once, fun p id hpl => ?_, h.casId⟩
  · have hd := hd p (hne p (h.linked p ⟨b, hp⟩).1)
    exact Items.key_congr hd.1 hd.2.1
  · obtain ⟨hpE, hpf⟩ := h.linked p hp
    exact ⟨hpE, by rw [(hd p (hne p hpE)).2.2.2]; exact hpf⟩
  · rw [(hd p (hne p hp)).2.2.2]; exact h.unslabbed p hp
  · rw [hp]; exact h.lru.outside p hpS hpQ
  · change m.cas p = id
    rw [(hd p (hne p ⟨id, hpl⟩)).2.2.1]
    exact h.stamped p id hpl

end Sound

/-- The class can hand out a chunk: from its freelist, or from a new page. -/
def Slab.grants (b : Slab) (id : ℕ) : Prop := (b.cls id).slCurr ≠ 0 ∨ b.newslabOk id

instance (b : Slab) (id : ℕ) : Decidable (b.grants id) := by
  unfold Slab.grants
  infer_instance

/-- The size of an item as `do_item_alloc` computes it. -/
def ntotal (nkey : ℕ) (nbytes : ℤ) : ℕ := toSizeT (toInt (sizeofBaseItem + nkey + 1 + nbytes))

/-- `item_alloc` gets a chunk for an item with these lengths. -/
def Slab.allocOk (b : Slab) (nkey : ℕ) (nbytes : ℤ) : Prop :=
  b.slabsClsid (ntotal nkey nbytes) ≠ 0 ∧ b.grants (b.slabsClsid (ntotal nkey nbytes))

instance (b : Slab) (nkey : ℕ) (nbytes : ℤ) : Decidable (b.allocOk nkey nbytes) := by
  unfold Slab.allocOk
  infer_instance

/-- The cache before and after `do_item_alloc` handed out `it`. -/
structure Cache.Grant (s : Cache) (g : Shape) (s' : Cache) (g' : Shape) (size id : ℕ) (it : Ptr) :
    Prop where
  alloc : Allocated s.items s'.items s.slab s'.slab g.free g'.free size id it
  trace : ∃ t, s'.trace = t ++ s.trace ∧ Event.links t = [] ∧ ∀ p v, Event.fetchSub p v ∉ t
  inFlight : g'.inFlight = insert it g.inFlight
  buckets : g'.buckets = g.buckets
  queue : g'.queue = g.queue
  rest : s' = { s with items := s'.items, slab := s'.slab, trace := s'.trace }

theorem Cache.Grant.links {s s' : Cache} {g g' : Shape} {size id : ℕ} {it : Ptr}
    (hg : s.Grant g s' g' size id it) : s'.links = s.links := by
  obtain ⟨t, ht, hlinks, -⟩ := hg.trace
  rw [Cache.links, ht, Event.links_append, hlinks]
  rfl

namespace Sound

variable {s : Cache} {g : Shape}

/-- The lists of the classes are empty, so that the tail scan ends at once and
`do_item_alloc` is `slabs_alloc`. -/
theorem doItemAlloc_eq (h : Sound s g) (nkey : ℕ) (nbytes : ℤ) :
    s.doItemAlloc nkey nbytes =
      if s.slab.slabsClsid (ntotal nkey nbytes) = 0 then .ok (s, none)
      else (s.lock .cache).slabsAlloc (ntotal nkey nbytes)
        (s.slab.slabsClsid (ntotal nkey nbytes)) >>= fun r => .ok (r.1.unlock .cache, r.2) := by
  unfold Cache.doItemAlloc
  simp only [← ntotal.eq_1]
  split_ifs with hid
  · rfl
  · have htail : (s.lock .cache).lru.tails (s.slab.slabsClsid (ntotal nkey nbytes)) = none :=
      (h.lru.others _ hid).2
    have hscan : Cache.tailScan (ntotal nkey nbytes) (s.slab.slabsClsid (ntotal nkey nbytes))
        ((s.lock .cache).slab.chunkCount + 5) 5
        ((s.lock .cache).lru.tails (s.slab.slabsClsid (ntotal nkey nbytes))) (s.lock .cache) =
          .ok ⟨s.lock .cache, none, false, 5, none⟩ := by
      rw [htail, Cache.tailScan]
    simp only [hscan, Result.ok_bind]
    rw [if_pos (by simp)]
    rfl

/-- `do_item_alloc` hands out a chunk under `allocOk`, and only then. -/
theorem doItemAlloc_spec (h : Sound s g) (nkey : ℕ) (nbytes : ℤ) :
    (¬s.slab.allocOk nkey nbytes → ∃ b t, s.doItemAlloc nkey nbytes =
        .ok ({ s with slab := b, trace := t ++ s.trace }, none) ∧ NothingCarved s.slab b ∧
          Event.links t = [] ∧ ∀ p v, Event.fetchSub p v ∉ t) ∧
    (s.slab.allocOk nkey nbytes → ∃ s' g' it, s.doItemAlloc nkey nbytes = .ok (s', some it) ∧
      s.Grant g s' g' (ntotal nkey nbytes) (s.slab.slabsClsid (ntotal nkey nbytes)) it) := by
  have heq := h.doItemAlloc_eq nkey nbytes
  set size := ntotal nkey nbytes
  set id := s.slab.slabsClsid size with hid
  unfold Slab.allocOk
  by_cases h0 : id = 0
  · rw [if_pos h0] at heq
    exact ⟨fun _ => ⟨s.slab, [], heq, .refl _, rfl, by simp⟩, fun hok => absurd h0 hok.1⟩
  · rw [if_neg h0] at heq
    have hle : id ≤ s.slab.powerLargest := s.slab.slabsClsid_le size
    obtain ⟨hno, hyes⟩ := doSlabsAlloc_spec h.slab size (by omega : 1 ≤ id) hle
    by_cases hok : s.slab.grants id
    · refine ⟨fun hnot => absurd ⟨h0, hok⟩ hnot, fun _ => ?_⟩
      obtain ⟨m', b', F', it, hrun, ha⟩ := hyes hok
      refine ⟨{ s with
        items := m'
        slab := b'
        trace := [.unlock .cache, .unlock .slabs, .lock .slabs, .lock .cache] ++ s.trace },
        { g with inFlight := insert it g.inFlight, free := F' }, it, ?_, ha, ⟨_, rfl, rfl, by simp⟩,
        rfl, rfl, rfl, rfl⟩
      rw [heq]
      unfold Cache.slabsAlloc
      have hrun' : MiniMemcached.doSlabsAlloc ((s.lock .cache).lock .slabs).items
          ((s.lock .cache).lock .slabs).slab size id = .ok (m', b', some it) := hrun
      simp only [hrun', Result.ok_bind, Result.pure_eq]
      rfl
    · refine ⟨fun _ => ?_, fun hboth => absurd hboth.2 hok⟩
      obtain ⟨hempty, hpage⟩ := not_or.mp hok
      obtain ⟨b', hrun, hb⟩ := hno ⟨not_not.mp hempty, hpage⟩
      refine ⟨b', [.unlock .cache, .unlock .slabs, .lock .slabs, .lock .cache], ?_, hb, rfl, by simp⟩
      rw [heq]
      unfold Cache.slabsAlloc
      have hrun' : MiniMemcached.doSlabsAlloc ((s.lock .cache).lock .slabs).items
          ((s.lock .cache).lock .slabs).slab size id = .ok (s.items, b', none) := hrun
      simp only [hrun', Result.ok_bind, Result.pure_eq]
      rfl

/-- A refused allocation. -/
theorem refused (h : Sound s g) {b : Slab} {t : List Event} (hb : NothingCarved s.slab b)
    (ht : Event.links t = []) : Sound { s with slab := b, trace := t ++ s.trace } g := by
  have hlinks : Event.links (t ++ s.trace) = s.links := by
    rw [Event.links_append, ht]; rfl
  have hslots : ∀ id, (b.cls id).slots = (s.slab.cls id).slots := fun id => by rw [hb.cls id]
  have h' : Sound { s with trace := t ++ s.trace } g := h.congr rfl rfl rfl rfl rfl hlinks
  refine ⟨h.slab.nothingCarved hb, h'.buckets, h'.clsid, h'.linked, h'.unslabbed, fun p hp => ?_,
    h'.unlinked, h'.queue, ?_, h'.numbered, h'.once, h'.stamped, h'.casId⟩
  · obtain ⟨⟨id, hid⟩, hfree⟩ := h'.used p hp
    exact ⟨⟨id, by simpa [hb.chunks] using hid⟩, hfree⟩
  · simp only [hslots]
    exact h'.lru

theorem evolves_refused {b : Slab} (t : List Event) (hb : NothingCarved s.slab b) (K : Set Ptr) :
    Evolves s g { s with slab := b, trace := t ++ s.trace } g K :=
  { Evolves.refl s g K with
    trace := ⟨t, rfl⟩
    sizes := hb.table }

/-- A granted chunk. -/
theorem grant (h : Sound s g) {s' : Cache} {g' : Shape} {size id : ℕ} {it : Ptr}
    (hg : s.Grant g s' g' size id it) :
    Sound s' g' ∧ it ∉ s.everLinked ∧ it ∉ g.inFlight ∧ Evolves s g s' g' g.inFlight := by
  have ha := hg.alloc
  have hlinks := hg.links
  have hE : s'.everLinked = s.everLinked := by simp only [Cache.everLinked, hlinks]
  have hrest := hg.rest
  have hht : s'.hashtable = s.hashtable := by rw [hrest]
  have hlru : s'.lru = s.lru := by rw [hrest]
  have hcas : s'.casId = s.casId := by rw [hrest]
  have hnew : ∀ p, p ∈ s.everLinked ∨ p ∈ g.inFlight → p ≠ it := by
    rintro p hp rfl
    obtain ⟨⟨j, hj⟩, hfree⟩ := h.used p hp
    exact hfree _ (ha.wasFree j hj)
  have hsame : ∀ p, p ∈ s.everLinked ∨ p ∈ g.inFlight →
      SameAt s.items s'.items p ∧ ∀ i, p ∉ g'.free i := by
    intro p hp
    obtain ⟨⟨j, hj⟩, hfree⟩ := h.used p hp
    exact ha.used j p hj (hfree j)
  have htable : g'.table = g.table := by simp only [Shape.table, hg.buckets]
  have hslots : ∀ j p, (s.slab.cls j).slots = some p → s.items.prev p = none := fun j p hp => by
    have hpF := (h.slab.chain j).start_mem hp
    exact h.lru.outside p (.inr (.inr ⟨j, hp⟩)) fun hQ => h.notFree (h.queue p hQ) j hpF
  have hB : Buckets HashTable.hash s'.items s'.hashtable g'.buckets := by
    rw [hg.buckets, hht]
    have hk : ∀ b, ∀ p ∈ g.buckets b, SameAt s.items s'.items p := fun b p hp =>
      (hsame p (.inl (h.linked p ⟨b, hp⟩).1)).1
    refine ⟨fun b => (h.buckets.chain b).congr fun p hp => (hk b p hp).hNext, fun b p hp => ?_,
      fun b => ?_⟩
    · rw [(hk b p hp).key]; exact h.buckets.home b p hp
    · rw [List.map_congr_left fun p hp => (hk b p hp).key]; exact h.buckets.keys b
  refine ⟨⟨ha.rep, hB, ha.clsid h.clsid, fun p hp => ?_, fun p hp => ?_, fun p hp => ?_,
    fun p hp => ?_, fun p hp => ?_, ?_, by rw [hlinks]; exact h.numbered,
    by rw [hlinks]; exact h.once, fun p id hp => ?_, by rw [hcas, hlinks]; exact h.casId⟩,
    fun hp => hnew it (.inl hp) rfl, fun hp => hnew it (.inr hp) rfl, ?_⟩
  · rw [htable] at hp
    obtain ⟨hpE, hpf⟩ := h.linked p hp
    rw [hE, (hsame p (.inl hpE)).1.itemFlag]
    exact ⟨hpE, hpf⟩
  · rw [hE] at hp
    rw [(hsame p (.inl hp)).1.itemFlag]
    exact h.unslabbed p hp
  · rw [hE, hg.inFlight] at hp
    by_cases hpi : p = it
    · subst hpi
      exact ⟨⟨id, ha.mem_chunks⟩, ha.notFree⟩
    · have hp : p ∈ s.everLinked ∨ p ∈ g.inFlight := hp.imp_right fun hp => hp.resolve_left hpi
      obtain ⟨⟨j, hj⟩, -⟩ := h.used p hp
      exact ⟨⟨j, ha.chunks_subset j hj⟩, (hsame p hp).2⟩
  · rw [hg.inFlight] at hp
    rw [hE]
    exact hp.elim (fun e hpE => hnew p (.inl hpE) e) (h.unlinked p)
  · rw [hg.queue] at hp
    rw [hE]; exact h.queue p hp
  · rw [hlru, hg.queue]
    refine h.lru.congr (fun p hp => (hsame p (.inl (h.queue p hp))).1.next)
      (fun p hp => (hsame p (.inl (h.queue p hp))).1.prev) fun p hp hpQ => ?_
    rw [hE, hg.inFlight] at hp
    rcases hp with hp | (rfl | hp) | ⟨j, hp⟩
    · rw [(hsame p (.inl hp)).1.prev]
      exact h.lru.outside p (.inl hp) hpQ
    · exact ha.prev (hslots id)
    · rw [(hsame p (.inr hp)).1.prev]
      exact h.lru.outside p (.inr (.inl hp)) hpQ
    · exact ha.front hslots j p hp
  · rw [hlinks] at hp
    rw [(hsame p (.inl ⟨id, hp⟩)).1.cas]
    exact h.stamped p id hp
  · obtain ⟨t, ht, -⟩ := hg.trace
    exact ⟨⟨t, ht.symm⟩, fun p hp => .inl (htable ▸ hp), fun p hp => (hsame p hp).1.data,
      fun p hp => (hsame p hp).1.nkey, fun p hp => (hsame p hp).1.nbytes,
      fun p hp => (hsame p hp).1.exptime, fun p hp => (hsame p hp).1.cas,
      fun p hp => (hsame p (.inr hp)).1.itemFlag, fun p hp => (hsame p (.inr hp)).1.refcount,
      ha.table, by rw [hht], by rw [hrest], by rw [hrest]⟩

end Sound

end MiniMemcached
