import MiniMemcached.Cache.Operations
import MiniMemcached.Cache.Queue

/-! The tail scan of `do_item_alloc`. From the tail of the LRU list of the class it
looks at five items that are not markers. An item whose lock is held is left alone.
One whose counter is not 2 is repaired when it was not touched for three hours:
it is taken out of the table and of the list, and its chunk is not given back. The
first one with the counter 2 ends the scan. `atomic_fetch_add` gives the old value,
so that item has a reference besides the one of its link. -/

namespace MiniMemcached

open MiniMemcached.Lists

namespace Cache

/-- The item is in the table and on the LRU list of its class. -/
structure Linked (s : Cache) (it : Ptr) : Prop where
  flag : s.items.itemFlag it &&& Slab.ITEM_LINKED ≠ 0
  chained : ∃ b, Reach s.items.hNext (s.hashtable.primaryHashtable b) it
  next : Reach s.items.next (s.lru.heads (s.items.slabsClsid it).toNat) it
  prev : Reach s.items.prev (s.lru.tails (s.items.slabsClsid it).toNat) it

/-- The item is in no hash chain, on no LRU list and on no freelist. -/
structure Detached (s : Cache) (it : Ptr) : Prop where
  chained : ∀ b, ¬Reach s.items.hNext (s.hashtable.primaryHashtable b) it
  next : ∀ c, ¬Reach s.items.next (s.lru.heads c) it
  prev : ∀ c, ¬Reach s.items.prev (s.lru.tails c) it
  free : ∀ c, ¬Reach s.items.next (s.slab.cls c).slots it

/-- The items that the scan passes over without counting them. -/
def Marker (s : Cache) (it : Ptr) : Prop :=
  s.items.nbytes it = 0 ∧ s.items.nkey it = 0 ∧ s.items.itemFlag it = 1

instance (s : Cache) (it : Ptr) : Decidable (s.Marker it) := by
  unfold Marker
  infer_instance

/-- The lock of the item is held elsewhere. -/
def lockHeld (s : Cache) (it : Ptr) : Bool :=
  s.itemLocks (s.lockIndex (HashTable.hash (s.items.key it)))

/-- The scan ends at the item. -/
def stopsScan (s : Cache) (it : Ptr) : Bool := !s.lockHeld it && s.items.refcount it == 2

/-- The tail-repair rule. -/
def overdue (s : Cache) (it : Ptr) : Bool :=
  !s.lockHeld it && decide (s.items.realtime it + LruList.TAIL_REPAIR_TIME < s.clock)

/-- The items that a scan of `l` looks at, when `tries` are left. -/
def looksAt (s : Cache) (tries : ℕ) (l : List Ptr) : List Ptr :=
  (l.filter fun p => ¬s.Marker p).take tries

def candidateIn (s : Cache) (tries : ℕ) (l : List Ptr) : Option Ptr :=
  (s.looksAt tries l).find? s.stopsScan

def repairedIn (s : Cache) (tries : ℕ) (l : List Ptr) : List Ptr :=
  ((s.looksAt tries l).takeWhile fun p => !s.stopsScan p).filter s.overdue

/-- The LRU list of a class, from the tail on. -/
def fromTail (s : Cache) (id : ℕ) : List Ptr :=
  walk s.items.prev s.slab.chunkCount (s.lru.tails id)

/-- The item of class `id` at which the scan ends. -/
def candidate (s : Cache) (id : ℕ) : Option Ptr := s.candidateIn 5 (s.fromTail id)

/-- The items that the scan of class `id` repairs. -/
def repaired (s : Cache) (id : ℕ) : List Ptr := s.repairedIn 5 (s.fromTail id)

def Expired (s : Cache) (it : Ptr) : Prop := s.items.exptime it ≠ 0 ∧ s.items.exptime it < s.clock

instance (s : Cache) (it : Ptr) : Decidable (s.Expired it) := by
  unfold Expired
  infer_instance

/-- `do_item_alloc` returns; an item that it takes from an LRU list has no reference
besides the one of its link; the item that it returns is nowhere; and all other items
stay linked but for those that the tail-repair rule takes out. -/
def AllocSafe (s : Cache) (nkey : ℕ) (nbytes : ℤ) : Prop :=
  ∃ s' o, s.doItemAlloc nkey nbytes = .ok (s', o) ∧
    (∀ it ∈ o, (∃ c, Reach s.items.prev (s.lru.tails c) it) → s.items.refcount it = 1) ∧
    (∀ it ∈ o, s'.Detached it) ∧
    ∀ p, s.Linked p → p ∉ o → p ∉ s.repaired (s.slab.slabsClsid (ntotal nkey nbytes)) → s'.Linked p

/-- No item is taken over: the scan ends at none, or at one that has not expired while
the class has a chunk left or eviction is off. -/
def TakesNone (s : Cache) (id : ℕ) : Prop :=
  ∀ p ∈ s.candidate id, ¬s.Expired p ∧ (s.slab.grants id ∨ ¬s.memSetting.evictToFree)

/-- A bucket whose first item is repaired holds no other linked items. -/
def RepairsWhole (s : Cache) (id : ℕ) : Prop :=
  ∀ b p, s.hashtable.primaryHashtable b = some p → p ∈ s.repaired id →
    ∀ q, Reach s.items.hNext (some p) q → s.Linked q → q ∈ s.repaired id

/-- The freelists are `F`, the buckets `B` and the LRU lists `Q`; the items of a list are
linked and of its class. -/
structure Stocked (s : Cache) (F B Q : ℕ → List Ptr) : Prop where
  slab : SlabRep s.items s.slab F
  buckets : Buckets HashTable.hash s.items s.hashtable B
  lists : ∀ c, Doubly s.items.next s.items.prev (s.lru.heads c) (s.lru.tails c) (Q c)
  home : ∀ c, ∀ p ∈ Q c, (s.items.slabsClsid p).toNat = c
  flag : ∀ c, ∀ p ∈ Q c, s.items.itemFlag p &&& Slab.ITEM_LINKED ≠ 0 ∧
    s.items.itemFlag p &&& Slab.ITEM_SLABBED = 0
  chained : ∀ c, ∀ p ∈ Q c, ∃ b, p ∈ B b
  used : ∀ b, ∀ p ∈ B b, (∃ id, p ∈ (s.slab.cls id).chunks) ∧ ∀ id, p ∉ F id

end Cache

/-- The buckets after the items `R` were deleted: deleting the first item of a bucket
empties it. -/
def swept (B : ℕ → List Ptr) (R : List Ptr) (b : ℕ) : List Ptr :=
  if ∃ p ∈ (B b).head?, p ∈ R then [] else (B b).filter fun p => p ∉ R

theorem swept_sublist (B : ℕ → List Ptr) (R : List Ptr) (b : ℕ) : (swept B R b).Sublist (B b) := by
  unfold swept
  split_ifs
  · exact List.nil_sublist _
  · exact List.filter_sublist

@[simp] theorem swept_nil (B : ℕ → List Ptr) : swept B [] = B := by
  funext b
  simp [swept]

theorem mem_swept {B : ℕ → List Ptr} {R : List Ptr} {b : ℕ} {q : Ptr} :
    q ∈ swept B R b ↔ (∀ p ∈ (B b).head?, p ∉ R) ∧ q ∈ B b ∧ q ∉ R := by
  unfold swept
  split_ifs with hhead
  · obtain ⟨p, hp, hpR⟩ := hhead
    simp only [List.not_mem_nil, false_iff, not_and]
    exact fun hall => absurd hpR (hall p hp)
  · push Not at hhead
    simp only [List.mem_filter, decide_eq_true_eq]
    exact (and_iff_right hhead).symm

theorem eraseP_congr {α : Type*} {f g : α → Bool} {l : List α} (h : ∀ a ∈ l, f a = g a) :
    l.eraseP f = l.eraseP g := by
  induction l with
  | nil => rfl
  | cons a l ih =>
    rw [List.eraseP_cons, List.eraseP_cons, h a (List.mem_cons_self ..),
      ih fun b hb => h b (List.mem_cons_of_mem a hb)]

/-- `hash_delete` of an item of the bucket, when some others were deleted before. -/
theorem dropKey_eq {m : Items} {h : HashTable} {B : ℕ → List Ptr}
    (hB : Buckets HashTable.hash m h B) {b : ℕ} {p : Ptr} (hp : p ∈ B b) {l : List Ptr}
    (hl : l.Sublist (B b)) :
    dropKey m (m.key p) l = if p ∈ l.head? then [] else l.filter fun q => q ≠ p := by
  have hkey : ∀ q ∈ l, m.keyIs q (m.key p) = decide (q = p) := by
    intro q hq
    by_cases hqp : q = p
    · simp [hqp, Items.keyIs_iff]
    · have hne : m.key q ≠ m.key p := fun e => hqp (hB.key_inj (hl.subset hq) hp e)
      simpa [hqp] using mt (m.keyIs_iff q _).mp hne
  have hnodup := hl.nodup (hB.chain b).nodup
  cases l with
  | nil => simp
  | cons a l =>
    rw [dropKey_cons, hkey a (List.mem_cons_self ..)]
    by_cases hap : a = p
    · simp [hap]
    · have herase : (l.eraseP fun q => m.keyIs q (m.key p)) = l.filter (· != p) := by
        rw [← (List.nodup_cons.mp hnodup).2.erase_eq_filter, List.erase_eq_eraseP']
        refine eraseP_congr fun q hq => ?_
        simp [hkey q (List.mem_cons_of_mem _ hq), beq_eq_decide]
      simp [hap, herase]
      rfl

/-- One more item is deleted. -/
theorem swept_concat {m : Items} {h : HashTable} {B : ℕ → List Ptr}
    (hB : Buckets HashTable.hash m h B) {R : List Ptr} {b : ℕ} {p : Ptr} (hp : p ∈ B b) :
    Function.update (swept B R) b (dropKey m (m.key p) (swept B R b)) = swept B (R ++ [p]) := by
  funext j
  by_cases hj : j = b
  · subst hj
    rw [Function.update_self, dropKey_eq hB hp (swept_sublist B R j)]
    unfold swept
    cases hL : B j with
    | nil => simp
    | cons a l =>
      by_cases haR : a ∈ R
      · simp [haR]
      · by_cases hap : a = p
        · subst hap
          simp [haR]
        · simp [haR, hap, List.filter_filter, Bool.and_comm]
  · have hpj : ∀ q ∈ B j, q ≠ p := fun q hq e => hj (hB.bucket_unique (e ▸ hq) hp)
    rw [Function.update_of_ne hj]
    unfold swept
    have hhead : (∃ q ∈ (B j).head?, q ∈ R) ↔ ∃ q ∈ (B j).head?, q ∈ R ++ [p] := by
      refine exists_congr fun q => and_congr_right fun hq => ?_
      simp [hpj q (List.mem_of_mem_head? hq)]
    simp only [hhead]
    congr 1
    refine List.filter_congr fun q hq => ?_
    simp [hpj q hq]

namespace Cache

/-- A state in the scan of class `id`: the items `R` were repaired, `kept` were passed
and left in, and `rest` is still to come. -/
structure Scanned (t : Cache) (F B Q : ℕ → List Ptr) (id : ℕ) (R kept rest : List Ptr) : Prop where
  buckets : Buckets HashTable.hash t.items t.hashtable (swept B R)
  combed : Combed t.items.next t.items.prev (t.lru.heads id) (t.lru.tails id) (Q id) kept rest
  others : ∀ c ≠ id, Doubly t.items.next t.items.prev (t.lru.heads c) (t.lru.tails c) (Q c)
  free : ∀ c, Chain t.items.next (t.slab.cls c).slots (F c)
  home : ∀ c, ∀ p ∈ Q c, (t.items.slabsClsid p).toNat = c
  flag : ∀ c, ∀ p ∈ Q c, p ∉ R → t.items.itemFlag p &&& Slab.ITEM_LINKED ≠ 0
  cover : ∀ p ∈ Q id, p ∉ R → p ∈ kept ∨ p ∈ rest

/-- What the scan has left as it was. -/
structure Scanning (s t : Cache) (F B Q : ℕ → List Ptr) (id : ℕ) (R kept rest : List Ptr) : Prop
    extends Scanned t F B Q id R kept rest where
  slab : t.slab = s.slab
  memSetting : t.memSetting = s.memSetting
  clock : t.clock = s.clock
  hashpower : t.hashtable.hashpower = s.hashtable.hashpower
  realtime : t.items.realtime = s.items.realtime
  exptime : t.items.exptime = s.items.exptime
  nbytes : t.items.nbytes = s.items.nbytes
  nkey : t.items.nkey = s.items.nkey
  data : t.items.data = s.items.data
  itemFlag : ∀ p ∉ R, t.items.itemFlag p = s.items.itemFlag p
  refcount : ∀ p, p ∈ rest ∨ (∃ c, p ∈ F c) → t.items.refcount p = s.items.refcount p
  repaired : R ⊆ Q id
  nodup : (R ++ rest).Nodup

section Scan

variable {s t : Cache} {F B Q : ℕ → List Ptr} {id : ℕ} {R kept rest : List Ptr} {p : Ptr}

namespace Stocked

theorem notFree (h : Stocked s F B Q) {c : ℕ} (hp : p ∈ Q c) (j : ℕ) : p ∉ F j := by
  obtain ⟨b, hb⟩ := h.chained c p hp
  exact (h.used b p hb).2 j

theorem scanning (h : Stocked s F B Q) (id : ℕ) : Scanning s s F B Q id [] [] (Q id).reverse where
  buckets := by simpa using h.buckets
  combed := .start (h.lists id)
  others c _ := h.lists c
  free := h.slab.chain
  home := h.home
  flag c p hp _ := (h.flag c p hp).1
  cover p hp _ := .inr (List.mem_reverse.mpr hp)
  slab := rfl
  memSetting := rfl
  clock := rfl
  hashpower := rfl
  realtime := rfl
  exptime := rfl
  nbytes := rfl
  nkey := rfl
  data := rfl
  itemFlag _ _ := rfl
  refcount _ _ := rfl
  repaired := List.nil_subset _
  nodup := by simpa using (h.lists id).forward.nodup

theorem length_le (h : Stocked s F B Q) (id : ℕ) : (Q id).length ≤ s.slab.chunkCount := by
  refine h.slab.length_le (h.lists id).forward.nodup fun p hp => ?_
  obtain ⟨b, hb⟩ := h.chained id p hp
  exact (h.used b p hb).1

theorem fromTail_eq (h : Stocked s F B Q) (id : ℕ) : s.fromTail id = (Q id).reverse :=
  (h.lists id).backward.walk_eq (by rw [List.length_reverse]; exact h.length_le id)

end Stocked

namespace Scanned

theorem linked_iff (h : Scanned t F B Q id R kept rest) {c : ℕ} (hp : p ∈ Q c) (hpR : p ∉ R) :
    t.Linked p ↔ ∃ b, p ∈ swept B R b := by
  have hc := h.home c p hp
  constructor
  · rintro ⟨-, ⟨b, hb⟩, -, -⟩
    exact ⟨b, ((h.buckets.chain b).reach_iff p).mp hb⟩
  · rintro ⟨b, hb⟩
    have hboth : Reach t.items.next (t.lru.heads c) p ∧ Reach t.items.prev (t.lru.tails c) p := by
      by_cases hid : c = id
      · subst hid
        have hcover := h.cover p hp hpR
        exact ⟨h.combed.reach_next hcover, h.combed.reach_prev hcover⟩
      · have hlist := h.others c hid
        exact ⟨(hlist.forward.reach_iff p).mpr hp,
          (hlist.backward.reach_iff p).mpr (List.mem_reverse.mpr hp)⟩
    refine ⟨h.flag c p hp hpR, ⟨b, ((h.buckets.chain b).reach_iff p).mpr hb⟩, ?_, ?_⟩
    · rw [hc]
      exact hboth.1
    · rw [hc]
      exact hboth.2

theorem detached (h : Scanned t F B Q id R kept rest) (hB : ∀ b, p ∉ B b) (hQ : ∀ c, p ∉ Q c)
    (hF : ∀ c, p ∉ F c) : t.Detached p where
  chained b hp := hB b ((swept_sublist B R b).subset (((h.buckets.chain b).reach_iff p).mp hp))
  next c hp := by
    by_cases hc : c = id
    · subst hc
      exact hQ c (h.combed.mem_of_reach_next hp)
    · exact hQ c (((h.others c hc).forward.reach_iff p).mp hp)
  prev c hp := by
    by_cases hc : c = id
    · subst hc
      exact hQ c (h.combed.mem_of_reach_prev hp)
    · exact hQ c (List.mem_reverse.mp (((h.others c hc).backward.reach_iff p).mp hp))
  free c hp := hF c (((h.free c).reach_iff p).mp hp)

/-- The items of the table keep all their fields. -/
theorem congr (h : Scanned t F B Q id R kept rest) {t' : Cache} {F' : ℕ → List Ptr}
    (hhash : t'.hashtable = t.hashtable) (hlru : t'.lru = t.lru)
    (hsame : ∀ b, ∀ p ∈ B b, SameAt t.items t'.items p) (hchained : ∀ c, ∀ p ∈ Q c, ∃ b, p ∈ B b)
    (hfree : ∀ c, Chain t'.items.next (t'.slab.cls c).slots (F' c)) :
    Scanned t' F' B Q id R kept rest := by
  have hB : ∀ b, ∀ p ∈ swept B R b, SameAt t.items t'.items p := fun b p hp =>
    hsame b p ((swept_sublist B R b).subset hp)
  have hQ : ∀ c, ∀ p ∈ Q c, SameAt t.items t'.items p := by
    intro c p hp
    obtain ⟨b, hb⟩ := hchained c p hp
    exact hsame b p hb
  refine ⟨⟨fun b => ?_, fun b p hp => ?_, fun b => ?_⟩, ?_, fun c hc => ?_, hfree, fun c p hp => ?_,
    fun c p hp hpR => ?_, h.cover⟩
  · rw [hhash]
    exact (h.buckets.chain b).congr fun p hp => (hB b p hp).hNext
  · rw [hhash, (hB b p hp).key]
    exact h.buckets.home b p hp
  · rw [List.map_congr_left fun p hp => (hB b p hp).key]
    exact h.buckets.keys b
  · rw [hlru]
    exact h.combed.congr (fun p hp => (hQ id p hp).next) fun p hp => (hQ id p hp).prev
  · rw [hlru]
    exact (h.others c hc).congr (fun p hp => (hQ c p hp).next) fun p hp => (hQ c p hp).prev
  · rw [(hQ c p hp).slabsClsid]
    exact h.home c p hp
  · rw [(hQ c p hp).itemFlag]
    exact h.flag c p hp hpR

end Scanned

theorem fetchAdd_fetchSub (s : Cache) (it : Ptr) :
    (s.fetchAdd it).fetchSub it = s.emit (.fetchSub it (s.items.refcount it + 1)) := by
  have hitems : (s.items.setRefcount it (s.items.refcount it + 1)).setRefcount it
      (s.items.refcount it) = s.items := by
    simp only [Items.setRefcount, Function.update_idem, Function.update_eq_self]
  simp only [fetchSub, fetchAdd, emit]
  simp [Items.setRefcount]

namespace Scanning

/-- The next item is left in. -/
theorem keep (h : Scanning s t F B Q id R kept (p :: rest)) :
    Scanning s t F B Q id R (kept ++ [p]) rest :=
  { h with
    combed := h.combed.keep
    cover := fun q hq hqR => by
      have hcover := h.cover q hq hqR
      simp only [List.mem_cons, List.mem_append] at hcover ⊢
      tauto
    refcount := fun q hq => h.refcount q (hq.imp_left (List.mem_cons_of_mem p))
    nodup := h.nodup.sublist ((List.sublist_cons_self p rest).append_left R) }

/-- Locks and events. -/
theorem relabel (h : Scanning s t F B Q id R kept rest) (locks : ℕ → Bool) (l : List Event) :
    Scanning s { t with itemLocks := locks, trace := l } F B Q id R kept rest :=
  { h with }

/-- The counter of a passed item. -/
theorem setRefcount (h : Scanning s t F B Q id R kept rest) (hrest : p ∉ rest)
    (hfree : ∀ c, p ∉ F c) (v : UInt32) :
    Scanning s { t with items := t.items.setRefcount p v } F B Q id R kept rest :=
  { h with
    buckets := h.buckets.congr rfl fun _ _ _ => rfl
    refcount := fun q hq => by
      have hne : q ≠ p := by
        rintro rfl
        rcases hq with hq | ⟨c, hc⟩
        · exact hrest hq
        · exact hfree c hc
      rw [Items.setRefcount]
      simp only [Function.update_of_ne hne]
      exact h.refcount q hq }

theorem key (h : Scanning s t F B Q id R kept rest) (p : Ptr) : t.items.key p = s.items.key p :=
  Items.key_congr (congrFun h.data p) (congrFun h.nkey p)

theorem notRepaired (h : Scanning s t F B Q id R kept (p :: rest)) : p ∉ R ∧ p ∉ rest := by
  have hnodup := List.nodup_middle.mp h.nodup
  simpa using (List.nodup_cons.mp hnodup).1

/-- The buckets after the next item has been taken out of its own. -/
theorem unlink_eq (h : Scanning s t F B Q id R kept (p :: rest)) (hs : Stocked s F B Q) (v : UInt32)
    (locks : ℕ → Bool) (l : List Event) : ∃ f P c,
      ({ t with items := t.items.setRefcount p v, itemLocks := locks, trace := l } :
          Cache).doItemUnlinkNolock p (HashTable.hash (s.items.key p)) =
        .ok (({ t with items := t.items.setRefcount p v, itemLocks := locks, trace := l } :
          Cache).unlinked p f P c) ∧
      Buckets HashTable.hash { t.items.setRefcount p v with hNext := f }
        { t.hashtable with primaryHashtable := P, hashitems := c } (swept B (R ++ [p])) := by
  set t₁ : Cache := { t with items := t.items.setRefcount p v, itemLocks := locks, trace := l }
  have hpQ : p ∈ Q id := h.combed.rest_subset (List.mem_cons_self ..)
  obtain ⟨hlinked, hslab⟩ := hs.flag id p hpQ
  rw [← h.itemFlag p h.notRepaired.1] at hlinked hslab
  obtain ⟨b, hb⟩ := hs.chained id p hpQ
  have hB : Buckets HashTable.hash t₁.items t₁.hashtable (swept B R) :=
    h.buckets.congr rfl fun _ _ _ => rfl
  have hlen : ∀ j, (swept B R j).length ≤ t₁.slab.chunkCount := by
    intro j
    refine (swept_sublist B R j).length_le.trans ?_
    show (B j).length ≤ t.slab.chunkCount
    rw [h.slab]
    exact hs.slab.length_le (hs.buckets.chain j).nodup fun q hq => (hs.used j q hq).1
  have hkey : t₁.items.key p = s.items.key p := h.key p
  obtain ⟨f, P, c, hrun, hB'⟩ := doItemUnlinkNolock_eq (s := t₁) hB hlen hslab hlinked
  rw [hkey] at hrun hB'
  have hkeyIs : t₁.items.keyIs = s.items.keyIs := by
    funext q k
    show t.items.keyIs q k = s.items.keyIs q k
    simp only [Items.keyIs, h.nkey, h.data]
  have hdrop : ∀ k j, dropKey t₁.items k j = dropKey s.items k j := by
    intro k j
    cases j with
    | nil => rfl
    | cons q j => rw [dropKey_cons, dropKey_cons, hkeyIs]
  have hbucket : t₁.hashtable.bucket (HashTable.hash (s.items.key p)) = b := by
    rw [← hs.buckets.home b p hb]
    show t.hashtable.bucket _ = _
    unfold HashTable.bucket
    rw [h.hashpower]
  rw [hbucket, hdrop, swept_concat hs.buckets hb] at hB'
  exact ⟨f, P, c, hrun, hB'⟩

/-- The lists and the freelists after the neighbours of the next item were joined. -/
theorem redirected (h : Scanning s t F B Q id R kept (p :: rest)) (hs : Stocked s F B Q)
    {next prev : Ptr → Option Ptr}
    (hnext : next = fun q => if t.items.prev p = some q then t.items.next p else t.items.next q)
    (hprev : prev = fun q => if t.items.next p = some q then t.items.prev p else t.items.prev q) :
    Combed next prev (t.lru.heads id) (t.lru.tails id) (Q id) kept rest ∧
      (∀ c ≠ id, Doubly next prev (t.lru.heads c) (t.lru.tails c) (Q c)) ∧
      ∀ c, Chain next (t.slab.cls c).slots (F c) := by
  have hneighbour : ∀ q, t.items.prev p = some q ∨ t.items.next p = some q → q ∈ Q id := by
    intro q hq
    rcases hq with hq | hq
    · rw [h.combed.prev_eq] at hq
      exact h.combed.rest_subset (List.mem_cons_of_mem p (List.mem_of_mem_head? hq))
    · rw [h.combed.next_eq] at hq
      exact h.combed.kept_subset (List.mem_of_mem_getLast? hq)
  -- nothing outside the list has the item as its neighbour
  have hframe : ∀ q ∉ Q id, next q = t.items.next q ∧ prev q = t.items.prev q := by
    intro q hq
    rw [hnext, hprev]
    exact ⟨if_neg fun e => hq (hneighbour q (.inl e)), if_neg fun e => hq (hneighbour q (.inr e))⟩
  refine ⟨?_, fun j hj => ?_, fun j => ?_⟩
  · rw [hnext, hprev]
    exact h.combed.drop
  · have hout : ∀ q ∈ Q j, q ∉ Q id := fun q hq hq' => hj ((h.home j q hq).symm.trans (h.home id q hq'))
    exact (h.others j hj).congr (fun q hq => (hframe q (hout q hq)).1) fun q hq => (hframe q (hout q hq)).2
  · exact (h.free j).congr fun q hq => (hframe q fun hq' => hs.notFree hq' j hq).1

/-- The next item is taken out of the table and of the list. -/
theorem unlink (h : Scanning s t F B Q id R kept (p :: rest)) (hs : Stocked s F B Q)
    (hid : id ≤ Slab.POWER_LARGEST) (v : UInt32) (locks : ℕ → Bool) (l : List Event) :
    ∃ t', ({ t with items := t.items.setRefcount p v, itemLocks := locks, trace := l } :
        Cache).doItemUnlinkNolock p (HashTable.hash (s.items.key p)) = .ok t' ∧
      t'.itemLocks = locks ∧ Scanning s t' F B Q id (R ++ [p]) kept rest := by
  obtain ⟨f, P, c, hrun, hB⟩ := h.unlink_eq hs v locks l
  set t₁ : Cache := { t with items := t.items.setRefcount p v, itemLocks := locks, trace := l }
  have hpQ : p ∈ Q id := h.combed.rest_subset (List.mem_cons_self ..)
  obtain ⟨hpR, hpr⟩ := h.notRepaired
  have hslab := (hs.flag id p hpQ).2
  rw [← h.itemFlag p hpR] at hslab
  have hunlinkQ := itemUnlinkQ_eq (m := t₁.items) (l := t₁.lru) (h.home id p hpQ) hslab hid
    h.combed.prev_head h.combed.next_tail
  set t' := t₁.unlinked p f P c
  have hnext : t'.items.next =
      fun q => if t.items.prev p = some q then t.items.next p else t.items.next q := by
    show (MiniMemcached.itemUnlinkQ t₁.items t₁.lru p).1.next = _
    rw [hunlinkQ]
    rfl
  have hprev : t'.items.prev =
      fun q => if t.items.next p = some q then t.items.prev p else t.items.prev q := by
    show (MiniMemcached.itemUnlinkQ t₁.items t₁.lru p).1.prev = _
    rw [hunlinkQ]
    rfl
  have hslots : t'.lru.heads = t.lru.heads ∧ t'.lru.tails = t.lru.tails := by
    show (MiniMemcached.itemUnlinkQ t₁.items t₁.lru p).2.heads = _ ∧
      (MiniMemcached.itemUnlinkQ t₁.items t₁.lru p).2.tails = _
    rw [hunlinkQ]
    exact ⟨rfl, rfl⟩
  obtain ⟨hcombed, hothers, hfree⟩ := h.redirected hs hnext hprev
  rw [← hslots.1, ← hslots.2] at hcombed hothers
  have hrefcount : ∀ q ≠ p, t'.items.refcount q = t.items.refcount q := by
    intro q hq
    simp [t', t₁, unlinked, Items.setRefcount, hq]
  have hflag : ∀ q ≠ p, t'.items.itemFlag q = t.items.itemFlag q := fun q hq =>
    Function.update_of_ne hq _ _
  refine ⟨t', hrun, rfl, ⟨⟨hB.congr rfl fun _ _ _ => rfl, hcombed, hothers, hfree, h.home, ?_, ?_⟩, h.slab,
    h.memSetting, h.clock, h.hashpower, h.realtime, h.exptime, h.nbytes, h.nkey, h.data, ?_, ?_, ?_, ?_⟩⟩
  · intro j q hq hqR
    simp only [List.mem_append, List.mem_singleton, not_or] at hqR
    rw [hflag q hqR.2]
    exact h.flag j q hq hqR.1
  · intro q hq hqR
    simp only [List.mem_append, List.mem_singleton, not_or] at hqR
    have hcover := h.cover q hq hqR.1
    simp only [List.mem_cons, hqR.2, false_or] at hcover
    exact hcover
  · intro q hqR
    simp only [List.mem_append, List.mem_singleton, not_or] at hqR
    rw [hflag q hqR.2]
    exact h.itemFlag q hqR.1
  · intro q hq
    have hne : q ≠ p := by
      rintro rfl
      rcases hq with hq | ⟨j, hj⟩
      · exact hpr hq
      · exact hs.notFree hpQ j hj
    rw [hrefcount q hne]
    exact h.refcount q (hq.imp_left (List.mem_cons_of_mem p))
  · refine List.append_subset.mpr ⟨h.repaired, ?_⟩
    simpa using hpQ
  · simpa using h.nodup

/-- The tests of the loop read what they would have read before the scan. -/
theorem reads (h : Scanning s t F B Q id R kept (p :: rest)) (hlocks : t.itemLocks = s.itemLocks) :
    t.itemLocks (t.lockIndex (HashTable.hash (t.items.key p))) = s.lockHeld p ∧
      t.items.refcount p = s.items.refcount p ∧ (t.Marker p ↔ s.Marker p) := by
  refine ⟨?_, h.refcount p (.inl (List.mem_cons_self ..)), ?_⟩
  · unfold lockHeld lockIndex HashTable.bucket
    rw [hlocks, h.hashpower, h.key]
  · unfold Marker
    rw [h.nbytes, h.nkey, h.itemFlag p h.notRepaired.1]

theorem tailScan_marker (h : Scanning s t F B Q id R kept (p :: rest))
    (hlocks : t.itemLocks = s.itemLocks) (hm : s.Marker p) (ntotal n tries : ℕ) :
    tailScan ntotal id (n + 1) (tries + 1) (some p) t =
      tailScan ntotal id n (tries + 1) rest.head? t := by
  have hm : t.items.nbytes p = 0 ∧ t.items.nkey p = 0 ∧ t.items.itemFlag p = 1 :=
    (h.reads hlocks).2.2.mpr hm
  rw [tailScan, if_pos hm, h.combed.prev_eq]

theorem lockIndex (h : Scanning s t F B Q id R kept rest) (hv : UInt32) :
    t.lockIndex hv = s.lockIndex hv := by
  unfold Cache.lockIndex HashTable.bucket
  rw [h.hashpower]

/-- An item's lock that is free is taken. -/
theorem itemTrylock_free (h : Scanning s t F B Q id R kept rest) (hlocks : t.itemLocks = s.itemLocks)
    {hv : UInt32} (hfree : s.itemLocks (s.lockIndex hv) = false) :
    ∃ u, t.itemTrylock hv = (u, true) ∧
      u.itemLocks = Function.update s.itemLocks (s.lockIndex hv) true ∧
      Scanning s u F B Q id R kept rest := by
  have hfree' : ¬t.itemLocks (t.lockIndex hv) = true := by
    rw [hlocks, h.lockIndex, hfree]
    simp
  refine ⟨_, if_neg hfree', ?_, h.relabel _ _⟩
  show Function.update t.itemLocks (t.lockIndex hv) true = _
  rw [hlocks, h.lockIndex]

/-- The item's lock, which was free, is given back. -/
theorem released (h : Scanning s t F B Q id R kept rest) {hv : UInt32}
    (hfree : s.itemLocks (s.lockIndex hv) = false)
    (hlocks : t.itemLocks = Function.update s.itemLocks (s.lockIndex hv) true) :
    (t.itemTrylockUnlock hv).itemLocks = s.itemLocks ∧
      Scanning s (t.itemTrylockUnlock hv) F B Q id R kept rest := by
  refine ⟨?_, h.relabel _ _⟩
  show Function.update t.itemLocks (t.lockIndex hv) false = _
  rw [hlocks, h.lockIndex, Function.update_idem, ← hfree, Function.update_eq_self]

/-- An item that the scan looks at and goes on behind. -/
theorem tailScan_pass (h : Scanning s t F B Q id R kept (p :: rest)) (hs : Stocked s F B Q)
    (hid : id ≤ Slab.POWER_LARGEST) (hlocks : t.itemLocks = s.itemLocks) (hm : ¬s.Marker p)
    (hstop : s.stopsScan p = false) (ntotal n tries : ℕ) :
    ∃ t' kept', tailScan ntotal id (n + 1) (tries + 1) (some p) t =
        tailScan ntotal id n tries rest.head? t' ∧ t'.itemLocks = s.itemLocks ∧
      Scanning s t' F B Q id (R ++ if s.overdue p then [p] else []) kept' rest := by
  obtain ⟨hheld, -, hmarker⟩ := h.reads hlocks
  have hm : ¬(t.items.nbytes p = 0 ∧ t.items.nkey p = 0 ∧ t.items.itemFlag p = 1) := mt hmarker.mp hm
  rw [tailScan, if_neg hm, h.combed.prev_eq]
  cases hlock : s.lockHeld p with
  | true =>
    -- the lock is held elsewhere
    have hover : s.overdue p = false := by simp [overdue, hlock]
    rw [hlock] at hheld
    simp only [itemTrylock, hheld, if_true, hover, Bool.false_eq_true, if_false, List.append_nil]
    exact ⟨_, kept ++ [p], rfl, hlocks, h.keep.relabel _ _⟩
  | false =>
    rw [h.key p]
    obtain ⟨u, htry, hlocks', hu⟩ := h.itemTrylock_free hlocks hlock
    have hne : u.items.refcount p ≠ 2 := by
      rw [hu.refcount p (.inl (List.mem_cons_self ..))]
      simpa [stopsScan, hlock] using hstop
    have hlate : u.items.realtime p + LruList.TAIL_REPAIR_TIME < u.clock ↔ s.overdue p = true := by
      rw [hu.realtime, hu.clock]
      simp [overdue, hlock]
    simp only [htry, fetchAdd_fetchSub, emit]
    rw [if_pos hne]
    cases hover : s.overdue p with
    | true =>
      -- the item is repaired
      obtain ⟨t', hrun, hlocks'', ht'⟩ := hu.unlink hs hid 1 u.itemLocks
        (.fetchSub p (u.items.refcount p + 1) :: u.trace)
      obtain ⟨hfree, ht'⟩ := ht'.released hlock (hlocks''.trans hlocks')
      rw [if_pos (hlate.mpr hover)]
      exact ⟨_, kept, congrArg (· >>= _) hrun, hfree, by simpa using ht'⟩
    | false =>
      have hnot := mt hlate.mp (by simp [hover])
      obtain ⟨hfree, ht'⟩ := (hu.keep.relabel u.itemLocks
        (.fetchSub p (u.items.refcount p + 1) :: u.trace)).released hlock hlocks'
      rw [if_neg hnot]
      exact ⟨_, kept ++ [p], rfl, hfree, by simpa using ht'⟩

/-- The candidate, at which the scan ends. -/
theorem tailScan_stop (h : Scanning s t F B Q id R kept (p :: rest))
    (hlocks : t.itemLocks = s.itemLocks) (hm : ¬s.Marker p) (hstop : s.stopsScan p = true)
    (ntotal n tries : ℕ) :
    ∃ u, tailScan ntotal id (n + 1) (tries + 1) (some p) t =
        (u.fetchAdd p).scanTake p (HashTable.hash (s.items.key p)) ntotal id (tries + 1) ∧
      Scanning s u F B Q id R kept (p :: rest) := by
  have hm : ¬(t.items.nbytes p = 0 ∧ t.items.nkey p = 0 ∧ t.items.itemFlag p = 1) :=
    mt (h.reads hlocks).2.2.mp hm
  simp only [stopsScan, Bool.and_eq_true, Bool.not_eq_true', beq_iff_eq] at hstop
  obtain ⟨u, htry, -, hu⟩ := h.itemTrylock_free hlocks hstop.1
  have hcount : ¬u.items.refcount p ≠ 2 := by
    rw [hu.refcount p (.inl (List.mem_cons_self ..)), hstop.2]
    simp
  refine ⟨u, ?_, hu⟩
  rw [tailScan, if_neg hm, h.key p]
  simp only [htry]
  rw [if_neg hcount]

/-- How the loop ends: with all items passed, or at a candidate. -/
def Ends (s : Cache) (F B Q : ℕ → List Ptr) (id ntotal : ℕ) (R : List Ptr) (c : Option Ptr)
    (r : Result Scan) : Prop :=
  ∃ t kept rest, Scanning s t F B Q id R kept rest ∧
    ((c = none ∧ ∃ k search, r = .ok ⟨t, none, false, k, search⟩ ∧ (k = 0 ∨ search = none)) ∨
      ∃ p k l, c = some p ∧ rest = p :: l ∧ s.items.refcount p = 2 ∧
        r = (t.fetchAdd p).scanTake p (HashTable.hash (s.items.key p)) ntotal id (k + 1))

theorem tailScan_ends (hs : Stocked s F B Q) (hid : id ≤ Slab.POWER_LARGEST) (ntotal : ℕ)
    {l : List Ptr} {n tries : ℕ} (h : Scanning s t F B Q id R kept l)
    (hlocks : t.itemLocks = s.itemLocks) (hn : l.length ≤ n) :
    Ends s F B Q id ntotal (R ++ s.repairedIn tries l) (s.candidateIn tries l)
      (tailScan ntotal id n tries l.head? t) := by
  induction l generalizing n tries R kept t with
  | nil =>
    refine ⟨t, kept, [], ?_, .inl ⟨by simp [candidateIn, looksAt], tries, none, ?_, .inr rfl⟩⟩
    · simpa [repairedIn, looksAt] using h
    · cases tries <;> simp [tailScan]
  | cons p l ih =>
    obtain ⟨n, rfl⟩ : ∃ k, n = k + 1 := ⟨n - 1, by simp at hn; omega⟩
    have hn : l.length ≤ n := by simpa using hn
    cases tries with
    | zero =>
      refine ⟨t, kept, p :: l, ?_, .inl ⟨by simp [candidateIn, looksAt], 0, some p, ?_, .inl rfl⟩⟩
      · simpa [repairedIn, looksAt] using h
      · simp [tailScan]
    | succ tries =>
      by_cases hm : s.Marker p
      · have hlooks : s.looksAt (tries + 1) (p :: l) = s.looksAt (tries + 1) l := by
          simp [looksAt, hm]
        rw [List.head?_cons, h.tailScan_marker hlocks hm]
        unfold repairedIn candidateIn
        rw [hlooks]
        exact ih h.keep hlocks hn
      · have hlooks : s.looksAt (tries + 1) (p :: l) = p :: s.looksAt tries l := by
          simp [looksAt, hm]
        unfold repairedIn candidateIn
        rw [List.head?_cons, hlooks]
        cases hstop : s.stopsScan p with
        | false =>
          obtain ⟨t', kept', hrun, hlocks', ht'⟩ := h.tailScan_pass hs hid hlocks hm hstop ntotal n tries
          rw [hrun]
          have hend : Ends s F B Q id ntotal ((R ++ if s.overdue p then [p] else []) ++
              s.repairedIn tries l) (s.candidateIn tries l) _ := ih ht' hlocks' hn
          unfold repairedIn candidateIn at hend
          cases hover : s.overdue p <;> simpa [hstop, hover] using hend
        | true =>
          obtain ⟨u, hrun, hu⟩ := h.tailScan_stop hlocks hm hstop ntotal n tries
          refine ⟨u, kept, p :: l, by simpa [hstop] using hu, .inr ⟨p, tries, l, ?_, rfl, ?_, hrun⟩⟩
          · simp [hstop]
          · simp only [stopsScan, Bool.and_eq_true, beq_iff_eq] at hstop
            exact hstop.2

/-- `slabs_alloc` hands out a chunk that is in no list, and it writes to no item. -/
theorem slabsAlloc (h : Scanning s t F B Q id R kept rest) (hs : Stocked s F B Q) (size : ℕ)
    (h1 : 1 ≤ id) (h2 : id ≤ s.slab.powerLargest) :
    ∃ t' o F', t.slabsAlloc size id = .ok (t', o) ∧ (o.isSome = true ↔ s.slab.grants id) ∧
      t'.memSetting = s.memSetting ∧ Scanned t' F' B Q id R kept rest ∧
      ∀ it ∈ o, (∀ b, it ∉ B b) ∧ ∀ c, it ∉ F' c := by
  have hrep : SlabRep t.items t.slab F := by
    rw [h.slab]
    exact { hs.slab with
      chain := fun c => h.slab ▸ h.free c
      rest := fun c p hp => (h.refcount p (.inr ⟨c, hp⟩)).trans (hs.slab.rest c p hp) }
  have hgrant : s.slab.grants id ↔ t.slab.grants id := by rw [h.slab]
  obtain ⟨hno, hyes⟩ := doSlabsAlloc_spec hrep size h1 (h.slab ▸ h2)
  unfold Cache.slabsAlloc
  by_cases hok : s.slab.grants id
  · obtain ⟨m', b', F', it, hrun, ha⟩ := hyes (hgrant.mp hok)
    have hrun' : doSlabsAlloc (t.lock .slabs).items (t.lock .slabs).slab size id =
        .ok (m', b', some it) := hrun
    simp only [hrun', Result.ok_bind, Result.pure_eq]
    refine ⟨_, _, F', rfl, by simp [hok], h.memSetting, ?_, ?_⟩
    · refine h.toScanned.congr rfl rfl (fun b p hp => ?_) hs.chained ha.rep.chain
      obtain ⟨⟨j, hj⟩, hfree⟩ := hs.used b p hp
      exact (ha.used j p (h.slab ▸ hj) (hfree j)).1
    · intro q hq
      obtain rfl := Option.mem_some_iff.mp hq
      refine ⟨fun b hp => ?_, ha.notFree⟩
      obtain ⟨⟨j, hj⟩, hfree⟩ := hs.used b it hp
      exact hfree id (ha.wasFree j (h.slab ▸ hj))
  · obtain ⟨hempty, hpage⟩ := not_or.mp (mt hgrant.mpr hok)
    obtain ⟨b', hrun, hb⟩ := hno ⟨not_not.mp hempty, hpage⟩
    have hrun' : doSlabsAlloc (t.lock .slabs).items (t.lock .slabs).slab size id =
        .ok (t.items, b', none) := hrun
    simp only [hrun', Result.ok_bind, Result.pure_eq]
    refine ⟨_, _, F, rfl, by simp [hok], h.memSetting, ?_, by simp⟩
    refine h.toScanned.congr rfl rfl (fun b p hp => SameAt.refl _ p) hs.chained fun c => ?_
    show Chain t.items.next (b'.cls c).slots (F c)
    rw [hb.cls c]
    exact h.free c

/-- A candidate that stays is given back its counter and its lock. -/
theorem scanTake_keeps (h : Scanning s t F B Q id R kept (p :: rest)) (hs : Stocked s F B Q)
    (hexp : ¬s.Expired p) (hgrant : s.slab.grants id ∨ ¬s.memSetting.evictToFree)
    (h1 : 1 ≤ id) (h2 : id ≤ s.slab.powerLargest) (hv : UInt32) (ntotal k : ℕ) :
    ∃ t' o F' tried, (t.fetchAdd p).scanTake p hv ntotal id (k + 1) =
        .ok ⟨t', o, tried, k + 1, some p⟩ ∧ Scanned t' F' B Q id R (kept ++ [p]) rest ∧
      ∀ it ∈ o, (∀ b, it ∉ B b) ∧ ∀ c, it ∉ F' c := by
  have hpQ : p ∈ Q id := h.combed.rest_subset (List.mem_cons_self ..)
  have hadd : Scanning s (t.fetchAdd p) F B Q id R (kept ++ [p]) rest :=
    h.keep.setRefcount h.notRepaired.2 (hs.notFree hpQ) _
  have hexp : ¬((t.fetchAdd p).items.exptime p ≠ 0 ∧
      (t.fetchAdd p).items.exptime p < (t.fetchAdd p).clock) := by
    rw [hadd.exptime, hadd.clock]
    exact hexp
  obtain ⟨t', o, F', hrun, hsome, hset, ht', ho⟩ := hadd.slabsAlloc hs ntotal h1 h2
  have hgiven : Scanned ((t'.fetchSub p).itemTrylockUnlock hv) F' B Q id R (kept ++ [p]) rest :=
    { ht' with buckets := ht'.buckets.congr rfl fun _ _ _ => rfl }
  unfold scanTake
  simp only [if_neg hexp, hrun, Result.ok_bind]
  cases o with
  | some it => exact ⟨_, some it, F', false, rfl, hgiven, ho⟩
  | none =>
    have hkeep : ¬t'.memSetting.evictToFree = true := by
      rw [hset]
      exact hgrant.resolve_left fun hok => by simpa using hsome.mpr hok
    dsimp only
    rw [if_pos hkeep]
    exact ⟨_, none, F', true, rfl, hgiven, ho⟩

/-- A candidate that has expired, or for which no chunk is left, is taken over if the
scan comes to an end at all. -/
theorem scanTake_takes (h : Scanning s t F B Q id R kept (p :: rest)) (hs : Stocked s F B Q)
    (hexp : ¬s.Expired p → ¬s.slab.grants id ∧ s.memSetting.evictToFree = true)
    (h1 : 1 ≤ id) (h2 : id ≤ s.slab.powerLargest) {hv : UInt32} {ntotal k : ℕ} {r : Scan}
    (hr : (t.fetchAdd p).scanTake p hv ntotal id (k + 1) = .ok r) :
    r.it = some p ∧ r.tries = k + 1 ∧ r.search = some p := by
  have hpQ : p ∈ Q id := h.combed.rest_subset (List.mem_cons_self ..)
  have hadd : Scanning s (t.fetchAdd p) F B Q id R (kept ++ [p]) rest :=
    h.keep.setRefcount h.notRepaired.2 (hs.notFree hpQ) _
  have hiff : ((t.fetchAdd p).items.exptime p ≠ 0 ∧
      (t.fetchAdd p).items.exptime p < (t.fetchAdd p).clock) ↔ s.Expired p := by
    rw [hadd.exptime, hadd.clock]
    exact Iff.rfl
  unfold scanTake at hr
  simp only [hiff] at hr
  by_cases hexpired : s.Expired p
  · rw [if_pos hexpired] at hr
    obtain ⟨u, -, hu⟩ := Result.bind_eq_ok.mp hr
    obtain rfl := Except.ok.inj hu
    exact ⟨rfl, rfl, rfl⟩
  · obtain ⟨hno, hevict⟩ := hexp hexpired
    obtain ⟨t', o, F', hrun, hsome, hset, ht', ho⟩ := hadd.slabsAlloc hs ntotal h1 h2
    obtain rfl : o = none := by
      simpa using mt hsome.mp hno
    have hkeep : ¬¬t'.memSetting.evictToFree = true := by
      rw [hset]
      simpa using hevict
    simp only [if_neg hexpired, hrun, Result.ok_bind, if_neg hkeep] at hr
    split at hr
    · obtain ⟨u, -, hu⟩ := Result.bind_eq_ok.mp hr
      obtain rfl := Except.ok.inj hu
      exact ⟨rfl, rfl, rfl⟩
    · cases hr

end Scanning

namespace Stocked

variable {nkey : ℕ} {nbytes : ℤ}

/-- What `do_item_alloc` makes of a scan. -/
def finish (size id : ℕ) (scan : Scan) : Result (Cache × Option Ptr) := do
  let r ← if ¬scan.triedAlloc ∧ (scan.tries = 0 ∨ scan.search = none) then
      scan.cache.slabsAlloc size id
    else pure (scan.cache, scan.it)
  pure (r.1.unlock .cache, r.2)

theorem doItemAlloc_ends (hs : Stocked s F B Q) (hclsid : s.slab.slabsClsid (ntotal nkey nbytes) = id)
    (h0 : id ≠ 0) :
    ∃ r, Scanning.Ends s F B Q id (ntotal nkey nbytes) (s.repaired id) (s.candidate id) r ∧
      s.doItemAlloc nkey nbytes = r >>= finish (ntotal nkey nbytes) id := by
  have hle : id ≤ s.slab.powerLargest := hclsid ▸ s.slab.slabsClsid_le _
  have hstart := (hs.scanning id).relabel s.itemLocks (.lock .cache :: s.trace)
  have hlen : (Q id).reverse.length ≤ s.slab.chunkCount + 5 := by
    rw [List.length_reverse]
    exact (hs.length_le id).trans (Nat.le_add_right ..)
  have hends : Scanning.Ends s F B Q id (ntotal nkey nbytes) ([] ++ s.repairedIn 5 (Q id).reverse)
      (s.candidateIn 5 (Q id).reverse) _ :=
    hstart.tailScan_ends hs (hle.trans hs.slab.largest) (ntotal nkey nbytes) rfl hlen
  rw [List.nil_append, ← hs.fromTail_eq] at hends
  refine ⟨_, hends, ?_⟩
  unfold doItemAlloc
  simp only [← ntotal.eq_1, hclsid]
  rw [if_neg h0, hs.fromTail_eq, ← (hs.lists id).backward.start_eq]
  rfl

/-- Where no item is taken over, the scan leaves its mark and nothing else happens. -/
theorem alloc_of_takesNone (hs : Stocked s F B Q)
    (hclsid : s.slab.slabsClsid (ntotal nkey nbytes) = id) (h0 : id ≠ 0) (htakes : s.TakesNone id) :
    ∃ s' o F' kept rest, s.doItemAlloc nkey nbytes = .ok (s', o) ∧
      Scanned s' F' B Q id (s.repaired id) kept rest ∧
      ∀ it ∈ o, (∀ b, it ∉ B b) ∧ ∀ c, it ∉ F' c := by
  have h1 : 1 ≤ id := Nat.one_le_iff_ne_zero.mpr h0
  have h2 : id ≤ s.slab.powerLargest := hclsid ▸ s.slab.slabsClsid_le _
  obtain ⟨r, ⟨t, kept, rest, ht, hend⟩, hrun⟩ := hs.doItemAlloc_ends hclsid h0
  rw [hrun]
  rcases hend with ⟨-, k, search, rfl, hover⟩ | ⟨p, k, l, hc, rfl, -, rfl⟩
  · obtain ⟨t', o, F', halloc, -, -, ht', ho⟩ := ht.slabsAlloc hs (ntotal nkey nbytes) h1 h2
    refine ⟨t'.unlock .cache, o, F', kept, rest, ?_, { ht' with }, ho⟩
    unfold finish
    simp only [Result.ok_bind]
    rw [if_pos (by simpa using hover), halloc]
    rfl
  · obtain ⟨hexp, hgrant⟩ := htakes p hc
    obtain ⟨t', o, F', tried, hscan, ht', ho⟩ := ht.scanTake_keeps hs hexp hgrant h1 h2
      (HashTable.hash (s.items.key p)) (ntotal nkey nbytes) k
    refine ⟨t'.unlock .cache, o, F', kept ++ [p], l, ?_, { ht' with }, ho⟩
    rw [hscan]
    unfold finish
    simp only [Result.ok_bind]
    rw [if_neg (by simp)]
    rfl

/-- Otherwise an item of the list is taken over while it has a second reference. -/
theorem alloc_of_takes (hs : Stocked s F B Q)
    (hclsid : s.slab.slabsClsid (ntotal nkey nbytes) = id) (h0 : id ≠ 0) (htakes : ¬s.TakesNone id) :
    ∃ p ∈ Q id, s.items.refcount p = 2 ∧
      ∀ s' o, s.doItemAlloc nkey nbytes = .ok (s', o) → o = some p := by
  have h1 : 1 ≤ id := Nat.one_le_iff_ne_zero.mpr h0
  have h2 : id ≤ s.slab.powerLargest := hclsid ▸ s.slab.slabsClsid_le _
  obtain ⟨r, ⟨t, kept, rest, ht, hend⟩, hrun⟩ := hs.doItemAlloc_ends hclsid h0
  rcases hend with ⟨hc, -⟩ | ⟨p, k, l, hc, rfl, hcount, rfl⟩
  · refine absurd (fun p hp => ?_) htakes
    rw [hc] at hp
    cases hp
  · refine ⟨p, ht.combed.rest_subset (List.mem_cons_self ..), hcount, fun s' o hs' => ?_⟩
    have hexp : ¬s.Expired p → ¬s.slab.grants id ∧ s.memSetting.evictToFree = true := by
      intro hexp
      by_contra hnot
      refine htakes fun q hq => ?_
      obtain rfl : p = q := Option.some.inj (hc.symm.trans hq)
      refine ⟨hexp, ?_⟩
      by_contra hboth
      exact hnot (by simpa using hboth)
    rw [hrun] at hs'
    obtain ⟨scan, hscan, hfin⟩ := Result.bind_eq_ok.mp hs'
    obtain ⟨hit, htries, hsearch⟩ := ht.scanTake_takes hs hexp h1 h2 hscan
    unfold finish at hfin
    rw [if_neg (by simp [htries, hsearch])] at hfin
    have hpair := Except.ok.inj hfin
    rw [← hit]
    exact (congrArg Prod.snd hpair).symm

/-- A linked item is on the list of its class. -/
theorem mem_of_linked (hs : Stocked s F B Q) (hp : s.Linked p) :
    p ∈ Q (s.items.slabsClsid p).toNat :=
  ((hs.lists _).forward.reach_iff p).mp hp.next

end Stocked

end Scan

/-! ### A stocked server -/

namespace Stocked

variable {s : Cache} {F B Q : ℕ → List Ptr} {it : Ptr}

/-- A server that starts. -/
theorem init {limit : ℕ} {set : Settings} {mallocOk : ℕ → Bool} {hashpower : ℕ}
    (h : Cache.init limit set mallocOk hashpower = some s) :
    ∃ F, Stocked s F (fun _ => []) fun _ => [] := by
  obtain ⟨F, hsound, -⟩ := Sound.init h
  obtain ⟨r, -, rfl⟩ := Option.map_eq_some_iff.mp h
  exact ⟨F, hsound.slab, hsound.buckets, fun _ => ⟨rfl, rfl⟩, by simp, by simp, by simp, by simp⟩

theorem mem_update_cons {L : ℕ → List Ptr} {c j : ℕ} {p : Ptr} :
    p ∈ Function.update L c (it :: L c) j ↔ p = it ∧ j = c ∨ p ∈ L j := by
  by_cases hj : j = c
  · subst hj
    simp
  · simp [hj]

/-- `do_item_link` of a chunk that was handed out. -/
theorem link (hs : Stocked s F B Q) (hle : (s.items.slabsClsid it).toNat ≤ Slab.POWER_LARGEST)
    (hflag : s.items.itemFlag it &&& (Slab.ITEM_LINKED ||| Slab.ITEM_SLABBED) = 0)
    (hchunk : ∃ id, it ∈ (s.slab.cls id).chunks) (hfree : ∀ j, it ∉ F j) (hnew : ∀ b, it ∉ B b)
    (hkey : ∀ b, ∀ p ∈ B b, s.items.key p ≠ s.items.key it) :
    ∃ B' Q', Stocked (s.doItemLink it (HashTable.hash (s.items.key it))).1 F B' Q' := by
  obtain ⟨c, hc⟩ : ∃ c, (s.items.slabsClsid it).toNat = c := ⟨_, rfl⟩
  have hQ : ∀ j, it ∉ Q j := by
    intro j hj
    obtain ⟨b, hb⟩ := hs.chained j it hj
    exact hnew b hb
  have hslab := (flags_clear hflag).2
  have hlink := itemLinkQ_eq hc hslab (hc ▸ hle) (fun e => hQ c ((hs.lists c).mem_of_head e))
    (hs.lists c).isSome_eq
  rw [doItemLink_eq _ hflag]
  set s' := s.linked it (HashTable.hash (s.items.key it))
  set b₀ := s.hashtable.bucket (HashTable.hash (s.items.key it))
  have hnext : s'.items.next = Function.update s.items.next it (s.lru.heads c) := by
    show (MiniMemcached.itemLinkQ s.items s.lru it).1.next = _
    rw [hlink]
  have hprev : s'.items.prev = fun p =>
      if s.lru.heads c = some p then some it else Function.update s.items.prev it none p := by
    show (MiniMemcached.itemLinkQ s.items s.lru it).1.prev = _
    rw [hlink]
  have hslots : s'.lru.heads = Function.update s.lru.heads c (some it) ∧
      s'.lru.tails = Function.update s.lru.tails c
        (if s.lru.tails c = none then some it else s.lru.tails c) := by
    show (MiniMemcached.itemLinkQ s.items s.lru it).2.heads = _ ∧
      (MiniMemcached.itemLinkQ s.items s.lru it).2.tails = _
    rw [hlink]
    exact ⟨rfl, rfl⟩
  refine ⟨Function.update B b₀ (it :: B b₀), Function.update Q c (it :: Q c), ?_,
    (hs.buckets.insert hnew hkey).congr rfl fun _ _ _ => rfl, fun j => ?_, fun j p hp => ?_,
    fun j p hp => ?_, fun j p hp => ?_, fun b p hp => ?_⟩
  · refine hs.slab.congr (fun j p hp => ?_) fun j p hp => ?_
    · rw [hnext]
      exact Function.update_of_ne (ne_of_mem_of_not_mem hp (hfree j)) _ _
    · exact Function.update_of_ne (ne_of_mem_of_not_mem hp (hfree j)) _ _
  · rw [hnext, hprev, hslots.1, hslots.2]
    by_cases hj : j = c
    · subst hj
      simpa only [Function.update_self] using (hs.lists j).push (hQ j)
    · simp only [Function.update_of_ne hj]
      refine (hs.lists j).congr (fun p hp => ?_) fun p hp => ?_
      · exact Function.update_of_ne (ne_of_mem_of_not_mem hp (hQ j)) _ _
      · have hhead : s.lru.heads c ≠ some p := fun e => hj (by
          rw [← hs.home j p hp, hs.home c p ((hs.lists c).mem_of_head e)])
        rw [if_neg hhead, Function.update_of_ne (ne_of_mem_of_not_mem hp (hQ j))]
  · rcases mem_update_cons.mp hp with ⟨rfl, rfl⟩ | hp
    · exact hc
    · exact hs.home j p hp
  · rcases mem_update_cons.mp hp with ⟨rfl, rfl⟩ | hp
    · show Function.update s.items.itemFlag p _ p &&& _ ≠ 0 ∧
        Function.update s.items.itemFlag p _ p &&& _ = 0
      rw [Function.update_self]
      exact ⟨setLinked_linked _, by rw [setLinked_slabbed, hslab]⟩
    · show Function.update s.items.itemFlag it _ p &&& _ ≠ 0 ∧
        Function.update s.items.itemFlag it _ p &&& _ = 0
      rw [Function.update_of_ne (ne_of_mem_of_not_mem hp (hQ j))]
      exact hs.flag j p hp
  · rcases mem_update_cons.mp hp with ⟨rfl, rfl⟩ | hp
    · exact ⟨b₀, mem_update_cons.mpr (.inl ⟨rfl, rfl⟩)⟩
    · obtain ⟨b, hb⟩ := hs.chained j p hp
      exact ⟨b, mem_update_cons.mpr (.inr hb)⟩
  · rcases mem_update_cons.mp hp with ⟨rfl, rfl⟩ | hp
    · exact ⟨hchunk, hfree⟩
    · exact hs.used b p hp

end Stocked

/-- A chunk of class `id` is handed out, filled and linked, and its counter is `refs`. -/
def stock (s : Cache) (id : ℕ) (refs : UInt32) : Option Cache :=
  match doSlabsAlloc s.items s.slab 0 id with
  | .ok (m, b, some it) =>
    let m := ((m.setClsid it (UInt8.ofNat id)).setFlag it 0).setNkey it 1
    let s := (({ s with items := m, slab := b } : Cache).doItemLink it (HashTable.hash (m.key it))).1
    some { s with items := s.items.setRefcount it refs }
  | _ => none

theorem exists_stocked {limit : ℕ} {set : Settings} {mallocOk : ℕ → Bool} {hashpower : ℕ}
    {s s' : Cache} (hinit : Cache.init limit set mallocOk hashpower = some s) {id : ℕ} {refs : UInt32}
    (h1 : 1 ≤ id) (h2 : id ≤ s.slab.powerLargest) (hs' : s.stock id refs = some s') :
    ∃ F B Q, Stocked s' F B Q := by
  obtain ⟨F, hs⟩ := Stocked.init hinit
  have hid : id ≤ Slab.POWER_LARGEST := h2.trans hs.slab.largest
  obtain ⟨hno, hyes⟩ := doSlabsAlloc_spec hs.slab 0 h1 h2
  unfold stock at hs'
  by_cases hok : s.slab.grants id
  · obtain ⟨m, b, F', it, hrun, ha⟩ := hyes hok
    simp only [hrun, Option.some.injEq] at hs'
    set m' := ((m.setClsid it (UInt8.ofNat id)).setFlag it 0).setNkey it 1
    have ht : Stocked { s with items := m', slab := b } F' (fun _ => []) fun _ => [] :=
      ⟨ha.rep.congr (fun _ _ _ => rfl) fun _ _ _ => rfl,
        ⟨fun j => hs.buckets.chain j, by simp, by simp⟩,
        fun c => ⟨(hs.lists c).forward, (hs.lists c).backward⟩, by simp, by simp, by simp, by simp⟩
    have hclsid : (m'.slabsClsid it).toNat = id := by
      simp [m', Items.setNkey, Items.setFlag, Items.setClsid]
      unfold Slab.POWER_LARGEST at hid
      omega
    have hflag : m'.itemFlag it = 0 := by
      simp [m', Items.setNkey, Items.setFlag]
    have hclear : m'.itemFlag it &&& (Slab.ITEM_LINKED ||| Slab.ITEM_SLABBED) = 0 := by
      simp [hflag]
    obtain ⟨B, Q, hlinked⟩ := ht.link (hclsid.trans_le hid) hclear ⟨id, ha.mem_chunks⟩ ha.notFree
      (by simp) (by simp)
    refine ⟨F', B, Q, ?_⟩
    rw [← hs']
    exact { hlinked with
      slab := hlinked.slab.congr (fun _ _ _ => rfl) fun c p hp =>
        Function.update_of_ne (ne_of_mem_of_not_mem hp (ha.notFree c)) _ _
      buckets := hlinked.buckets.congr rfl fun _ _ _ => rfl }
  · obtain ⟨hempty, hpage⟩ := not_or.mp hok
    obtain ⟨b, hrun, -⟩ := hno ⟨not_not.mp hempty, hpage⟩
    simp [hrun] at hs'

theorem exists_of_stock {limit : ℕ} {refs : UInt32} {p : Cache → Bool}
    (h : (Cache.init limit .twoChunks (fun _ => true) 0).any (fun s =>
      decide (2 ≤ s.slab.powerLargest) && (s.stock 2 refs).any p) = true) :
    ∃ s F B Q, Stocked s F B Q ∧ p s = true := by
  obtain ⟨s, hinit, h⟩ := (Option.any_eq_true _ _).mp h
  obtain ⟨hle, hstock⟩ := (Bool.and_eq_true _ _).mp h
  obtain ⟨s', hs', hp⟩ := (Option.any_eq_true _ _).mp hstock
  obtain ⟨F, B, Q, h⟩ := exists_stocked hinit (by omega : 1 ≤ 2) (of_decide_eq_true hle) hs'
  exact ⟨s', F, B, Q, h, hp⟩

/-! ### Safety -/

/-- `do_item_alloc` is safe exactly where it takes no item over and repairs no item in
front of others. -/
theorem allocSafe_iff {s : Cache} {F B Q : ℕ → List Ptr} (hs : Stocked s F B Q) (nkey : ℕ)
    (nbytes : ℤ) :
    s.AllocSafe nkey nbytes ↔
      s.slab.slabsClsid (ntotal nkey nbytes) = 0 ∨
        s.TakesNone (s.slab.slabsClsid (ntotal nkey nbytes)) ∧
          s.RepairsWhole (s.slab.slabsClsid (ntotal nkey nbytes)) := by
  unfold AllocSafe
  obtain ⟨id, hid⟩ : ∃ id, s.slab.slabsClsid (ntotal nkey nbytes) = id := ⟨_, rfl⟩
  rw [hid]
  by_cases h0 : id = 0
  · refine iff_of_true ⟨s, none, ?_, by simp, by simp, fun p hp _ _ => hp⟩ (.inl h0)
    unfold doItemAlloc
    simp only [← ntotal.eq_1, hid]
    rw [if_pos h0]
    rfl
  rw [or_iff_right h0]
  by_cases htakes : s.TakesNone id
  · obtain ⟨s', o, F', kept, rest, hrun, hscan, ho⟩ := hs.alloc_of_takesNone hid h0 htakes
    have hnot : ∀ it ∈ o, ∀ c, it ∉ Q c := by
      intro it hit c hq
      obtain ⟨b, hb⟩ := hs.chained c it hq
      exact (ho it hit).1 b hb
    constructor
    · rintro ⟨t', o', hrun', -, -, hall⟩
      obtain ⟨rfl, rfl⟩ : s' = t' ∧ o = o' := by
        rw [hrun] at hrun'
        exact Prod.mk.inj (Except.ok.inj hrun')
      refine ⟨htakes, fun b p hhead hp q hreach hq => ?_⟩
      by_contra hqR
      have hqQ := hs.mem_of_linked hq
      -- the item behind the first one of the bucket is lost
      obtain ⟨j, hj⟩ := (hscan.linked_iff hqQ hqR).mp
        (hall q hq (fun hqo => hnot q hqo _ hqQ) hqR)
      obtain ⟨hfirst, hqj, -⟩ := mem_swept.mp hj
      have hqb : q ∈ B b := by
        rw [← hhead] at hreach
        exact ((hs.buckets.chain b).reach_iff q).mp hreach
      obtain rfl := hs.buckets.bucket_unique hqj hqb
      refine hfirst p ?_ hp
      rw [← (hs.buckets.chain j).start_eq]
      exact hhead
    · rintro ⟨-, hwhole⟩
      refine ⟨s', o, hrun, fun it hit hon => ?_, fun it hit => ?_, fun q hq _ hqR => ?_⟩
      · obtain ⟨c, hreach⟩ := hon
        have hmem := ((hs.lists c).backward.reach_iff it).mp hreach
        exact absurd (List.mem_reverse.mp hmem) (hnot it hit c)
      · exact hscan.detached (ho it hit).1 (hnot it hit) (ho it hit).2
      · have hqQ := hs.mem_of_linked hq
        obtain ⟨b, hb⟩ := hs.chained _ q hqQ
        refine (hscan.linked_iff hqQ hqR).mpr ⟨b, mem_swept.mpr ⟨fun p hp hpR => ?_, hb, hqR⟩⟩
        rw [← (hs.buckets.chain b).start_eq] at hp
        refine hqR (hwhole b p hp hpR q ?_ hq)
        rw [← Option.mem_def.mp hp]
        exact ((hs.buckets.chain b).reach_iff q).mpr hb
  · obtain ⟨p, hpQ, hcount, hall⟩ := hs.alloc_of_takes hid h0 htakes
    refine iff_of_false ?_ fun h => htakes h.1
    rintro ⟨s', o, hrun, honly, -⟩
    obtain rfl := hall s' o hrun
    have hreach : Reach s.items.prev (s.lru.tails id) p :=
      ((hs.lists id).backward.reach_iff p).mpr (List.mem_reverse.mpr hpQ)
    have hone := honly p rfl ⟨id, hreach⟩
    rw [hcount] at hone
    exact absurd hone (by decide)

/-- The item of the class has the reference of its link only, and a chunk is left. -/
theorem allocSafe_stocked : ∃ s F B Q, Stocked s F B Q ∧ s.fromTail 2 ≠ [] ∧ s.AllocSafe 1 60 := by
  have htrial : (Cache.init 0 .twoChunks (fun _ => true) 0).any (fun s =>
      decide (2 ≤ s.slab.powerLargest) && (s.stock 2 1).any fun s =>
        decide (s.fromTail 2 ≠ [] ∧ s.slab.slabsClsid (ntotal 1 60) = 2 ∧ s.candidate 2 = none ∧
          s.repaired 2 = [])) = true := by decide +kernel
  obtain ⟨s, F, B, Q, hs, hp⟩ := exists_of_stock htrial
  obtain ⟨htail, hclsid, hnone, hrepaired⟩ := of_decide_eq_true hp
  refine ⟨s, F, B, Q, hs, htail, (allocSafe_iff hs 1 60).mpr (.inr ?_)⟩
  rw [hclsid]
  refine ⟨fun p hp => ?_, fun b p _ hp => ?_⟩
  · rw [hnone] at hp
    cases hp
  · rw [hrepaired] at hp
    cases hp

/-- The only chunk of the class holds an item without a time limit that has a second
reference: the scan ends at it, and `it` is read while it is null. -/
theorem not_allocSafe_held : ∃ s F B Q, Stocked s F B Q ∧ ¬s.AllocSafe 1 60 := by
  have htrial : (Cache.init 1 .twoChunks (fun _ => true) 0).any (fun s =>
      decide (2 ≤ s.slab.powerLargest) && (s.stock 2 2).any fun s =>
        decide ((s.doItemAlloc 1 60).toOption.isNone)) = true := by decide +kernel
  obtain ⟨s, F, B, Q, hs, hp⟩ := exists_of_stock htrial
  have hnone : (s.doItemAlloc 1 60).toOption.isNone := of_decide_eq_true hp
  refine ⟨s, F, B, Q, hs, ?_⟩
  rintro ⟨s', o, hrun, -⟩
  rw [hrun] at hnone
  cases hnone

end Cache

end MiniMemcached
