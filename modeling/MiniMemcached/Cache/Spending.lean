import Mathlib.Algebra.BigOperators.Fin
import Mathlib.Algebra.BigOperators.Ring.Finset
import Mathlib.Algebra.Order.BigOperators.Group.Finset
import MiniMemcached.Cache.Accounting
import MiniMemcached.Cache.CommandPaths
import MiniMemcached.Cache.SizeClasses

/-! What the commands do to the slab allocator: each calls `do_slabs_alloc` at most
once, and nothing ever comes back. `do_item_remove` only frees an item whose counter it
found at 0, and then the counter has just wrapped around, which `item_free` takes for a
reference. -/

namespace MiniMemcached

open Runs

theorem WellSized.congr {b b' : Slab} {M : ℕ} (h : WellSized b M) (htable : b.SameTable b') :
    WellSized b' M where
  powerLargest_pos := htable.powerLargest ▸ h.powerLargest_pos
  powerLargest_lt := htable.powerLargest ▸ h.powerLargest_lt
  length := by rw [htable.length, htable.powerLargest, h.length]
  increasing i j h1 hij hj := by
    rw [htable.size, htable.size]
    exact h.increasing i j h1 hij (htable.powerLargest ▸ hj)
  aligned i h1 hi := by
    rw [htable.size]
    exact h.aligned i h1 (htable.powerLargest ▸ hi)
  largest := by rw [htable.powerLargest, htable.size, h.largest]
  perslab i h1 hi := by
    rw [htable.size, htable.perslab]
    exact h.perslab i h1 (htable.powerLargest ▸ hi)

namespace Slab

variable {b b' : Slab} {id : ℕ}

theorem SameTable.clsidFrom (h : SameTable b b') (size n res : ℕ) :
    b'.clsidFrom size n res = b.clsidFrom size n res := by
  induction n generalizing res with
  | zero => rfl
  | succ n ih => rw [Slab.clsidFrom, Slab.clsidFrom, h.size, h.powerLargest, ih]

/-- The sizes of the classes decide which class an item gets. -/
theorem SameTable.slabsClsid (h : SameTable b b') (size : ℕ) : b'.slabsClsid size = b.slabsClsid size := by
  unfold Slab.slabsClsid
  rw [h.clsidFrom, h.powerLargest]

/-- The freelist of the class is empty, and it gets no further page: the limit does not allow
it, or the class has all the pages it can list. -/
structure Exhausted (b : Slab) (id : ℕ) : Prop where
  empty : (b.cls id).slCurr = 0
  listed : (b.cls id).Listed
  page : (b.memLimit ≠ 0 ∧ b.memLimit < b.memMalloced + (b.cls id).size * (b.cls id).perslab ∧
    0 < (b.cls id).slabs.toNat) ∨ (b.cls id).slabs.toNat = 2 ^ 31

theorem Exhausted.not_newslabOk (h : b.Exhausted id) : ¬b.newslabOk id := by
  rintro ⟨hlimit, hmalloc⟩
  rcases h.page with ⟨hlimited, hbeyond, hpaged⟩ | hfull
  · exact hlimit ⟨hlimited, hbeyond, UInt32.lt_iff_toNat_lt.mpr hpaged⟩
  · have hroom := h.listed.room
    have hle := h.listed.listSize_le
    have hsize : (b.cls id).listSize.toNat = 2 ^ 31 := by omega
    rw [if_pos (UInt32.toNat_inj.mp (hfull.trans hsize.symm))] at hmalloc
    exact hmalloc.1 (h.listed.grownSize_eq_zero_iff.mpr hsize)

theorem Exhausted.not_grants (h : b.Exhausted id) : ¬b.grants id := fun hgrants =>
  hgrants.elim (absurd h.empty) h.not_newslabOk

/-- While `malloc` gives what it is asked for, nothing but the limit and the list of the
pages refuses a chunk. -/
theorem exhausted_of_not_grants (hlisted : (b.cls id).Listed) (hmalloc : ∀ n, b.mallocOk n = true)
    (h : ¬b.grants id) : b.Exhausted id := by
  obtain ⟨hempty, hpage⟩ := not_or.mp h
  refine ⟨not_not.mp hempty, hlisted, ?_⟩
  by_contra hno
  obtain ⟨hlimit, hslabs⟩ := not_or.mp hno
  refine hpage ⟨fun hlim => hlimit ⟨hlim.1, hlim.2.1, UInt32.lt_iff_toNat_lt.mp hlim.2.2⟩, ?_⟩
  simp only [hmalloc, and_true]
  split_ifs with hfull
  exact fun hgrown => hslabs (hfull ▸ hlisted.grownSize_eq_zero_iff.mp hgrown)

/-- What a call for a chunk of class `id` leaves: other freelists keep their length, and
no page goes back. -/
structure Reserved (b b' : Slab) (id : ℕ) : Prop where
  table : SameTable b b'
  malloced : b.memMalloced ≤ b'.memMalloced
  free : ∀ j, j ≠ id → (b'.cls j).slCurr = (b.cls j).slCurr
  listed : ∀ j, (b.cls j).Listed → (b'.cls j).Listed
  slabs : ∀ j, (b.cls j).Listed → (b.cls j).slabs.toNat ≤ (b'.cls j).slabs.toNat

theorem Reserved.refl (b : Slab) (id : ℕ) : Reserved b b id :=
  ⟨.refl b, le_rfl, fun _ _ => rfl, fun _ h => h, fun _ _ => le_rfl⟩

theorem Reserved.trans {b₁ b₂ : Slab} (h₁ : Reserved b b₁ id) (h₂ : Reserved b₁ b₂ id) : Reserved b b₂ id :=
  ⟨h₁.table.trans h₂.table, h₁.malloced.trans h₂.malloced, fun j hj => (h₂.free j hj).trans (h₁.free j hj),
    fun j h => h₂.listed j (h₁.listed j h), fun j h => (h₁.slabs j h).trans (h₂.slabs j (h₁.listed j h))⟩

theorem Reserved.popSlot (hid : id < b.memBase.length) {m m' : Items} {size : ℕ} {r : Option Ptr}
    (hrun : popSlot m b size id = .ok (m', b', r)) : Reserved b b' id := by
  unfold MiniMemcached.popSlot at hrun
  extract_lets p at hrun
  split at hrun
  · cases hrun
  · cases hrun
    refine ⟨.setCls hid rfl rfl, le_rfl, fun j hj => by rw [cls_setCls_of_ne hj],
      fun j h => ?_, fun j _ => ?_⟩
    · by_cases hj : j = id
      · subst hj
        rw [cls_setCls_self hid]
        exact h.congr rfl rfl rfl rfl
      · rwa [cls_setCls_of_ne hj]
    · by_cases hj : j = id
      · subst hj
        rw [cls_setCls_self hid]
      · rw [cls_setCls_of_ne hj]

theorem Reserved.newslab {m m' : Items} {F : ℕ → List Ptr} (hrep : SlabRep m b F) (h1 : 1 ≤ id)
    (h2 : id ≤ b.powerLargest) {ok : Bool} (hrun : doSlabsNewslab m b id = (m', b', ok)) :
    Reserved b b' id := by
  obtain ⟨hno, hyes⟩ := doSlabsNewslab_spec hrep h1 h2
  by_cases hok : b.newslabOk id
  · obtain ⟨m₁, b₁, page, slots, hnew, hcarved, -⟩ := hyes hok
    rw [hnew] at hrun
    cases hrun
    refine ⟨hcarved.table, ?_, fun j hj => by rw [hcarved.cls_of_ne j hj], hcarved.listed, fun j h => ?_⟩
    · rw [hcarved.malloced]
      exact Nat.le_add_right _ _
    · rw [← h.length, ← (hcarved.listed j h).length, hcarved.slabList]
      split_ifs with hj
      · rw [hj, List.length_append]
        exact Nat.le_add_right _ _
      · exact le_rfl
  · obtain ⟨b₁, hnew, hcarved⟩ := hno hok
    rw [hnew] at hrun
    cases hrun
    exact ⟨hcarved.table, hcarved.malloced.ge, fun j _ => by rw [hcarved.cls j], hcarved.listed,
      fun j _ => by rw [hcarved.cls j]⟩

theorem Reserved.alloc {m m' : Items} {F : ℕ → List Ptr} (hrep : SlabRep m b F) (h1 : 1 ≤ id)
    (h2 : id ≤ b.powerLargest) {size : ℕ} {r : Option Ptr}
    (hrun : doSlabsAlloc m b size id = .ok (m', b', r)) : Reserved b b' id := by
  unfold doSlabsAlloc at hrun
  split_ifs at hrun
  · cases hrun
    exact .refl b id
  · exact .popSlot (hrep.id_lt h2) hrun
  · rcases hnew : doSlabsNewslab m b id with ⟨m₁, b₁, ok⟩
    rw [hnew] at hrun
    have h₁ := Reserved.newslab hrep h1 h2 hnew
    cases ok with
    | false =>
      cases hrun
      exact h₁
    | true =>
      have hid₁ : id < b₁.memBase.length := by
        rw [h₁.table.length]
        exact hrep.id_lt h2
      dsimp only at hrun
      split_ifs at hrun
      · exact h₁.trans (.popSlot hid₁ hrun)
      · cases hrun
        exact h₁

/-- An exhausted class stays so, whichever class a chunk is asked of. -/
theorem Exhausted.alloc (h : b.Exhausted id) {m m' : Items} {F : ℕ → List Ptr} (hrep : SlabRep m b F)
    {j : ℕ} (h1 : 1 ≤ j) (h2 : j ≤ b.powerLargest) {size : ℕ} {r : Option Ptr}
    (hrun : doSlabsAlloc m b size j = .ok (m', b', r)) : b'.Exhausted id := by
  have hreserved := Reserved.alloc hrep h1 h2 hrun
  have hempty : (b'.cls id).slCurr = 0 := by
    by_cases hj : id = j
    · subst hj
      obtain ⟨b₁, hnone, hcarved⟩ := (doSlabsAlloc_spec hrep size h1 h2).1 ⟨h.empty, h.not_newslabOk⟩
      rw [hnone] at hrun
      cases hrun
      rw [hcarved.cls id]
      exact h.empty
    · rw [hreserved.free id hj]
      exact h.empty
  have hlisted := hreserved.listed id h.listed
  have hslabs := hreserved.slabs id h.listed
  refine ⟨hempty, hlisted, ?_⟩
  rcases h.page with ⟨hlimited, hbeyond, hpaged⟩ | hfull
  · rw [hreserved.table.memLimit, hreserved.table.size, hreserved.table.perslab]
    exact .inl ⟨hlimited, hbeyond.trans_le (Nat.add_le_add_right hreserved.malloced _),
      hpaged.trans_le hslabs⟩
  · exact .inr (le_antisymm (hlisted.room.trans hlisted.listSize_le) (hfull ▸ hslabs))

variable {m : Items} {F : ℕ → List Ptr} {M : ℕ}

theorem chunkCount_eq (h : SlabRep m b F) :
    b.chunkCount = ∑ id ∈ Finset.Icc 1 b.powerLargest, (b.cls id).slabs.toNat * (b.cls id).perslab := by
  have hfirst : (b.cls 0).slabs.toNat = 0 := by rw [← h.slabs 0, h.unused, List.length_nil]
  have hrange : b.chunkCount =
      ∑ id ∈ Finset.range (b.powerLargest + 1), (b.cls id).slabs.toNat * (b.cls id).perslab := by
    rw [← h.length, ← Fin.sum_univ_eq_sum_range, chunkCount, ← Fin.sum_univ_fun_getElem]
    refine Finset.sum_congr rfl fun i _ => ?_
    rw [WellSized.getElem_eq i.isLt]
  rw [hrange, Finset.range_eq_Ico, Finset.sum_eq_sum_Ico_succ_bot (Nat.succ_pos _), hfirst, Nat.zero_mul,
    Nat.zero_add]
  rfl

/-- Every chunk is paid for at the size of the smallest class at least. -/
theorem chunkCount_mul_le (h : SlabRep m b F) (hwell : WellSized b M) :
    b.chunkCount * (b.cls 1).size ≤ b.pagesTotal := by
  rw [chunkCount_eq h, Finset.sum_mul, pagesTotal]
  refine Finset.sum_le_sum fun id hid => ?_
  obtain ⟨h1, h2⟩ := Finset.mem_Icc.mp hid
  have hsize : (b.cls 1).size ≤ (b.cls id).size := by
    rcases Nat.eq_or_lt_of_le h1 with rfl | hlt
    · exact le_rfl
    · exact (hwell.increasing 1 id le_rfl hlt h2).le
  calc (b.cls id).slabs.toNat * (b.cls id).perslab * (b.cls 1).size
      ≤ (b.cls id).slabs.toNat * (b.cls id).perslab * (b.cls id).size := Nat.mul_le_mul_left _ hsize
    _ = (b.cls id).slabs.toNat * (b.cls id).size * (b.cls id).perslab := by ring

theorem firstPages_le (hwell : WellSized b M) : b.firstPages ≤ b.powerLargest * M := by
  have hcard : ((Finset.Icc 1 b.powerLargest).filter fun id => 0 < (b.cls id).slabs.toNat).card ≤
    b.powerLargest := by
    refine (Finset.card_filter_le _ _).trans ?_
    simp
  refine (Finset.sum_le_card_nsmul _ _ M fun id hid => ?_).trans ?_
  · obtain ⟨h1, h2⟩ := Finset.mem_Icc.mp (Finset.mem_filter.mp hid).1
    exact (hwell.perslab id h1 h2).2
  · exact Nat.mul_le_mul_right _ hcard

end Slab

/-- The allocator before and after at most one call of `do_slabs_alloc`. -/
def Slab.Spent (b b' : Slab) : Prop :=
  b' = b ∨ ∃ m F m' size id r, SlabRep m b F ∧ 1 ≤ id ∧ id ≤ b.powerLargest ∧
    doSlabsAlloc m b size id = .ok (m', b', r)

theorem Slab.Spent.table {b b' : Slab} (h : b.Spent b') : b.SameTable b' := by
  rcases h with rfl | ⟨m, F, m', size, id, r, hrep, h1, h2, hrun⟩
  · exact .refl b'
  · exact (Slab.Reserved.alloc hrep h1 h2 hrun).table

theorem Slab.Spent.exhausted {b b' : Slab} (h : b.Spent b') {id : ℕ} (hid : b.Exhausted id) :
    b'.Exhausted id := by
  rcases h with rfl | ⟨m, F, m', size, j, r, hrep, h1, h2, hrun⟩
  · exact hid
  · exact hid.alloc hrep h1 h2 hrun

theorem Slab.Spent.accounted {b b' : Slab} (h : b.Spent b') (hb : b.Accounted) : b'.Accounted := by
  rcases h with rfl | ⟨m, F, m', size, id, r, hrep, h1, h2, hrun⟩
  · exact hb
  · exact hb.alloc hrep h1 h2 hrun

namespace Cache

variable {s s' : Cache} {it : Ptr} {hv : UInt32} {key : List UInt8}

theorem doItemRemove_slab (s : Cache) (it : Ptr) : (s.doItemRemove it).slab = s.slab := by
  unfold doItemRemove
  split_ifs with hslabbed hzero
  · rfl
  · -- the counter is 2^32 - 1 when `item_free` looks at it
    have hwrapped : (s.fetchSub it).items.refcount it ≠ 0 := by
      simp [fetchSub, emit, Items.setRefcount, hzero]
    unfold itemFree
    rw [if_pos fun h => hwrapped h.2.2.2]
    rfl
  · rfl

theorem doItemUnlink_slab (h : s.doItemUnlink it hv = .ok s') : s'.slab = s.slab := by
  unfold doItemUnlink doItemUnlinkNolock at h
  obtain ⟨s₁, h₁, h⟩ := Result.bind_eq_ok.mp h
  cases h
  split_ifs at h₁
  · obtain ⟨s₂, h₂, h₁⟩ := Result.bind_eq_ok.mp h₁
    obtain ⟨r, -, h₂⟩ := Result.bind_eq_ok.mp h₂
    cases h₂
    cases h₁
    exact doItemRemove_slab _ _
  · cases h₁
    rfl

theorem doItemLink_slab (s : Cache) (it : Ptr) (hv : UInt32) : (s.doItemLink it hv).1.slab = s.slab := by
  unfold doItemLink
  split_ifs <;> rfl

theorem doItemUpdate_slab (s : Cache) (it : Ptr) : (s.doItemUpdate it).slab = s.slab := by
  unfold doItemUpdate
  dsimp only
  split_ifs <;> rfl

theorem doItemReplace_slab {new : Ptr} {b : Bool} (h : s.doItemReplace it new hv = .ok (s', b)) :
    s'.slab = s.slab := by
  unfold doItemReplace at h
  split_ifs at h
  · cases h
    rfl
  · obtain ⟨s₁, h₁, h⟩ := Result.bind_eq_ok.mp h
    have hlink : s₁.doItemLink new hv = (s', b) := Except.ok.inj h
    have hslab := doItemLink_slab s₁ new hv
    rw [hlink] at hslab
    exact hslab.trans (doItemUnlink_slab h₁)

theorem doItemGet_slab {r : Option Ptr} (h : s.doItemGet key hv = .ok (s', r)) : s'.slab = s.slab := by
  unfold doItemGet at h
  obtain ⟨found, -, h⟩ := Result.bind_eq_ok.mp h
  cases found with
  | none =>
    cases h
    rfl
  | some it =>
    dsimp only at h
    split_ifs at h
    · obtain ⟨s₁, h₁, h⟩ := Result.bind_eq_ok.mp h
      cases h
      rw [doItemRemove_slab, doItemUnlink_slab h₁]
      rfl
    · cases h
      rfl

theorem itemGet_slab {r : Option Ptr} (h : s.itemGet key = .ok (s', r)) : s'.slab = s.slab := by
  obtain ⟨⟨s₁, r₁⟩, h₁, h⟩ := Result.bind_eq_ok.mp h
  cases h
  have hget := doItemGet_slab h₁
  exact hget

theorem commandGet_slab {r : Option Ptr} (h : s.commandGet key = .ok (s', r)) : s'.slab = s.slab := by
  unfold commandGet at h
  split_ifs at h
  · cases h
    rfl
  · exact itemGet_slab h

theorem itemUnlink_slab (h : s.itemUnlink it = .ok s') : s'.slab = s.slab := by
  obtain ⟨s₁, h₁, h⟩ := Result.bind_eq_ok.mp h
  cases h
  have hunlink := doItemUnlink_slab h₁
  exact hunlink

theorem itemRemove_slab (s : Cache) (it : Ptr) : (s.itemRemove it).slab = s.slab :=
  doItemRemove_slab (s.hashLock (HashTable.hash (s.items.key it))) it

theorem removeKey_slab {b : Bool} (h : s.removeKey key = .ok (s', b)) : s'.slab = s.slab := by
  obtain ⟨⟨s₁, r⟩, h₁, h⟩ := Result.bind_eq_ok.mp h
  have hget := itemGet_slab h₁
  cases r with
  | none =>
    cases h
    exact hget
  | some it =>
    obtain ⟨s₂, h₂, h⟩ := Result.bind_eq_ok.mp h
    have hs' : s₂.itemRemove it = s' := (Prod.mk.inj (Except.ok.inj h)).1
    rw [← hs', itemRemove_slab, itemUnlink_slab h₂, hget]

/-- In a sound cache `do_item_alloc` calls the allocator at most once. -/
theorem doItemAlloc_spent {g : Shape} (h : Sound s g) {nkey : ℕ} {nbytes : ℤ} {r : Option Ptr}
    (hrun : s.doItemAlloc nkey nbytes = .ok (s', r)) : s.slab.Spent s'.slab := by
  rw [h.doItemAlloc_eq] at hrun
  split_ifs at hrun with hid
  · cases hrun
    exact .inl rfl
  · obtain ⟨⟨s₁, r₁⟩, h₁, hrun⟩ := Result.bind_eq_ok.mp hrun
    cases hrun
    obtain ⟨⟨m', b', o⟩, halloc, h₁⟩ := Result.bind_eq_ok.mp h₁
    cases h₁
    exact .inr ⟨_, g.free, m', _, _, o, h.slab, Nat.one_le_iff_ne_zero.mpr hid,
      s.slab.slabsClsid_le _, halloc⟩

theorem commandStore_spent {g : Shape} (h : Sound s g) {L : StoreLine} {r : Option Ptr}
    (hrun : s.commandStore L = .ok (s', r)) : s.slab.Spent s'.slab := by
  obtain ⟨⟨s₁, r₁⟩, h₁, hrun⟩ := Result.bind_eq_ok.mp hrun
  obtain ⟨⟨s₂, r₂⟩, halloc, h₁⟩ := Result.bind_eq_ok.mp h₁
  have hspent := doItemAlloc_spent h halloc
  cases r₂ with
  | some it =>
    cases h₁
    cases hrun
    exact hspent
  | none =>
    cases h₁
    dsimp only at hrun
    split_ifs at hrun
    · obtain ⟨⟨s₃, b⟩, hremove, hrun⟩ := Result.bind_eq_ok.mp hrun
      cases hrun
      rw [removeKey_slab hremove]
      exact hspent
    · cases hrun
      exact hspent

theorem storeNew_slab {cmd : Nread} {stat : StoreStat} {c : Option UInt64}
    (h : s.storeNew it cmd hv = .ok (s', stat, c)) : s'.slab = s.slab := by
  unfold storeNew at h
  have hlink : ((s.incCas it).doItemLink it hv).1.slab = s.slab := doItemLink_slab _ it hv
  cases cmd with
  | add | set | error =>
    rw [← (Prod.mk.inj (Except.ok.inj h)).1]
    exact hlink
  | replace | append | prepend =>
    rw [← (Prod.mk.inj (Except.ok.inj h)).1]
  | cas => cases h

theorem storeReplace_slab {old : Ptr} {stat : StoreStat} {c : Option UInt64}
    (h : s.storeReplace it old hv = .ok (s', stat, c)) : s'.slab = s.slab := by
  obtain ⟨⟨s₁, b⟩, h₁, h⟩ := Result.bind_eq_ok.mp h
  cases h
  rw [doItemRemove_slab, doItemReplace_slab h₁]

theorem joined_slab (s : Cache) (new it old : Ptr) (append : Bool) :
    ((s.joinItem new it old append).incCas new).slab = s.slab := by
  simp only [joinItem, incCas]

theorem storeJoin_spent {g : Shape} (hs : Sound s g) {old : Ptr} {append : Bool} {stat : StoreStat}
    {c : Option UInt64} (h : s.storeJoin it old append hv = .ok (s', stat, c)) : s.slab.Spent s'.slab := by
  unfold storeJoin at h
  dsimp only at h
  split_ifs at h
  · cases h
    exact .inl (doItemRemove_slab _ _)
  · obtain ⟨⟨s₁, r⟩, halloc, h⟩ := Result.bind_eq_ok.mp h
    have hspent := doItemAlloc_spent hs halloc
    cases r with
    | none =>
      cases h
      rwa [doItemRemove_slab]
    | some new =>
      obtain ⟨⟨s₂, b⟩, h₂, h⟩ := Result.bind_eq_ok.mp h
      have hreplaced := doItemReplace_slab h₂
      rw [joined_slab] at hreplaced
      rw [← (Prod.mk.inj (Except.ok.inj h)).1, doItemRemove_slab, doItemRemove_slab, hreplaced]
      exact hspent

theorem storeOver_spent {g : Shape} (hs : Sound s g) {old : Ptr} {cmd : Nread} {stat : StoreStat}
    {c : Option UInt64} (h : s.storeOver it old cmd hv = .ok (s', stat, c)) : s.slab.Spent s'.slab := by
  unfold storeOver at h
  cases cmd with
  | add =>
    cases h
    exact .inl ((doItemRemove_slab _ _).trans (doItemUpdate_slab _ _))
  | cas =>
    dsimp only at h
    split_ifs at h
    · exact .inl (storeReplace_slab h)
    · cases h
      exact .inl (doItemRemove_slab _ _)
  | append => exact storeJoin_spent hs h
  | prepend => exact storeJoin_spent hs h
  | set => exact .inl ((storeReplace_slab h).trans rfl)
  | replace => exact .inl ((storeReplace_slab h).trans rfl)
  | error => exact .inl ((storeReplace_slab h).trans rfl)

theorem doStoreItem_spent {g : Shape} (h : Sound s g) {cmd : Nread} {stat : StoreStat}
    {c : Option UInt64} (hrun : s.doStoreItem it cmd (HashTable.hash (s.items.key it)) = .ok (s', stat, c)) :
    s.slab.Spent s'.slab := by
  obtain ⟨s₁, g₁, acts, r, hget, hsteps, -⟩ := Steps.doItemGet h (s.items.key it)
  unfold doStoreItem at hrun
  rw [hget, Result.ok_bind] at hrun
  rw [← doItemGet_slab hget]
  cases r with
  | none => exact .inl (storeNew_slab hrun)
  | some old => exact storeOver_spent (hsteps.sound h) hrun

theorem commandBlock_spent {g : Shape} (h : Sound s g) (hit : it ∈ g.inFlight) {cmd : Nread}
    {bytes : List UInt8} {stat : StoreStat} {c : Option UInt64}
    (hrun : s.commandBlock it cmd bytes = .ok (s', stat, c)) : s.slab.Spent s'.slab := by
  have hwrite := (Steps.writeValue (s := s) hit bytes).sound h
  obtain ⟨⟨s₁, stat₁, c₁⟩, hstore, hrun⟩ := Result.bind_eq_ok.mp hrun
  cases hrun
  have hspent := doStoreItem_spent (hwrite.hashLock
    (HashTable.hash ((s.writeValue it bytes).items.key it))) hstore
  exact hspent

end Cache

end MiniMemcached
