import Mathlib.Data.FinEnum
import Mathlib.Data.List.Perm.Subperm
import Mathlib.Data.Nat.Prime.Basic
import Mathlib.Tactic.Ring
import MiniMemcached.Cache.Footprint
import MiniMemcached.Lists.Chain

/-! The slab allocator keeps its freelists. `SlabRep` lists the free chunks of each
class: the chain from `slots`, of length `sl_curr`, made of chunks of the pages
of the class, all of them without references. A new page adds its chunks, a
popped chunk leaves, and memory outside the freelists is not touched. -/

namespace MiniMemcached

open MiniMemcached.Lists

/-- The chunks of the pages of a class. -/
def SlabClass.chunks (p : SlabClass) : List Ptr :=
  p.slabList.flatMap fun page => (List.range p.perslab).map fun i => ⟨page, i * p.size⟩

theorem SlabClass.mem_chunks {p : SlabClass} {a : Ptr} :
    a ∈ p.chunks ↔ a.page ∈ p.slabList ∧ ∃ i < p.perslab, a.off = i * p.size := by
  simp only [chunks, List.mem_flatMap, List.mem_map, List.mem_range]
  constructor
  · rintro ⟨page, hp, i, hi, rfl⟩
    exact ⟨hp, i, hi, rfl⟩
  · rintro ⟨hp, i, hi, ho⟩
    exact ⟨a.page, hp, i, hi, by rw [← ho]⟩

theorem SlabClass.length_chunks (p : SlabClass) :
    p.chunks.length = p.slabList.length * p.perslab := by
  simp [chunks, List.length_flatMap]

/-- The list of the pages of a class: as many as are counted, with room for them, in a list
whose size is a power of two. -/
structure SlabClass.Listed (p : SlabClass) : Prop where
  length : p.slabList.length = p.slabs.toNat
  room : p.slabs.toNat ≤ p.listSize.toNat
  size : p.listSize = 0 ∨ p.listSize.toNat ∣ 2 ^ 31
  lost : p.listLost = true → p.slabs.toNat = 2 ^ 31

namespace SlabClass.Listed

variable {p q : SlabClass}

/-- A change of the other members. -/
theorem congr (h : p.Listed) (hslabs : q.slabs = p.slabs) (hlist : q.slabList = p.slabList)
    (hsize : q.listSize = p.listSize) (hlost : q.listLost = p.listLost) : q.Listed := by
  refine ⟨?_, ?_, ?_, ?_⟩
  · rw [hlist, hslabs, h.length]
  · rw [hslabs, hsize]
    exact h.room
  · rw [hsize]
    exact h.size
  · rw [hlost, hslabs]
    exact h.lost

theorem listSize_le (h : p.Listed) : p.listSize.toNat ≤ 2 ^ 31 := by
  rcases h.size with hzero | hdvd
  · rw [hzero]
    decide
  · exact Nat.le_of_dvd (by decide) hdvd

/-- The size of a full list wraps around just when the class has all the pages it can list. -/
theorem grownSize_eq_zero_iff (h : p.Listed) : p.grownSize = 0 ↔ p.listSize.toNat = 2 ^ 31 := by
  have hle := h.listSize_le
  rw [← UInt32.toNat_inj]
  unfold SlabClass.grownSize
  split_ifs with hne
  · have hpos : p.listSize.toNat ≠ 0 := fun h0 => hne (UInt32.toNat_inj.mp h0)
    rw [UInt32.toNat_mul]
    show p.listSize.toNat * 2 % 2 ^ 32 = 0 ↔ _
    omega
  · rw [not_not.mp hne]
    decide

theorem grown (h : p.Listed) (hfull : p.slabs = p.listSize) (hne : p.grownSize ≠ 0) :
    ({ p with listSize := p.grownSize } : SlabClass).Listed ∧ p.slabs.toNat < p.grownSize.toNat := by
  have hle := h.listSize_le
  have hlt : p.listSize.toNat < 2 ^ 31 := lt_of_le_of_ne hle fun heq => hne (h.grownSize_eq_zero_iff.mpr heq)
  have hlost : p.listLost = true → p.slabs.toNat = 2 ^ 31 := h.lost
  by_cases hzero : p.listSize = 0
  · have hgrown : p.grownSize = 16 := by simp [SlabClass.grownSize, hzero]
    have hslabs : p.slabs.toNat = 0 := by rw [hfull, hzero]; rfl
    rw [hgrown]
    have hdvd : (16 : UInt32).toNat ∣ 2 ^ 31 := by decide
    exact ⟨⟨h.length, by rw [hslabs]; exact Nat.zero_le _, .inr hdvd, hlost⟩, by rw [hslabs]; decide⟩
  · obtain ⟨k, hk, hsize⟩ := (Nat.dvd_prime_pow Nat.prime_two).mp (h.size.resolve_left hzero)
    have hgrown : p.grownSize.toNat = p.listSize.toNat * 2 := by
      rw [SlabClass.grownSize, if_pos hzero, UInt32.toNat_mul]
      show p.listSize.toNat * 2 % 2 ^ 32 = _
      omega
    have hpos : 0 < p.listSize.toNat := by rw [hsize]; exact Nat.two_pow_pos k
    have hslabs : p.slabs.toNat < p.grownSize.toNat := by
      rw [hgrown, hfull]
      omega
    refine ⟨⟨h.length, hslabs.le, .inr ?_, hlost⟩, hslabs⟩
    show p.grownSize.toNat ∣ _
    have hlt' : k < 31 := (Nat.pow_lt_pow_iff_right (by decide : 1 < 2)).mp (hsize ▸ hlt)
    rw [hgrown, hsize, ← pow_succ]
    exact pow_dvd_pow 2 hlt'

/-- A page is listed where there is room for it. -/
theorem push (h : p.Listed) (hlt : p.slabs.toNat < p.listSize.toNat) (page : ℕ) :
    ({ p with slabList := p.slabList ++ [page], slabs := p.slabs + 1 } : SlabClass).Listed := by
  have hle := h.listSize_le
  have hslabs : (p.slabs + 1).toNat = p.slabs.toNat + 1 := by
    rw [UInt32.toNat_add]
    show (p.slabs.toNat + 1) % 2 ^ 32 = _
    omega
  refine ⟨?_, ?_, h.size, fun hlost => ?_⟩
  · show (p.slabList ++ [page]).length = (p.slabs + 1).toNat
    rw [hslabs, List.length_append, h.length]
    rfl
  · show (p.slabs + 1).toNat ≤ p.listSize.toNat
    omega
  · have := h.lost hlost
    omega

theorem empty : SlabClass.empty.Listed := ⟨rfl, le_rfl, .inl rfl, fun h => nomatch h⟩

end SlabClass.Listed

namespace Slab

/-- All chunks of the pages. -/
def allChunks (b : Slab) : List Ptr := b.memBase.flatMap SlabClass.chunks

theorem mem_allChunks_of_cls {b : Slab} {id : ℕ} {a : Ptr} (h : a ∈ (b.cls id).chunks) :
    a ∈ b.allChunks := by
  rw [cls, List.getD_eq_getElem?_getD] at h
  cases hc : b.memBase[id]? with
  | none => simp [hc, SlabClass.chunks, SlabClass.empty] at h
  | some p =>
    rw [hc] at h
    exact List.mem_flatMap.mpr ⟨p, List.mem_of_getElem? hc, h⟩

theorem cls_setCls_self {b : Slab} {id : ℕ} (h : id < b.memBase.length) (p : SlabClass) :
    (b.setCls id p).cls id = p := by
  simp [cls, setCls, List.getD_eq_getElem?_getD, h]

theorem cls_setCls_of_ne {b : Slab} {id j : ℕ} (h : j ≠ id) (p : SlabClass) :
    (b.setCls id p).cls j = b.cls j := by
  simp [cls, setCls, List.getD_eq_getElem?_getD, List.getElem?_set_ne (Ne.symm h)]

@[simp] theorem setCls_length (b : Slab) (id : ℕ) (p : SlabClass) :
    (b.setCls id p).memBase.length = b.memBase.length := by
  simp [setCls]

/-- What `slabs_clsid` depends on, and the constants of the allocator. -/
structure SameTable (b b' : Slab) : Prop where
  powerLargest : b'.powerLargest = b.powerLargest
  memLimit : b'.memLimit = b.memLimit
  mallocOk : b'.mallocOk = b.mallocOk
  length : b'.memBase.length = b.memBase.length
  size : ∀ id, (b'.cls id).size = (b.cls id).size
  perslab : ∀ id, (b'.cls id).perslab = (b.cls id).perslab

theorem SameTable.refl (b : Slab) : SameTable b b :=
  ⟨rfl, rfl, rfl, rfl, fun _ => rfl, fun _ => rfl⟩

theorem SameTable.trans {b₁ b₂ b₃ : Slab} (h₁ : SameTable b₁ b₂) (h₂ : SameTable b₂ b₃) :
    SameTable b₁ b₃ :=
  ⟨h₂.powerLargest.trans h₁.powerLargest, h₂.memLimit.trans h₁.memLimit,
    h₂.mallocOk.trans h₁.mallocOk, h₂.length.trans h₁.length,
    fun id => (h₂.size id).trans (h₁.size id), fun id => (h₂.perslab id).trans (h₁.perslab id)⟩

theorem SameTable.setCls {b : Slab} {id : ℕ} (hid : id < b.memBase.length) {p : SlabClass}
    (hs : p.size = (b.cls id).size) (hp : p.perslab = (b.cls id).perslab) :
    SameTable b (b.setCls id p) := by
  refine ⟨rfl, rfl, rfl, by simp, fun j => ?_, fun j => ?_⟩
  · by_cases hj : j = id
    · subst hj; rw [cls_setCls_self hid, hs]
    · rw [cls_setCls_of_ne hj]
  · by_cases hj : j = id
    · subst hj; rw [cls_setCls_self hid, hp]
    · rw [cls_setCls_of_ne hj]

theorem clsidFrom_le (b : Slab) (size n res : ℕ) (h : n + res = b.powerLargest + 1) :
    b.clsidFrom size n res ≤ b.powerLargest := by
  induction n generalizing res with
  | zero => simp [clsidFrom]
  | succ n ih =>
    simp only [clsidFrom]
    split_ifs with hlt heq
    · exact Nat.zero_le _
    · exact ih (res + 1) (by omega)
    · omega

theorem le_size_clsidFrom (b : Slab) (size n res : ℕ) (h : b.clsidFrom size n res ≠ 0) :
    size ≤ (b.cls (b.clsidFrom size n res)).size := by
  induction n generalizing res with
  | zero => exact absurd rfl h
  | succ n ih =>
    simp only [clsidFrom] at h ⊢
    split_ifs at h ⊢ with hlt heq
    · exact absurd rfl h
    · exact ih (res + 1) h
    · omega

/-- An item fits into the chunks of its class. -/
theorem le_size_slabsClsid {b : Slab} {size : ℕ} (h : b.slabsClsid size ≠ 0) :
    size ≤ (b.cls (b.slabsClsid size)).size := by
  unfold slabsClsid at h ⊢
  split_ifs at h ⊢ with h0
  · omega
  · exact le_size_clsidFrom b size _ _ h

theorem slabsClsid_le (b : Slab) (size : ℕ) : b.slabsClsid size ≤ b.powerLargest := by
  unfold slabsClsid
  split_ifs
  · exact Nat.zero_le _
  · exact clsidFrom_le b size _ _ (by rw [POWER_SMALLEST])

end Slab

/-- The free chunks of each class. -/
structure SlabRep (m : Items) (b : Slab) (F : ℕ → List Ptr) : Prop where
  length : b.memBase.length = b.powerLargest + 1
  largest : b.powerLargest ≤ Slab.POWER_LARGEST
  perslab : ∀ id, 1 ≤ id → id ≤ b.powerLargest → 0 < (b.cls id).perslab
  perslab_lt : ∀ id, (b.cls id).perslab < 2 ^ 31
  size : ∀ id, 1 ≤ id → id ≤ b.powerLargest → 0 < (b.cls id).size
  unused : (b.cls 0).slabList = []
  listed : ∀ id, (b.cls id).Listed
  pages : ∀ id, ∀ page ∈ (b.cls id).slabList, page < b.mallocCalls
  nodup : ∀ id, (b.cls id).slabList.Nodup
  owner : ∀ id id' page, page ∈ (b.cls id).slabList → page ∈ (b.cls id').slabList → id = id'
  chain : ∀ id, Chain m.next (b.cls id).slots (F id)
  count : ∀ id, (b.cls id).slCurr = UInt32.ofNat (F id).length
  own : ∀ id, ∀ p ∈ F id, p ∈ (b.cls id).chunks
  rest : ∀ id, ∀ p ∈ F id, m.refcount p = 0

namespace SlabRep

variable {m : Items} {b : Slab} {F : ℕ → List Ptr}

theorem congr (h : SlabRep m b F) {m' : Items} (hn : ∀ id, ∀ p ∈ F id, m'.next p = m.next p)
    (hr : ∀ id, ∀ p ∈ F id, m'.refcount p = m.refcount p) : SlabRep m' b F :=
  { h with
    chain := fun id => (h.chain id).congr (hn id)
    rest := fun id p hp => by rw [hr id p hp, h.rest id p hp] }

theorem slabs (h : SlabRep m b F) (id : ℕ) : (b.cls id).slabList.length = (b.cls id).slabs.toNat :=
  (h.listed id).length

theorem page_lt (h : SlabRep m b F) {id : ℕ} {p : Ptr} (hp : p ∈ (b.cls id).chunks) :
    p.page < b.mallocCalls :=
  h.pages id _ (SlabClass.mem_chunks.mp hp).1

/-- The class of a chunk is determined. -/
theorem class_unique (h : SlabRep m b F) {id id' : ℕ} {p : Ptr} (hp : p ∈ (b.cls id).chunks)
    (hp' : p ∈ (b.cls id').chunks) : id = id' :=
  h.owner id id' p.page (SlabClass.mem_chunks.mp hp).1 (SlabClass.mem_chunks.mp hp').1

theorem length_allChunks (h : SlabRep m b F) : b.allChunks.length = b.chunkCount := by
  unfold Slab.allChunks Slab.chunkCount
  rw [List.length_flatMap]
  congr 1
  apply List.map_congr_left
  intro p hp
  obtain ⟨id, hid, rfl⟩ := List.getElem_of_mem hp
  have hcls : b.cls id = b.memBase[id] := by
    simp [Slab.cls, List.getD_eq_getElem?_getD, List.getElem?_eq_getElem hid]
  rw [SlabClass.length_chunks, ← hcls, h.slabs id]

/-- A list of different chunks is no longer than `chunkCount`. -/
theorem length_le (h : SlabRep m b F) {l : List Ptr} (hnd : l.Nodup)
    (hl : ∀ p ∈ l, ∃ id, p ∈ (b.cls id).chunks) : l.length ≤ b.chunkCount := by
  rw [← h.length_allChunks]
  refine (List.subperm_of_subset hnd fun p hp => ?_).length_le
  obtain ⟨id, hid⟩ := hl p hp
  exact Slab.mem_allChunks_of_cls hid

theorem id_lt (h : SlabRep m b F) {id : ℕ} (hid : id ≤ b.powerLargest) : id < b.memBase.length := by
  rw [h.length]; omega

theorem mem_range (h : SlabRep m b F) {id : ℕ} {p : Ptr} (hp : p ∈ (b.cls id).chunks) :
    1 ≤ id ∧ id ≤ b.powerLargest := by
  have hpage := (SlabClass.mem_chunks.mp hp).1
  constructor
  · by_contra h0
    obtain rfl : id = 0 := by omega
    simp [h.unused] at hpage
  · by_contra hgt
    have hempty : b.cls id = .empty := by
      rw [Slab.cls, List.getD_eq_getElem?_getD, List.getElem?_eq_none (by rw [h.length]; omega)]
      rfl
    simp [hempty, SlabClass.empty] at hpage

end SlabRep

/-- Memory that differs in the freelist fields only, and there only on the pages
`pg` and on the cells of `L`. -/
def FreelistOnly (m m' : Items) (pg : ℕ) (L : List Ptr) : Prop :=
  ∃ nx pv fl, m' = { m with next := nx, prev := pv, itemFlag := fl } ∧
    (∀ p, p.page ≠ pg → nx p = m.next p ∧ fl p = m.itemFlag p ∧ (p ∉ L → pv p = m.prev p)) ∧
    ∀ p, fl p &&& Slab.ITEM_LINKED = m.itemFlag p &&& Slab.ITEM_LINKED

theorem setSlabbed_linked (f : UInt8) :
    (f ||| Slab.ITEM_SLABBED) &&& Slab.ITEM_LINKED = f &&& Slab.ITEM_LINKED := by
  revert f; decide +kernel

/-- The cells pushed by the splitting loop, last one first. -/
def splitCells (page size : ℕ) : ℕ → ℕ → List Ptr
  | 0, _ => []
  | n + 1, off => splitCells page size n (off + size) ++ [⟨page, off⟩]

theorem mem_splitCells {page size n off : ℕ} {p : Ptr} :
    p ∈ splitCells page size n off ↔ p.page = page ∧ ∃ i < n, p.off = off + i * size := by
  induction n generalizing off with
  | zero => simp [splitCells]
  | succ n ih =>
    simp only [splitCells, List.mem_append, ih, List.mem_singleton]
    constructor
    · rintro (⟨hp, i, hi, ho⟩ | rfl)
      · exact ⟨hp, i + 1, by omega, by rw [ho]; ring⟩
      · exact ⟨rfl, 0, by omega, by simp⟩
    · rintro ⟨hp, i, hi, ho⟩
      cases i with
      | zero => exact .inr (by cases p; simp_all)
      | succ i => exact .inl ⟨hp, i, by omega, by rw [ho]; ring⟩

@[simp] theorem length_splitCells (page size n off : ℕ) :
    (splitCells page size n off).length = n := by
  induction n generalizing off with
  | zero => rfl
  | succ n ih => simp [splitCells, ih]

/-- The splitting loop pushes one cell after the other. -/
theorem splitSlabPage_spec {id : ℕ} (h1 : 1 ≤ id) (h2 : id ≤ Slab.POWER_LARGEST) (n : ℕ) (m : Items)
    (b : Slab) (page off : ℕ) (L : List Ptr) (hid : id < b.memBase.length)
    (hsize : 0 < (b.cls id).size) (hclsid : ∀ p : Ptr, p.page = page → m.slabsClsid p = 0)
    (hchain : Chain m.next (b.cls id).slots L)
    (hfresh : ∀ p ∈ L, p.page = page → p.off < off) :
    ∃ m' slots, splitSlabPageIntoFreelist id n m b ⟨page, off⟩ =
        (m', b.setCls id { b.cls id with slots := slots, slCurr := (b.cls id).slCurr + UInt32.ofNat n }) ∧
      FreelistOnly m m' page L ∧
      Chain m'.next slots (splitCells page (b.cls id).size n off ++ L) ∧
      ((∀ p, (b.cls id).slots = some p → m.prev p = none) →
        ∀ p, slots = some p → m'.prev p = none) := by
  induction n generalizing m b off L with
  | zero =>
    refine ⟨m, (b.cls id).slots, ?_, ⟨m.next, m.prev, m.itemFlag, rfl, fun _ _ => ⟨rfl, rfl, fun _ => rfl⟩,
      fun _ => rfl⟩,
      by simpa [splitCells] using hchain, fun hf => hf⟩
    have hself : b.setCls id (b.cls id) = b := by
      simp [Slab.setCls, Slab.cls, List.getD_eq_getElem?_getD, hid, List.set_getElem_self]
    simp [splitSlabPageIntoFreelist, hself]
  | succ n ih =>
    have hnotin : (⟨page, off⟩ : Ptr) ∉ L := fun hmem => by simpa using hfresh _ hmem rfl
    -- one `do_slabs_free`
    have hfree : doSlabsFree m b ⟨page, off⟩ 0 id =
        ((((m.setFlag ⟨page, off⟩ (m.itemFlag ⟨page, off⟩ ||| Slab.ITEM_SLABBED)).setPrev ⟨page, off⟩
          none).setNext ⟨page, off⟩ (b.cls id).slots).setPrevOf (b.cls id).slots (some ⟨page, off⟩),
        b.setCls id { b.cls id with slots := some ⟨page, off⟩, slCurr := (b.cls id).slCurr + 1 }) := by
      unfold doSlabsFree
      rw [if_neg]
      · simp
      · rw [hclsid _ rfl]
        unfold Slab.POWER_SMALLEST
        simp
        omega
    set m₁ := (((m.setFlag ⟨page, off⟩ (m.itemFlag ⟨page, off⟩ ||| Slab.ITEM_SLABBED)).setPrev
      ⟨page, off⟩ none).setNext ⟨page, off⟩ (b.cls id).slots).setPrevOf (b.cls id).slots
        (some ⟨page, off⟩) with hm₁
    set b₁ := b.setCls id { b.cls id with
      slots := some ⟨page, off⟩, slCurr := (b.cls id).slCurr + 1 } with hb₁
    have hb₁c : b₁.cls id = { b.cls id with
        slots := some ⟨page, off⟩, slCurr := (b.cls id).slCurr + 1 } :=
      Slab.cls_setCls_self hid _
    obtain ⟨m', slots, hrun, ⟨nx, pv, fl, hform, hout, hlinked⟩, hchain', hfront⟩ :=
      ih m₁ b₁ (off + (b.cls id).size) (⟨page, off⟩ :: L) (by simp [b₁, hid])
        (by rw [hb₁c]; exact hsize) hclsid
        (by rw [hb₁c]; exact hchain.push hnotin)
        (by
          intro p hp hpage
          rcases List.mem_cons.mp hp with rfl | hp
          · simpa using hsize
          · have := hfresh p hp hpage; omega)
    rw [hb₁c] at hchain' hrun hfront
    refine ⟨m', slots, ?_, ⟨nx, pv, fl, ?_, fun p hp => ?_, fun p => ?_⟩, ?_, fun _ => hfront ?_⟩
    · rw [splitSlabPageIntoFreelist, hfree]
      simp only [hrun]
      congr 1
      simp [b₁, Slab.setCls, UInt32.add_assoc, UInt32.add_comm 1]
    · rw [hform]; rfl
    · obtain ⟨hn, hf, hv⟩ := hout p hp
      have hne : p ≠ ⟨page, off⟩ := by rintro rfl; exact hp rfl
      refine ⟨?_, ?_, fun hpL => ?_⟩
      · rw [hn]; simp [m₁, Items.setPrevOf, Items.setNext, Items.setPrev, Items.setFlag, hne]
      · rw [hf]; simp [m₁, Items.setPrevOf, Items.setNext, Items.setPrev, Items.setFlag, hne]
      · rw [hv (by simp [hne, hpL])]
        have hslots : (b.cls id).slots ≠ some p := fun e => hpL (hchain.start_mem e)
        simp [m₁, Items.setPrevOf, Items.setNext, Items.setPrev, Items.setFlag, hne, hslots]
    · rw [hlinked]
      by_cases hp : p = ⟨page, off⟩
      · subst hp
        simp [m₁, Items.setPrevOf, Items.setNext, Items.setPrev, Items.setFlag, setSlabbed_linked]
      · simp [m₁, Items.setPrevOf, Items.setNext, Items.setPrev, Items.setFlag, hp]
    · simpa [splitCells] using hchain'
    · rintro p ⟨rfl⟩
      have hslots : (b.cls id).slots ≠ some ⟨page, off⟩ := fun e =>
        hnotin (hchain.start_mem e)
      simp [m₁, Items.setPrevOf, Items.setNext, Items.setPrev, Items.setFlag, hslots]

/-- The fields of `p` are the same in both memories. -/
structure SameAt (m m' : Items) (p : Ptr) : Prop where
  next : m'.next p = m.next p
  prev : m'.prev p = m.prev p
  hNext : m'.hNext p = m.hNext p
  cas : m'.cas p = m.cas p
  realtime : m'.realtime p = m.realtime p
  exptime : m'.exptime p = m.exptime p
  nbytes : m'.nbytes p = m.nbytes p
  refcount : m'.refcount p = m.refcount p
  itemFlag : m'.itemFlag p = m.itemFlag p
  slabsClsid : m'.slabsClsid p = m.slabsClsid p
  nkey : m'.nkey p = m.nkey p
  data : m'.data p = m.data p

theorem SameAt.refl (m : Items) (p : Ptr) : SameAt m m p :=
  ⟨rfl, rfl, rfl, rfl, rfl, rfl, rfl, rfl, rfl, rfl, rfl, rfl⟩

theorem SameAt.trans {m₁ m₂ m₃ : Items} {p : Ptr} (h₁ : SameAt m₁ m₂ p) (h₂ : SameAt m₂ m₃ p) :
    SameAt m₁ m₃ p :=
  ⟨h₂.next.trans h₁.next, h₂.prev.trans h₁.prev, h₂.hNext.trans h₁.hNext, h₂.cas.trans h₁.cas,
    h₂.realtime.trans h₁.realtime, h₂.exptime.trans h₁.exptime, h₂.nbytes.trans h₁.nbytes,
    h₂.refcount.trans h₁.refcount, h₂.itemFlag.trans h₁.itemFlag,
    h₂.slabsClsid.trans h₁.slabsClsid, h₂.nkey.trans h₁.nkey, h₂.data.trans h₁.data⟩

theorem SameAt.key {m m' : Items} {p : Ptr} (h : SameAt m m' p) : m'.key p = m.key p :=
  Items.key_congr h.data h.nkey

/-- The condition under which `do_slabs_newslab` grants a page: the limit allows it
or the class has no page yet, the size of a full list does not wrap around, and neither
`realloc` nor `malloc` fails. -/
def Slab.newslabOk (b : Slab) (id : ℕ) : Prop :=
  ¬(b.memLimit ≠ 0 ∧ b.memLimit < b.memMalloced + (b.cls id).size * (b.cls id).perslab ∧
    0 < (b.cls id).slabs) ∧
  if (b.cls id).slabs = (b.cls id).listSize then
    (b.cls id).grownSize ≠ 0 ∧ b.mallocOk b.mallocCalls = true ∧ b.mallocOk (b.mallocCalls + 1) = true
  else b.mallocOk b.mallocCalls = true

instance (b : Slab) (id : ℕ) : Decidable (b.newslabOk id) := by
  unfold Slab.newslabOk
  infer_instance

/-- The allocator before and after a call that carved nothing. -/
structure NothingCarved (b b' : Slab) : Prop where
  table : Slab.SameTable b b'
  calls : b.mallocCalls ≤ b'.mallocCalls
  malloced : b'.memMalloced = b.memMalloced
  cls : ∀ j, b'.cls j = { b.cls j with listSize := (b'.cls j).listSize, listLost := (b'.cls j).listLost }
  listed : ∀ j, (b.cls j).Listed → (b'.cls j).Listed

theorem NothingCarved.refl (b : Slab) : NothingCarved b b :=
  ⟨.refl b, le_rfl, rfl, fun _ => rfl, fun _ h => h⟩

theorem NothingCarved.chunks {b b' : Slab} (h : NothingCarved b b') (j : ℕ) :
    (b'.cls j).chunks = (b.cls j).chunks := by
  rw [h.cls j]; rfl

theorem SlabRep.nothingCarved {m : Items} {b b' : Slab} {F : ℕ → List Ptr} (h : SlabRep m b F)
    (hb : NothingCarved b b') : SlabRep m b' F where
  length := by rw [hb.table.length, hb.table.powerLargest, h.length]
  largest := by rw [hb.table.powerLargest]; exact h.largest
  perslab id h1 h2 := by
    rw [hb.table.perslab]; exact h.perslab id h1 (by rwa [← hb.table.powerLargest])
  perslab_lt id := hb.table.perslab id ▸ h.perslab_lt id
  size id h1 h2 := by
    rw [hb.table.size]; exact h.size id h1 (by rwa [← hb.table.powerLargest])
  unused := by rw [hb.cls]; exact h.unused
  listed id := hb.listed id (h.listed id)
  pages id page hp := by
    rw [hb.cls] at hp
    exact (h.pages id page hp).trans_le hb.calls
  nodup id := by rw [hb.cls]; exact h.nodup id
  owner id id' page hp hp' := by
    rw [hb.cls] at hp hp'
    exact h.owner id id' page hp hp'
  chain id := by rw [hb.cls]; exact h.chain id
  count id := by rw [hb.cls]; exact h.count id
  own id p hp := by rw [hb.chunks]; exact h.own id p hp
  rest := h.rest

theorem NothingCarved.trans {b₁ b₂ b₃ : Slab} (h₁ : NothingCarved b₁ b₂)
    (h₂ : NothingCarved b₂ b₃) : NothingCarved b₁ b₃ :=
  ⟨h₁.table.trans h₂.table, h₁.calls.trans h₂.calls, h₂.malloced.trans h₁.malloced,
    fun j => by rw [h₂.cls j, h₁.cls j], fun j h => h₂.listed j (h₁.listed j h)⟩

theorem NothingCarved.called (b : Slab) :
    NothingCarved b { b with mallocCalls := b.mallocCalls + 1 } :=
  ⟨⟨rfl, rfl, rfl, rfl, fun _ => rfl, fun _ => rfl⟩, Nat.le_succ _, rfl, fun _ => rfl, fun _ h => h⟩

theorem NothingCarved.setList {b : Slab} {id : ℕ} (hid : id < b.memBase.length) {p : SlabClass}
    (hp : p = { b.cls id with listSize := p.listSize, listLost := p.listLost }) (hlisted : p.Listed) :
    NothingCarved b (b.setCls id p) := by
  refine ⟨.setCls hid (by rw [hp]) (by rw [hp]), le_rfl, rfl, fun j => ?_, fun j h => ?_⟩
  · by_cases hj : j = id
    · subst hj; rw [Slab.cls_setCls_self hid, ← hp]
    · rw [Slab.cls_setCls_of_ne hj]
  · by_cases hj : j = id
    · subst hj; rwa [Slab.cls_setCls_self hid]
    · rwa [Slab.cls_setCls_of_ne hj]

/-- `grow_slab_list` changes the list of one class, and uses up at most one call of the
allocator. -/
theorem growSlabList_spec (b : Slab) {id : ℕ} (hid : id < b.memBase.length) (hlisted : (b.cls id).Listed) :
    NothingCarved b (growSlabList b id).1 ∧
      ((growSlabList b id).2 = true ↔ ((b.cls id).slabs = (b.cls id).listSize →
        (b.cls id).grownSize ≠ 0 ∧ b.mallocOk b.mallocCalls = true)) ∧
      ((growSlabList b id).2 = true →
        ((growSlabList b id).1.cls id).slabs.toNat < ((growSlabList b id).1.cls id).listSize.toNat ∧
        (growSlabList b id).1.mallocCalls =
          b.mallocCalls + if (b.cls id).slabs = (b.cls id).listSize then 1 else 0) := by
  unfold growSlabList
  extract_lets p
  by_cases hfull : p.slabs = p.listSize
  · have hfull' : (b.cls id).slabs = (b.cls id).listSize := hfull
    rw [if_pos hfull, if_pos hfull']
    by_cases hgrown : p.grownSize = 0
    · rw [if_pos hgrown]
      have hslabs : p.slabs.toNat = 2 ^ 31 := by rw [hfull, hlisted.grownSize_eq_zero_iff.mp hgrown]
      refine ⟨.setList hid rfl ⟨hlisted.length, hlisted.room, hlisted.size, fun _ => hslabs⟩, ?_, nofun⟩
      simp only [Bool.false_eq_true, false_iff, Classical.not_imp, not_and]
      exact ⟨hfull', fun hne => absurd hgrown hne⟩
    · rw [if_neg hgrown]
      obtain ⟨hlisted', hlt⟩ := hlisted.grown hfull hgrown
      by_cases hok : b.mallocOk b.mallocCalls = true
      · simp only [Slab.malloc, hok, if_true]
        have hself := Slab.cls_setCls_self (b := { b with mallocCalls := b.mallocCalls + 1 }) hid
          { p with listSize := p.grownSize }
        refine ⟨(NothingCarved.called b).trans (.setList (b := { b with mallocCalls := b.mallocCalls + 1 })
          hid rfl hlisted'), by simp [p, hgrown], fun _ => ⟨?_, rfl⟩⟩
        rw [hself]
        exact hlt
      · simp only [Slab.malloc, hok, if_false, Bool.false_eq_true]
        exact ⟨.called b, by simp [hfull'], nofun⟩
  · have hfull' : ¬(b.cls id).slabs = (b.cls id).listSize := hfull
    rw [if_neg hfull, if_neg hfull']
    refine ⟨.refl b, by simp [hfull'], fun _ => ⟨?_, rfl⟩⟩
    exact lt_of_le_of_ne hlisted.room fun heq => hfull' (UInt32.toNat_inj.mp heq)

/-- The allocator before and after a call that carved the page `page` for class `id`,
whose freelist was `L` and starts at `slots` now. -/
structure PageCarved (m m' : Items) (b b' : Slab) (id page : ℕ) (slots : Option Ptr)
    (L : List Ptr) : Prop where
  table : Slab.SameTable b b'
  page_ge : b.mallocCalls ≤ page
  page_lt : page < b'.mallocCalls
  malloced : b'.memMalloced = b.memMalloced + (b.cls id).size * (b.cls id).perslab
  cls_self : b'.cls id = { b.cls id with
    slots := slots
    slCurr := (b.cls id).slCurr + UInt32.ofNat (b.cls id).perslab
    slabs := (b.cls id).slabs + 1
    slabList := (b.cls id).slabList ++ [page]
    listSize := (b'.cls id).listSize
    listLost := (b'.cls id).listLost }
  cls_of_ne : ∀ j, j ≠ id →
    b'.cls j = { b.cls j with listSize := (b'.cls j).listSize, listLost := (b'.cls j).listLost }
  listed : ∀ j, (b.cls j).Listed → (b'.cls j).Listed
  same : ∀ p, p.page ≠ page → p ∉ L → SameAt m m' p
  refcount : ∀ p, p.page ≠ page → m'.refcount p = m.refcount p
  fresh : ∀ p : Ptr, p.page = page → m'.refcount p = 0
  clsid : ∀ p, m'.slabsClsid p = if p.page = page then 0 else m.slabsClsid p
  unlinked : ∀ p, m.itemFlag p &&& Slab.ITEM_LINKED = 0 → m'.itemFlag p &&& Slab.ITEM_LINKED = 0
  front : (∀ p, (b.cls id).slots = some p → m.prev p = none) →
    ∀ p, slots = some p → m'.prev p = none

namespace PageCarved

variable {m m' : Items} {b b' : Slab} {id page : ℕ} {slots : Option Ptr} {L : List Ptr}

theorem slabList (h : PageCarved m m' b b' id page slots L) (j : ℕ) :
    (b'.cls j).slabList = if j = id then (b.cls id).slabList ++ [page] else (b.cls j).slabList := by
  split_ifs with hj
  · subst hj; rw [h.cls_self]
  · rw [h.cls_of_ne j hj]

theorem requested (h : PageCarved m m' b b' id page slots L) (j : ℕ) :
    (b'.cls j).requested = (b.cls j).requested := by
  by_cases hj : j = id
  · subst hj; rw [h.cls_self]
  · rw [h.cls_of_ne j hj]

theorem mem_slabList (h : PageCarved m m' b b' id page slots L) {j q : ℕ} :
    q ∈ (b'.cls j).slabList ↔ q ∈ (b.cls j).slabList ∨ j = id ∧ q = page := by
  rw [h.slabList]
  split_ifs with hj
  · subst hj; simp
  · simp [hj]

theorem mem_chunks (h : PageCarved m m' b b' id page slots L) {j : ℕ} {p : Ptr} :
    p ∈ (b'.cls j).chunks ↔ p ∈ (b.cls j).chunks ∨
      j = id ∧ p ∈ splitCells page (b.cls id).size (b.cls id).perslab 0 := by
  rw [SlabClass.mem_chunks, SlabClass.mem_chunks, h.mem_slabList, h.table.size, h.table.perslab,
    mem_splitCells, or_and_right]
  constructor
  · rintro (hp | ⟨⟨rfl, hp⟩, ho⟩)
    · exact .inl hp
    · exact .inr ⟨rfl, hp, by simpa using ho⟩
  · rintro (hp | ⟨rfl, hp, ho⟩)
    · exact .inl hp
    · exact .inr ⟨⟨rfl, hp⟩, by simpa using ho⟩

end PageCarved

/-- The freelists after a page was carved. -/
theorem SlabRep.pageCarved {m m' : Items} {b b' : Slab} {F : ℕ → List Ptr} (h : SlabRep m b F)
    {id page : ℕ} {slots : Option Ptr} (hid : 1 ≤ id)
    (hc : PageCarved m m' b b' id page slots (F id))
    (hchain : Chain m'.next slots
      (splitCells page (b.cls id).size (b.cls id).perslab 0 ++ F id)) :
    SlabRep m' b' (Function.update F id
      (splitCells page (b.cls id).size (b.cls id).perslab 0 ++ F id)) where
  length := by rw [hc.table.length, hc.table.powerLargest, h.length]
  largest := by rw [hc.table.powerLargest]; exact h.largest
  perslab j h1 h2 := by
    rw [hc.table.perslab]; exact h.perslab j h1 (by rwa [← hc.table.powerLargest])
  perslab_lt j := hc.table.perslab j ▸ h.perslab_lt j
  size j h1 h2 := by
    rw [hc.table.size]; exact h.size j h1 (by rwa [← hc.table.powerLargest])
  unused := by rw [hc.slabList, if_neg (by omega)]; exact h.unused
  listed j := hc.listed j (h.listed j)
  pages j q hq := by
    have hlt := hc.page_lt
    have hge := hc.page_ge
    rcases hc.mem_slabList.mp hq with hq | ⟨-, rfl⟩
    · have := h.pages j q hq
      omega
    · exact hlt
  nodup j := by
    rw [hc.slabList]
    split_ifs with hj
    · refine List.Nodup.append (h.nodup id) (List.nodup_singleton _) ?_
      rintro q hq hqp
      obtain rfl := List.mem_singleton.mp hqp
      have := h.pages id q hq
      have := hc.page_ge
      omega
    · exact h.nodup j
  owner j j' q hq hq' := by
    have hge := hc.page_ge
    rcases hc.mem_slabList.mp hq with hq | ⟨rfl, rfl⟩ <;>
      rcases hc.mem_slabList.mp hq' with hq' | ⟨rfl, hqp⟩
    · exact h.owner j j' q hq hq'
    · have := h.pages j q hq
      omega
    · have := h.pages j' q hq'
      omega
    · rfl
  chain j := by
    by_cases hj : j = id
    · subst hj
      rw [Function.update_self, hc.cls_self]
      exact hchain
    · rw [Function.update_of_ne hj, hc.cls_of_ne j hj]
      refine (h.chain j).congr fun p hp => (hc.same p (fun e => ?_) fun hp' => hj ?_).next
      · have := h.page_lt (h.own j p hp)
        have := hc.page_ge
        omega
      · exact h.class_unique (h.own j p hp) (h.own id p hp')
  count j := by
    by_cases hj : j = id
    · subst hj
      rw [Function.update_self, hc.cls_self, List.length_append, length_splitCells, Nat.add_comm,
        UInt32.ofNat_add, ← h.count]
    · rw [Function.update_of_ne hj, hc.cls_of_ne j hj]; exact h.count j
  own j p hp := by
    rw [hc.mem_chunks]
    by_cases hj : j = id
    · subst hj
      rw [Function.update_self] at hp
      rcases List.mem_append.mp hp with hp | hp
      · exact .inr ⟨rfl, hp⟩
      · exact .inl (h.own j p hp)
    · rw [Function.update_of_ne hj] at hp
      exact .inl (h.own j p hp)
  rest j p hp := by
    by_cases hpage : p.page = page
    · exact hc.fresh p hpage
    · rw [hc.refcount p hpage]
      by_cases hj : j = id
      · subst hj
        rw [Function.update_self] at hp
        rcases List.mem_append.mp hp with hp | hp
        · exact absurd (mem_splitCells.mp hp).1 hpage
        · exact h.rest j p hp
      · rw [Function.update_of_ne hj] at hp
        exact h.rest j p hp

/-- Freelist fields that change on a page that was cleared leave the items elsewhere alone. -/
theorem FreelistOnly.cleared {m m' : Items} {page : ℕ} {L : List Ptr}
    (h : FreelistOnly (m.clearPage page) m' page L) :
    (∀ p, p.page ≠ page → p ∉ L → SameAt m m' p) ∧ (∀ p, p.page ≠ page → m'.refcount p = m.refcount p) ∧
    (∀ p : Ptr, p.page = page → m'.refcount p = 0) ∧
    (∀ p, m'.slabsClsid p = if p.page = page then 0 else m.slabsClsid p) ∧
    ∀ p, m.itemFlag p &&& Slab.ITEM_LINKED = 0 → m'.itemFlag p &&& Slab.ITEM_LINKED = 0 := by
  obtain ⟨nx, pv, fl, hform, hout, hlinked⟩ := h
  subst hform
  refine ⟨fun q hq hqL => ?_, fun q hq => ?_, fun q hq => ?_, fun q => ?_, fun q hq => ?_⟩
  · obtain ⟨hnext, hflag, hprev⟩ := hout q hq
    constructor <;> simp [Items.clearPage, hq, hnext, hflag, hprev hqL]
  · simp [Items.clearPage, hq]
  · simp [Items.clearPage, hq]
  · simp [Items.clearPage]
  · simp only [hlinked, Items.clearPage]
    split_ifs
    · rfl
    · exact hq

/-- The chunks of a new page go to the freelist of its class. -/
theorem splitNewPage {m : Items} {b b₁ : Slab} {F : ℕ → List Ptr} (h : SlabRep m b F) {id : ℕ} (h1 : 1 ≤ id)
    (h2 : id ≤ b.powerLargest) (hgrow : NothingCarved b b₁) :
    ∃ m' slots, splitSlabPageIntoFreelist id (b.cls id).perslab (m.clearPage b₁.mallocCalls)
        { b₁ with mallocCalls := b₁.mallocCalls + 1 } ⟨b₁.mallocCalls, 0⟩ =
        (m', ({ b₁ with mallocCalls := b₁.mallocCalls + 1 } : Slab).setCls id { b₁.cls id with
          slots := slots, slCurr := (b.cls id).slCurr + UInt32.ofNat (b.cls id).perslab }) ∧
      FreelistOnly (m.clearPage b₁.mallocCalls) m' b₁.mallocCalls (F id) ∧
      Chain m'.next slots (splitCells b₁.mallocCalls (b.cls id).size (b.cls id).perslab 0 ++ F id) ∧
      ((∀ p, (b.cls id).slots = some p → m.prev p = none) → ∀ p, slots = some p → m'.prev p = none) := by
  set page := b₁.mallocCalls
  set b₂ : Slab := { b₁ with mallocCalls := page + 1 }
  have hid : id < b₂.memBase.length := by
    show id < b₁.memBase.length
    rw [hgrow.table.length]
    exact h.id_lt h2
  have hcls : b₂.cls id = b₁.cls id := rfl
  have hcalls : b.mallocCalls ≤ page := hgrow.calls
  have hold : ∀ q ∈ F id, q.page ≠ page := fun q hq e => by
    have := h.page_lt (h.own id q hq)
    omega
  have hchain : Chain (m.clearPage page).next (b₁.cls id).slots (F id) := by
    rw [hgrow.cls]
    exact (h.chain id).congr fun q hq => by simp [Items.clearPage, hold q hq]
  obtain ⟨m', slots, hrun, hform, hchain', hfront⟩ :=
    splitSlabPage_spec h1 (h2.trans h.largest) (b.cls id).perslab (m.clearPage page) b₂ page 0 (F id) hid
      (by rw [hcls, hgrow.table.size]; exact h.size id h1 h2) (fun q hq => by simp [Items.clearPage, hq])
      hchain (fun q hq hqp => absurd hqp (hold q hq))
  rw [hcls, hgrow.table.size] at hchain'
  refine ⟨m', slots, ?_, hform, hchain', fun hf => hfront fun q hq => ?_⟩
  · rw [hrun, hcls, hgrow.cls]
  · rw [hcls, hgrow.cls] at hq
    have hqF := (h.chain id).start_mem hq
    simpa [Items.clearPage, hold q hqF] using hf q hq

/-- A page is stored in the list of its class, which has room for it. -/
theorem storeNewPage {b b₁ : Slab} {id : ℕ} (hid : id < b.memBase.length) (hgrow : NothingCarved b b₁)
    (hroom : (b₁.cls id).slabs.toNat < (b₁.cls id).listSize.toNat) (slots : Option Ptr) (slCurr : UInt32)
    (page malloced : ℕ) {b₂ b₃ : Slab} (hb₂ : b₂ = ({ b₁ with mallocCalls := page + 1 } : Slab).setCls id
      { b₁.cls id with slots := slots, slCurr := slCurr })
    (hb₃ : b₃ = { b₂.setCls id { b₂.cls id with
      slabList := (b₂.cls id).slabList ++ [page]
      slabs := (b₂.cls id).slabs + 1 } with memMalloced := malloced }) :
    b.SameTable b₃ ∧ b₃.mallocCalls = page + 1 ∧
    b₃.cls id = { b.cls id with
      slots := slots
      slCurr := slCurr
      slabs := (b.cls id).slabs + 1
      slabList := (b.cls id).slabList ++ [page]
      listSize := (b₁.cls id).listSize
      listLost := (b₁.cls id).listLost } ∧
    (∀ j, j ≠ id → b₃.cls j = b₁.cls j) ∧ ∀ j, (b.cls j).Listed → (b₃.cls j).Listed := by
  have hid₁ : id < b₁.memBase.length := by rwa [hgrow.table.length]
  have hid₂ : id < b₂.memBase.length := by rw [hb₂, Slab.setCls_length]; exact hid₁
  have hcls₂ : b₂.cls id = { b₁.cls id with slots := slots, slCurr := slCurr } := by
    rw [hb₂]
    exact Slab.cls_setCls_self hid₁ _
  have hself : b₃.cls id = { b₂.cls id with
      slabList := (b₂.cls id).slabList ++ [page], slabs := (b₂.cls id).slabs + 1 } := by
    rw [hb₃]
    exact Slab.cls_setCls_self hid₂ _
  have hne : ∀ j, j ≠ id → b₃.cls j = b₁.cls j := fun j hj => by
    rw [hb₃, hb₂]
    exact (Slab.cls_setCls_of_ne hj _).trans (Slab.cls_setCls_of_ne hj _)
  have htable : b₁.SameTable b₃ := by
    have h₂ : b₁.SameTable b₂ := by
      have hcalled : b₁.SameTable { b₁ with mallocCalls := page + 1 } :=
        ⟨rfl, rfl, rfl, rfl, fun _ => rfl, fun _ => rfl⟩
      rw [hb₂]
      exact hcalled.trans (.setCls (b := { b₁ with mallocCalls := page + 1 }) hid₁ rfl rfl)
    have h₃ : b₂.SameTable b₃ := by
      have hstored : b₂.SameTable (b₂.setCls id { b₂.cls id with
          slabList := (b₂.cls id).slabList ++ [page]
          slabs := (b₂.cls id).slabs + 1 }) := .setCls hid₂ rfl rfl
      rw [hb₃]
      exact hstored.trans ⟨rfl, rfl, rfl, rfl, fun _ => rfl, fun _ => rfl⟩
    exact h₂.trans h₃
  refine ⟨hgrow.table.trans htable, by rw [hb₃, hb₂]; rfl, ?_, hne, fun j hj => ?_⟩
  · rw [hself, hcls₂, hgrow.cls id]
  · by_cases hji : j = id
    · subst hji
      rw [hself, hcls₂]
      exact SlabClass.Listed.push (p := { b₁.cls j with slots := slots, slCurr := slCurr })
        ((hgrow.listed j hj).congr rfl rfl rfl rfl) hroom page
    · rw [hne j hji]
      exact hgrow.listed j hj

/-- A page that is refused changes no more than the list of its class. -/
theorem doSlabsNewslab_refused {m : Items} {b : Slab} {id : ℕ} (hid : id < b.memBase.length)
    (hlisted : (b.cls id).Listed) (hno : ¬b.newslabOk id) :
    ∃ b', doSlabsNewslab m b id = (m, b', false) ∧ NothingCarved b b' := by
  obtain ⟨hgrow, hgrown, hcalls⟩ := growSlabList_spec b hid hlisted
  unfold doSlabsNewslab
  extract_lets p len
  split_ifs with hlimit
  · exact ⟨b, rfl, .refl b⟩
  · have hmalloc := fun h => hno ⟨hlimit, h⟩
    rcases hg : growSlabList b id with ⟨b₁, ok⟩
    rw [hg] at hgrow hgrown hcalls
    cases ok with
    | false => exact ⟨b₁, rfl, hgrow⟩
    | true =>
      -- the list has room, so it is the page that `malloc` does not give
      have hfail : ¬b₁.mallocOk b₁.mallocCalls = true := by
        intro hok
        have hgrown := hgrown.mp rfl
        have hcalls : b₁.mallocCalls = _ := (hcalls rfl).2
        rw [hcalls, hgrow.table.mallocOk] at hok
        refine hmalloc ?_
        split_ifs at hok ⊢ with hfull
        · exact ⟨(hgrown hfull).1, (hgrown hfull).2, hok⟩
        · exact hok
      exact ⟨_, by simp only [Slab.malloc, hfail, if_false, Bool.false_eq_true], hgrow.trans (.called b₁)⟩

/-- A page is granted under `newslabOk`, and only then. -/
theorem doSlabsNewslab_spec {m : Items} {b : Slab} {F : ℕ → List Ptr} (h : SlabRep m b F)
    {id : ℕ} (h1 : 1 ≤ id) (h2 : id ≤ b.powerLargest) :
    (¬b.newslabOk id → ∃ b', doSlabsNewslab m b id = (m, b', false) ∧ NothingCarved b b') ∧
    (b.newslabOk id → ∃ m' b' page slots,
      doSlabsNewslab m b id = (m', b', true) ∧ PageCarved m m' b b' id page slots (F id) ∧
      SlabRep m' b' (Function.update F id
        (splitCells page (b.cls id).size (b.cls id).perslab 0 ++ F id))) := by
  have hid := h.id_lt h2
  refine ⟨doSlabsNewslab_refused hid (h.listed id), fun ⟨hlimit, hmalloc⟩ => ?_⟩
  obtain ⟨hgrow, hgrown, hroom⟩ := growSlabList_spec b hid (h.listed id)
  have htrue : (growSlabList b id).2 = true := by
    refine hgrown.mpr fun hfull => ?_
    rw [if_pos hfull] at hmalloc
    exact ⟨hmalloc.1, hmalloc.2.1⟩
  obtain ⟨hroom, hcalls⟩ := hroom htrue
  have hok : (growSlabList b id).1.mallocOk (growSlabList b id).1.mallocCalls = true := by
    rw [hcalls, hgrow.table.mallocOk]
    split_ifs at hmalloc ⊢
    · exact hmalloc.2.2
    · exact hmalloc
  obtain ⟨m', slots, hsplit, hform, hchain, hfront⟩ := splitNewPage h h1 h2 hgrow
  obtain ⟨hsame, hrefcount, hfresh, hclsid, hunlinked⟩ := hform.cleared
  obtain ⟨htable, hpages, hself, hne, hlisted⟩ := storeNewPage hid hgrow hroom slots
    ((b.cls id).slCurr + UInt32.ofNat (b.cls id).perslab) (growSlabList b id).1.mallocCalls
    ((growSlabList b id).1.memMalloced + (b.cls id).size * (b.cls id).perslab) rfl rfl
  have hcarved : PageCarved m m' b _ id (growSlabList b id).1.mallocCalls slots (F id) :=
    ⟨htable, hgrow.calls, hpages ▸ Nat.lt_succ_self _, by rw [← hgrow.malloced], by rw [hself],
      fun j hj => by rw [hne j hj]; exact hgrow.cls j, hlisted, hsame, hrefcount, hfresh, hclsid,
        hunlinked, hfront⟩
  refine ⟨m', _, _, slots, ?_, hcarved, h.pageCarved h1 hcarved hchain⟩
  unfold doSlabsNewslab
  rw [if_neg hlimit]
  rcases hg : growSlabList b id with ⟨b₁, ok⟩
  rw [hg] at htrue hok hsplit
  dsimp only at htrue
  subst htrue
  dsimp only at hok hsplit ⊢
  simp only [Slab.malloc, hok, if_true, hsplit]

/-- The allocator before and after the chunk `it` of class `id` was handed out. -/
structure Allocated (m m' : Items) (b b' : Slab) (F F' : ℕ → List Ptr) (size id : ℕ) (it : Ptr) :
    Prop where
  rep : SlabRep m' b' F'
  table : Slab.SameTable b b'
  chunks_subset : ∀ j, (b.cls j).chunks ⊆ (b'.cls j).chunks
  mem_chunks : it ∈ (b'.cls id).chunks
  notFree : ∀ j, it ∉ F' j
  wasFree : ∀ j, it ∈ (b.cls j).chunks → it ∈ F id
  free_or_used : ∀ j, ∀ p ∈ (b'.cls j).chunks, p ∈ F' j ∨ p = it ∨ p ∈ (b.cls j).chunks ∧ p ∉ F j
  used : ∀ j, ∀ p ∈ (b.cls j).chunks, p ∉ F j → SameAt m m' p ∧ ∀ i, p ∉ F' i
  refcount : m'.refcount it = 0
  clsid : (∀ p, m.slabsClsid p = 0) → ∀ p, m'.slabsClsid p = 0
  unlinked : ∀ p, m.itemFlag p &&& Slab.ITEM_LINKED = 0 → m'.itemFlag p &&& Slab.ITEM_LINKED = 0
  requested : ∀ j, (b'.cls j).requested =
    if j = id then (b.cls id).requested + UInt64.ofNat size else (b.cls j).requested
  prev : (∀ p, (b.cls id).slots = some p → m.prev p = none) → m'.prev it = none
  front : (∀ j p, (b.cls j).slots = some p → m.prev p = none) →
    ∀ j p, (b'.cls j).slots = some p → m'.prev p = none

/-- The freelists after one class was given another one, and its counter and charges with it. -/
theorem SlabRep.setFreelist {m m' : Items} {b : Slab} {F : ℕ → List Ptr} (h : SlabRep m b F) {id : ℕ}
    (h2 : id ≤ b.powerLargest) {p : SlabClass} (hp : p = { b.cls id with
      slots := p.slots
      slCurr := p.slCurr
      requested := p.requested })
    {L : List Ptr} (hchain : Chain m'.next p.slots L) (hcount : p.slCurr = UInt32.ofNat L.length)
    (hown : ∀ q ∈ L, q ∈ (b.cls id).chunks) (hrest : ∀ q ∈ L, m'.refcount q = 0)
    (hother : ∀ j, j ≠ id → ∀ q ∈ F j, m'.next q = m.next q ∧ m'.refcount q = m.refcount q) :
    SlabRep m' (b.setCls id p) (Function.update F id L) := by
  have hid := h.id_lt h2
  have hself : (b.setCls id p).cls id = p := Slab.cls_setCls_self hid p
  have hne : ∀ j, j ≠ id → (b.setCls id p).cls j = b.cls j := fun j hj => Slab.cls_setCls_of_ne hj p
  have htable : b.SameTable (b.setCls id p) := .setCls hid (by rw [hp]) (by rw [hp])
  have hlist : ∀ j, ((b.setCls id p).cls j).slabList = (b.cls j).slabList := by
    intro j
    by_cases hj : j = id
    · subst hj; rw [hself, hp]
    · rw [hne j hj]
  have hchunks : ∀ j, ((b.setCls id p).cls j).chunks = (b.cls j).chunks := fun j => by
    unfold SlabClass.chunks
    rw [hlist, htable.perslab, htable.size]
  exact {
    length := by rw [htable.length, htable.powerLargest, h.length]
    largest := by rw [htable.powerLargest]; exact h.largest
    perslab := fun j h1 h2 => by
      rw [htable.perslab]; exact h.perslab j h1 (by rwa [← htable.powerLargest])
    perslab_lt := fun j => htable.perslab j ▸ h.perslab_lt j
    size := fun j h1 h2 => by
      rw [htable.size]; exact h.size j h1 (by rwa [← htable.powerLargest])
    unused := by rw [hlist]; exact h.unused
    listed := fun j => by
      by_cases hj : j = id
      · subst hj; rw [hself]; exact (h.listed j).congr (by rw [hp]) (by rw [hp]) (by rw [hp]) (by rw [hp])
      · rw [hne j hj]; exact h.listed j
    pages := fun j q hq => h.pages j q (by rwa [← hlist j])
    nodup := fun j => by rw [hlist]; exact h.nodup j
    owner := fun j j' q hq hq' => h.owner j j' q (by rwa [← hlist j]) (by rwa [← hlist j'])
    chain := fun j => by
      by_cases hj : j = id
      · subst hj
        rw [Function.update_self, hself]
        exact hchain
      · rw [Function.update_of_ne hj, hne j hj]
        exact (h.chain j).congr fun q hq => (hother j hj q hq).1
    count := fun j => by
      by_cases hj : j = id
      · subst hj
        rw [Function.update_self, hself]
        exact hcount
      · rw [Function.update_of_ne hj, hne j hj]
        exact h.count j
    own := fun j q hq => by
      rw [hchunks]
      by_cases hj : j = id
      · subst hj
        rw [Function.update_self] at hq
        exact hown q hq
      · rw [Function.update_of_ne hj] at hq
        exact h.own j q hq
    rest := fun j q hq => by
      by_cases hj : j = id
      · subst hj
        rw [Function.update_self] at hq
        exact hrest q hq
      · rw [Function.update_of_ne hj] at hq
        rw [(hother j hj q hq).2]
        exact h.rest j q hq }

/-- A counter that is not 0 belongs to a freelist with a first chunk. -/
theorem SlabRep.exists_free {m : Items} {b : Slab} {F : ℕ → List Ptr} (h : SlabRep m b F) {id : ℕ}
    (hpos : (b.cls id).slCurr ≠ 0) : ∃ it l, F id = it :: l := by
  have hcount := h.count id
  cases hF : F id with
  | nil => rw [hF] at hcount; exact absurd hcount hpos
  | cons it l => exact ⟨it, l, rfl⟩

/-- The first chunk of a freelist is handed out. -/
theorem popSlot_spec {m : Items} {b : Slab} {F : ℕ → List Ptr} (h : SlabRep m b F) {id : ℕ}
    (size : ℕ) (h2 : id ≤ b.powerLargest) (hpos : (b.cls id).slCurr ≠ 0) :
    ∃ m' b' F' it, popSlot m b size id = .ok (m', b', some it) ∧ Allocated m m' b b' F F' size id it := by
  obtain ⟨it, l, hF⟩ := h.exists_free hpos
  have hid := h.id_lt h2
  have hchain := h.chain id
  have hcount := h.count id
  rw [hF] at hchain hcount
  have hnodup := hchain.nodup
  obtain ⟨hslots, hrest⟩ := hchain
  have hitF : it ∈ F id := hF ▸ List.mem_cons_self
  have hlF : ∀ p ∈ l, p ∈ F id := fun p hp => hF ▸ List.mem_cons_of_mem it hp
  have hitChunk := h.own id it hitF
  set p := { b.cls id with
    slots := m.next it
    slCurr := (b.cls id).slCurr - 1
    requested := (b.cls id).requested + UInt64.ofNat size } with hp
  have hself : (b.setCls id p).cls id = p := Slab.cls_setCls_self hid _
  have hne : ∀ j, j ≠ id → (b.setCls id p).cls j = b.cls j := fun j hj => Slab.cls_setCls_of_ne hj _
  have hchunks : ∀ j, ((b.setCls id p).cls j).chunks = (b.cls j).chunks := by
    intro j
    by_cases hj : j = id
    · subst hj; rw [hself]; rfl
    · rw [hne j hj]
  have hsub : ∀ j, ∀ q ∈ Function.update F id l j, q ∈ F j := by
    intro j q hq
    by_cases hj : j = id
    · subst hj
      rw [Function.update_self] at hq
      exact hlF q hq
    · rwa [Function.update_of_ne hj] at hq
  have hnotFree : ∀ j, it ∉ Function.update F id l j := by
    intro j hq
    obtain rfl := h.class_unique (h.own j it (hsub j it hq)) hitChunk
    rw [Function.update_self] at hq
    exact (List.nodup_cons.mp hnodup).1 hq
  have hone : p.slCurr = UInt32.ofNat l.length := by
    rw [hp, hcount, List.length_cons, UInt32.ofNat_add]
    exact UInt32.add_sub_cancel _ 1
  have hrep : SlabRep (m.setPrevOf (m.next it) none) (b.setCls id p) (Function.update F id l) :=
    h.setFreelist h2 rfl hrest hone (fun q hq => h.own id q (hlF q hq))
      (fun q hq => h.rest id q (hlF q hq)) fun _ _ _ _ => ⟨rfl, rfl⟩
  refine ⟨_, _, _, it, by simp only [popSlot, hslots]; rfl, hrep, .setCls hid rfl rfl,
    fun j q hq => by rwa [hchunks], by rw [hchunks]; exact hitChunk, hnotFree, fun _ _ => hitF,
    fun j q hq => ?_, fun j q hq hqF => ⟨?_, fun i hqi => hqF ?_⟩,
    h.rest id it hitF, fun hz => hz, fun _ hq => hq, fun j => ?_, fun hf => ?_, fun hf j q hq => ?_⟩
  · rw [hchunks] at hq
    by_cases hqF : q ∈ F j
    · by_cases hj : j = id
      · subst hj
        rw [Function.update_self]
        rcases List.mem_cons.mp (hF ▸ hqF) with rfl | hql
        · exact .inr (.inl rfl)
        · exact .inl hql
      · rw [Function.update_of_ne hj]
        exact .inl hqF
    · exact .inr (.inr ⟨hq, hqF⟩)
  · -- the successor of `it` is free, so `q` is not it
    have hnext : m.next it ≠ some q := fun e => by
      have hqid : q ∈ F id := (h.chain id).next_mem hitF e
      obtain rfl := h.class_unique hq (h.own id q hqid)
      exact hqF hqid
    exact ⟨rfl, by simp [Items.setPrevOf, hnext], rfl, rfl, rfl, rfl, rfl, rfl, rfl, rfl, rfl, rfl⟩
  · obtain rfl := h.class_unique hq (h.own i q (hsub i q hqi))
    exact hsub _ q hqi
  · by_cases hj : j = id
    · subst hj; rw [hself, if_pos rfl]
    · rw [hne j hj, if_neg hj]
  · simp [Items.setPrevOf, hf it hslots]
  · simp only [Items.setPrevOf]
    split_ifs with hnext
    · rfl
    · by_cases hj : j = id
      · subst hj
        rw [hself] at hq
        exact absurd hq hnext
      · rw [hne j hj] at hq
        exact hf j q hq

/-- A chunk handed out after a page was carved for it. -/
theorem Allocated.afterPage {m m₁ m' : Items} {b b₁ b' : Slab} {F F' : ℕ → List Ptr}
    {size id page : ℕ} {slots : Option Ptr} {it : Ptr}
    (ha : Allocated m₁ m' b₁ b' (Function.update F id
      (splitCells page (b.cls id).size (b.cls id).perslab 0 ++ F id)) F' size id it) (h : SlabRep m b F)
    (hc : PageCarved m m₁ b b₁ id page slots (F id)) :
    Allocated m m' b b' F F' size id it := by
  have hold : ∀ j, ∀ p ∈ (b.cls j).chunks, p.page ≠ page := fun j p hp e => by
    have := h.page_lt hp
    have := hc.page_ge
    omega
  have hsub : ∀ j, (b.cls j).chunks ⊆ (b₁.cls j).chunks := fun j p hp =>
    hc.mem_chunks.mpr (.inl hp)
  -- an old chunk is free after the page was carved only if it was free before
  have hfree : ∀ j, ∀ p ∈ (b.cls j).chunks, p ∈ Function.update F id
      (splitCells page (b.cls id).size (b.cls id).perslab 0 ++ F id) j ↔ p ∈ F j := by
    intro j p hp
    by_cases hj : j = id
    · subst hj
      rw [Function.update_self, List.mem_append, mem_splitCells]
      simp [hold j p hp]
    · rw [Function.update_of_ne hj]
  have hused : ∀ j, ∀ p ∈ (b.cls j).chunks, p ∉ F j → SameAt m m₁ p := fun j p hp hpF =>
    hc.same p (hold j p hp) fun hpid => hpF (h.class_unique hp (h.own id p hpid) ▸ hpid)
  refine ⟨ha.rep, hc.table.trans ha.table, fun j p hp => ha.chunks_subset j (hsub j hp),
    ha.mem_chunks, ha.notFree, fun j hp => ?_, fun j p hp => ?_, fun j p hp hpF => ?_, ha.refcount,
    fun hz => ha.clsid fun p => ?_, fun p hp => ha.unlinked p (hc.unlinked p hp),
    fun j => by rw [ha.requested, hc.requested, hc.requested],
    fun hf => ha.prev fun p hp => ?_, fun hf => ha.front fun j p hp => ?_⟩
  · have hit := ha.wasFree j (hsub j hp)
    rw [Function.update_self, List.mem_append, mem_splitCells] at hit
    exact hit.resolve_left fun hnew => hold j it hp hnew.1
  · rcases ha.free_or_used j p hp with hp | rfl | ⟨hp, hpF⟩
    · exact .inl hp
    · exact .inr (.inl rfl)
    · rcases hc.mem_chunks.mp hp with hp | ⟨rfl, hp⟩
      · exact .inr (.inr ⟨hp, fun hpF' => hpF ((hfree j p hp).mpr hpF')⟩)
      · rw [Function.update_self] at hpF
        exact absurd (List.mem_append_left _ hp) hpF
  · obtain ⟨hs, hn⟩ := ha.used j p (hsub j hp) (fun hp' => hpF ((hfree j p hp).mp hp'))
    exact ⟨(hused j p hp hpF).trans hs, hn⟩
  · rw [hc.clsid, hz]
    split_ifs <;> rfl
  · rw [hc.cls_self] at hp
    exact hc.front hf p hp
  · by_cases hj : j = id
    · subst hj
      rw [hc.cls_self] at hp
      exact hc.front (hf j) p hp
    · rw [hc.cls_of_ne j hj] at hp
      have hpF := h.own j p ((h.chain j).start_mem hp)
      have hpid : p ∉ F id := fun hpid => hj (h.class_unique hpF (h.own id p hpid))
      rw [(hc.same p (hold j p hpF) hpid).prev]
      exact hf j p hp

/-- `do_slabs_alloc` fails when the counter of free chunks is 0 and no page is granted; else
it hands out a chunk that was free or is new. -/
theorem doSlabsAlloc_spec {m : Items} {b : Slab} {F : ℕ → List Ptr} (h : SlabRep m b F) (size : ℕ)
    {id : ℕ} (h1 : 1 ≤ id) (h2 : id ≤ b.powerLargest) :
    ((b.cls id).slCurr = 0 ∧ ¬b.newslabOk id →
      ∃ b', doSlabsAlloc m b size id = .ok (m, b', none) ∧ NothingCarved b b') ∧
    ((b.cls id).slCurr ≠ 0 ∨ b.newslabOk id →
      ∃ m' b' F' it, doSlabsAlloc m b size id = .ok (m', b', some it) ∧
        Allocated m m' b b' F F' size id it) := by
  have hlargest := h.largest
  have hguard : ¬(id < Slab.POWER_SMALLEST ∨ Slab.POWER_LARGEST < id) := by
    unfold Slab.POWER_SMALLEST
    omega
  unfold doSlabsAlloc
  rw [if_neg hguard]
  by_cases hcurr : (b.cls id).slCurr ≠ 0
  · rw [if_pos hcurr]
    exact ⟨fun hno => absurd hno.1 hcurr, fun _ => popSlot_spec h size h2 hcurr⟩
  · rw [if_neg hcurr]
    obtain ⟨hno, hyes⟩ := doSlabsNewslab_spec h h1 h2
    by_cases hok : b.newslabOk id
    · refine ⟨fun hand => absurd hok hand.2, fun _ => ?_⟩
      obtain ⟨m₁, b₁, page, slots, hrun, hcarved, hrep⟩ := hyes hok
      simp only [hrun]
      have hcurr₁ : (b₁.cls id).slCurr ≠ 0 := by
        have hpos := h.perslab id h1 h2
        have hsmall := h.perslab_lt id
        rw [hcarved.cls_self, not_not.mp hcurr, UInt32.zero_add, ← UInt32.toNat_inj.ne,
          UInt32.toNat_ofNat_of_lt' (by show _ < 2 ^ 32; omega)]
        exact hpos.ne'
      rw [if_pos hcurr₁]
      obtain ⟨m', b', F', it, hpop, ha⟩ :=
        popSlot_spec hrep size (by rw [hcarved.table.powerLargest]; exact h2) hcurr₁
      exact ⟨m', b', F', it, hpop, ha.afterPage h hcarved⟩
    · exact ⟨fun _ => by obtain ⟨b', hrun, hb'⟩ := hno hok; exact ⟨b', by rw [hrun], hb'⟩,
        fun hor => absurd hor (not_or.mpr ⟨hcurr, hok⟩)⟩

namespace Slab

/-- A class of the constructor: sizes, and no page. -/
def Fresh (p : SlabClass) : Prop :=
  0 < p.size ∧ p.size < 2 ^ 31 ∧ (0 < p.perslab ∧ p.perslab < 2 ^ 31) ∧
    p = { SlabClass.empty with size := p.size, perslab := p.perslab }

/-- Every class of the constructor's loop holds at least one chunk a page. -/
theorem classesFrom_fresh (set : Settings) (n size : ℕ) (hsize : sizeofBaseItem ≤ size) :
    (classesFrom set n size).length ≤ n ∧ ∀ p ∈ classesFrom set n size, Fresh p := by
  induction n generalizing size with
  | zero => exact ⟨le_rfl, by simp [classesFrom]⟩
  | succ n ih =>
    unfold classesFrom
    split
    case isFalse => exact ⟨Nat.zero_le _, by simp⟩
    case isTrue hle =>
      extract_lets size'
      have hge : size ≤ size' ∧ size' < size + 8 := by
        unfold size' CHUNK_ALION_BYTES
        split <;> omega
      unfold sizeofBaseItem at hsize ih
      obtain ⟨hlen, hall⟩ := ih (size' * 6 / 5) (by omega)
      refine ⟨by simpa using hlen, fun p hp => ?_⟩
      rcases List.mem_cons.mp hp with rfl | hp
      · have hlt := set.itemSizeMax_lt
        exact ⟨by simp; omega, by simp; omega,
          ⟨Nat.div_pos (by omega) (by omega), (Nat.div_le_self _ _).trans_lt hlt⟩, rfl⟩
      · exact hall p hp

theorem cls_mem_tail {b : Slab} {id : ℕ} (h1 : 1 ≤ id) (h : id < b.memBase.length) :
    b.cls id ∈ b.memBase.tail := by
  obtain ⟨i, rfl⟩ : ∃ i, id = i + 1 := ⟨id - 1, by omega⟩
  have hi : i < b.memBase.tail.length := by
    rw [List.length_tail]; omega
  have hget : b.cls (i + 1) = b.memBase.tail[i] := by
    simp [cls, List.getD_eq_getElem?_getD, h]
  rw [hget]
  exact List.getElem_mem hi

theorem build_fresh (limit : ℕ) (set : Settings) (mallocOk : ℕ → Bool) {id : ℕ} (h1 : 1 ≤ id)
    (h2 : id ≤ (build limit set mallocOk).powerLargest) :
    Fresh ((build limit set mallocOk).cls id) := by
  obtain ⟨-, hall⟩ := classesFrom_fresh set (POWER_LARGEST - POWER_SMALLEST)
    (sizeofBaseItem + set.chunkSize) (Nat.le_add_right _ _)
  have hmem := cls_mem_tail h1 (b := build limit set mallocOk) (by simp [build] at h2 ⊢; omega)
  rcases List.mem_append.mp hmem with hp | hp
  · exact hall _ hp
  · rw [List.mem_singleton.mp hp]
    have := set.itemSizeMax_ge
    exact ⟨lt_of_lt_of_le (by decide) this, set.itemSizeMax_lt,
      ⟨Nat.one_pos, Nat.one_lt_two_pow (by decide)⟩, rfl⟩

theorem build_out (limit : ℕ) (set : Settings) (mallocOk : ℕ → Bool) {id : ℕ}
    (h : id = 0 ∨ (build limit set mallocOk).powerLargest < id) :
    (build limit set mallocOk).cls id = .empty := by
  rcases h with rfl | h
  · rfl
  · simp only [build] at h
    rw [cls, List.getD_eq_getElem?_getD, List.getElem?_eq_none (by simp [build]; omega)]
    rfl

/-- A class is fresh or empty, and without a page in both cases. -/
theorem build_cls (limit : ℕ) (set : Settings) (mallocOk : ℕ → Bool) (id : ℕ) :
    (build limit set mallocOk).cls id = { SlabClass.empty with
      size := ((build limit set mallocOk).cls id).size
      perslab := ((build limit set mallocOk).cls id).perslab } := by
  by_cases h : 1 ≤ id ∧ id ≤ (build limit set mallocOk).powerLargest
  · exact (build_fresh limit set mallocOk h.1 h.2).2.2.2
  · rw [build_out limit set mallocOk (by omega)]

theorem build_size_lt (limit : ℕ) (set : Settings) (mallocOk : ℕ → Bool) (id : ℕ) :
    ((build limit set mallocOk).cls id).size < 2 ^ 31 := by
  by_cases h : 1 ≤ id ∧ id ≤ (build limit set mallocOk).powerLargest
  · exact (build_fresh limit set mallocOk h.1 h.2).2.1
  · rw [build_out limit set mallocOk (by omega)]
    decide

theorem build_perslab_lt (limit : ℕ) (set : Settings) (mallocOk : ℕ → Bool) (id : ℕ) :
    ((build limit set mallocOk).cls id).perslab < 2 ^ 31 := by
  by_cases h : 1 ≤ id ∧ id ≤ (build limit set mallocOk).powerLargest
  · exact (build_fresh limit set mallocOk h.1 h.2).2.2.1.2
  · rw [build_out limit set mallocOk (by omega)]
    decide

theorem build_rep (limit : ℕ) (set : Settings) (mallocOk : ℕ → Bool) (m : Items) :
    SlabRep m (build limit set mallocOk) fun _ => [] := by
  have hc := build_cls limit set mallocOk
  refine ⟨by simp [build], ?_, fun id h1 h2 => (build_fresh limit set mallocOk h1 h2).2.2.1.1,
    build_perslab_lt limit set mallocOk, fun id h1 h2 => (build_fresh limit set mallocOk h1 h2).1,
      rfl, fun id => ?_,
    fun id page hp => ?_, fun id => ?_, fun id id' page hp => ?_, fun id => ?_, fun id => ?_,
    by simp, by simp⟩
  · obtain ⟨hlen, -⟩ := classesFrom_fresh set (POWER_LARGEST - POWER_SMALLEST)
      (sizeofBaseItem + set.chunkSize) (Nat.le_add_right _ _)
    simp only [build, POWER_LARGEST, POWER_SMALLEST] at hlen ⊢
    omega
  all_goals rw [hc] at *
  · exact SlabClass.Listed.empty.congr rfl rfl rfl rfl
  · simp [SlabClass.empty] at hp
  · exact List.nodup_nil
  · simp [SlabClass.empty] at hp
  · rfl
  · rfl

end Slab

/-- The allocator when no chunk is in use yet. -/
structure SlabFresh (m : Items) (b : Slab) (F : ℕ → List Ptr) : Prop where
  rep : SlabRep m b F
  clsid : ∀ p, m.slabsClsid p = 0
  allFree : ∀ id, ∀ p ∈ (b.cls id).chunks, p ∈ F id
  requested : ∀ id, (b.cls id).requested = 0
  unlinked : ∀ p, m.itemFlag p &&& Slab.ITEM_LINKED = 0
  front : ∀ id p, (b.cls id).slots = some p → m.prev p = none

theorem slabsPreallocate_spec {m : Items} {b : Slab} {F : ℕ → List Ptr} (h : SlabFresh m b F)
    {n i : ℕ} (h1 : 1 ≤ i) (hn : i + n ≤ b.powerLargest + 1) {m' : Items} {b' : Slab}
    (hrun : slabsPreallocate n i m b = some (m', b')) :
    (∃ F', SlabFresh m' b' F') ∧ b.SameTable b' := by
  induction n generalizing m b F i with
  | zero => cases hrun; exact ⟨⟨F, h⟩, .refl _⟩
  | succ n ih =>
    obtain ⟨hno, hyes⟩ := doSlabsNewslab_spec h.rep h1 (by omega : i ≤ b.powerLargest)
    rw [slabsPreallocate] at hrun
    by_cases hok : b.newslabOk i
    · obtain ⟨m₁, b₁, page, slots, hnew, hc, hrep⟩ := hyes hok
      rw [hnew] at hrun
      have hfree : ∀ j, ∀ p ∈ (b₁.cls j).chunks, p ∈ Function.update F i
          (splitCells page (b.cls i).size (b.cls i).perslab 0 ++ F i) j := by
        intro j p hp
        by_cases hj : j = i
        · subst hj
          rw [Function.update_self, List.mem_append]
          rcases hc.mem_chunks.mp hp with hp | ⟨-, hp⟩
          · exact .inr (h.allFree j p hp)
          · exact .inl hp
        · rw [Function.update_of_ne hj]
          exact h.allFree j p ((hc.mem_chunks.mp hp).resolve_right fun hand => hj hand.1)
      have hfront : ∀ j p, (b₁.cls j).slots = some p → m₁.prev p = none := by
        intro j p hp
        by_cases hj : j = i
        · subst hj
          rw [hc.cls_self] at hp
          exact hc.front (h.front j) p hp
        · rw [hc.cls_of_ne j hj] at hp
          have hpF := (h.rep.chain j).start_mem hp
          rw [(hc.same p (fun e => ?_) fun hp' => hj ?_).prev]
          · exact h.front j p hp
          · have := h.rep.page_lt (h.rep.own j p hpF)
            have := hc.page_ge
            omega
          · exact h.rep.class_unique (h.rep.own j p hpF) (h.rep.own i p hp')
      obtain ⟨hfresh, htable⟩ := ih ⟨hrep, fun p => by rw [hc.clsid, h.clsid, ite_self], hfree,
        fun j => by rw [hc.requested, h.requested], fun p => hc.unlinked p (h.unlinked p), hfront⟩ (by omega)
        (by rw [hc.table.powerLargest]; omega) hrun
      exact ⟨hfresh, hc.table.trans htable⟩
    · obtain ⟨b₁, hnew, -⟩ := hno hok
      rw [hnew] at hrun
      simp at hrun

theorem Slab.build_slabFresh (limit : ℕ) (set : Settings) (mallocOk : ℕ → Bool) :
    SlabFresh Items.zero (Slab.build limit set mallocOk) fun _ => [] where
  rep := build_rep limit set mallocOk _
  clsid _ := rfl
  allFree id p hp := by
    rw [build_cls] at hp
    simp [SlabClass.chunks, SlabClass.empty] at hp
  requested id := by rw [build_cls]; rfl
  unlinked p := by
    change (0 : UInt8) &&& ITEM_LINKED = 0
    decide
  front _ _ _ := rfl

/-- A server that starts has all its chunks free. -/
theorem Slab.init_spec {limit : ℕ} {set : Settings} {mallocOk : ℕ → Bool} {m : Items}
    (h : Slab.init limit set mallocOk = some (m, b)) :
    (∃ F, SlabFresh m b F) ∧ (Slab.build limit set mallocOk).SameTable b := by
  refine slabsPreallocate_spec (Slab.build_slabFresh limit set mallocOk) le_rfl ?_ h
  simp only [Slab.build, POWER_SMALLEST]
  omega

end MiniMemcached
