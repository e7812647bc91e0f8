import MiniMemcached.Cache.Arena
import MiniMemcached.Lists.DoublyLinked
import MiniMemcached.Runs.Steps

/-! The slab allocator conserves its chunks. A client takes chunks, writes what it
likes into them, and returns them with `slabs_clsid` set to 0. Whatever it does,
the freelist of a class is a stack linked both ways, and each chunk of the class
is either on it or with the client. -/

namespace MiniMemcached

open MiniMemcached.Lists Runs

/-- The memory without its reference counters, which the allocator does not read. -/
def Items.unreferenced (m : Items) : Items := { m with refcount := fun _ => 0 }

theorem doSlabsFree_unreferenced (m : Items) (b : Slab) (ptr : Ptr) (size id : ℕ) :
    doSlabsFree m.unreferenced b ptr size id =
      ((doSlabsFree m b ptr size id).1.unreferenced, (doSlabsFree m b ptr size id).2) := by
  unfold doSlabsFree
  by_cases h : m.slabsClsid ptr ≠ 0 ∨ id < Slab.POWER_SMALLEST ∨ Slab.POWER_LARGEST < id
  · rw [if_pos h, if_pos (show m.unreferenced.slabsClsid ptr ≠ 0 ∨ _ from h)]
  · rw [if_neg h, if_neg (show ¬(m.unreferenced.slabsClsid ptr ≠ 0 ∨ _) from h)]
    rfl

theorem splitSlabPage_unreferenced (id n : ℕ) (m : Items) (b : Slab) (ptr : Ptr) :
    splitSlabPageIntoFreelist id n m.unreferenced b ptr =
      ((splitSlabPageIntoFreelist id n m b ptr).1.unreferenced,
        (splitSlabPageIntoFreelist id n m b ptr).2) := by
  induction n generalizing m b ptr with
  | zero => rfl
  | succ n ih => simp only [splitSlabPageIntoFreelist, doSlabsFree_unreferenced, ih]

theorem clearPage_unreferenced (m : Items) (page : ℕ) :
    m.unreferenced.clearPage page = (m.clearPage page).unreferenced := by
  unfold Items.clearPage Items.unreferenced
  simp

theorem doSlabsNewslab_unreferenced (m : Items) (b : Slab) (id : ℕ) :
    doSlabsNewslab m.unreferenced b id =
      ((doSlabsNewslab m b id).1.unreferenced, (doSlabsNewslab m b id).2) := by
  unfold doSlabsNewslab
  extract_lets p len
  split_ifs
  · rfl
  · rcases growSlabList b id with ⟨b₁, ok⟩
    cases ok with
    | false => rfl
    | true =>
      rcases hmalloc : b₁.malloc with ⟨b₂, page⟩
      cases page with
      | none => simp only [hmalloc]
      | some page => simp only [hmalloc, clearPage_unreferenced, splitSlabPage_unreferenced]

theorem popSlot_unreferenced (m : Items) (b : Slab) (size id : ℕ) :
    popSlot m.unreferenced b size id =
      (popSlot m b size id).map fun r => (r.1.unreferenced, r.2) := by
  unfold popSlot
  extract_lets p
  cases p.slots <;> rfl

theorem doSlabsAlloc_unreferenced (m : Items) (b : Slab) (size id : ℕ) :
    doSlabsAlloc m.unreferenced b size id =
      (doSlabsAlloc m b size id).map fun r => (r.1.unreferenced, r.2) := by
  unfold doSlabsAlloc
  rw [doSlabsNewslab_unreferenced]
  split_ifs
  · rfl
  · exact popSlot_unreferenced m b size id
  · rcases doSlabsNewslab m b id with ⟨m₁, b₁, ok⟩
    cases ok with
    | false => rfl
    | true =>
      show (if _ then _ else _) = Except.map _ (if _ then _ else _)
      split_ifs
      · exact popSlot_unreferenced m₁ b₁ size id
      · rfl

theorem exists_alloc_of_unreferenced {m m₀ : Items} {b b' : Slab} {size id : ℕ} {r : Option Ptr}
    (h : doSlabsAlloc m.unreferenced b size id = .ok (m₀, b', r)) :
    ∃ m', doSlabsAlloc m b size id = .ok (m', b', r) ∧ m'.unreferenced = m₀ := by
  rw [doSlabsAlloc_unreferenced] at h
  cases hrun : doSlabsAlloc m b size id with
  | error e => simp [hrun, Except.map] at h
  | ok x =>
    obtain ⟨m', b₁, r₁⟩ := x
    rw [hrun] at h
    cases h
    exact ⟨m', rfl, rfl⟩

/-! ### Both directions of a freelist -/

/-- A chunk that is freed is the top of the stack. -/
theorem doSlabsFree_stack {m : Items} {b : Slab} {ptr : Ptr} {id : ℕ} (h1 : 1 ≤ id)
    (h2 : id ≤ Slab.POWER_LARGEST) (hid : id < b.memBase.length) (hclsid : m.slabsClsid ptr = 0)
    {L : List Ptr} (h : Stack m.next m.prev (b.cls id).slots L) (hnot : ptr ∉ L) (size : ℕ) :
    Stack (doSlabsFree m b ptr size id).1.next (doSlabsFree m b ptr size id).1.prev
      ((doSlabsFree m b ptr size id).2.cls id).slots (ptr :: L) := by
  have hguard : ¬(m.slabsClsid ptr ≠ 0 ∨ id < Slab.POWER_SMALLEST ∨ Slab.POWER_LARGEST < id) := by
    unfold Slab.POWER_SMALLEST
    simp only [hclsid, ne_eq, not_true_eq_false, false_or]
    omega
  unfold doSlabsFree
  rw [if_neg hguard, Slab.cls_setCls_self hid]
  exact h.push hnot

theorem doSlabsFree_cls (m : Items) {b : Slab} {id : ℕ} (hid : id < b.memBase.length) (ptr : Ptr)
    (size : ℕ) :
    ((doSlabsFree m b ptr size id).2.cls id).size = (b.cls id).size ∧
      (doSlabsFree m b ptr size id).2.memBase.length = b.memBase.length := by
  unfold doSlabsFree
  split_ifs
  · exact ⟨rfl, rfl⟩
  · exact ⟨by rw [Slab.cls_setCls_self hid], Slab.setCls_length ..⟩

theorem doSlabsFree_chunks {m : Items} {b : Slab} {ptr : Ptr} {size id : ℕ}
    (hid : id < b.memBase.length) (j : ℕ) :
    ((doSlabsFree m b ptr size id).2.cls j).chunks = (b.cls j).chunks := by
  unfold doSlabsFree
  split_ifs
  · rfl
  · by_cases hj : j = id
    · subst hj
      rw [Slab.cls_setCls_self hid]
      rfl
    · rw [Slab.cls_setCls_of_ne hj]

theorem splitSlabPage_stack {id : ℕ} (h1 : 1 ≤ id) (h2 : id ≤ Slab.POWER_LARGEST) (n : ℕ) (m : Items)
    (b : Slab) (page off : ℕ) (L : List Ptr) (hid : id < b.memBase.length)
    (hsize : 0 < (b.cls id).size) (hclsid : ∀ p : Ptr, p.page = page → m.slabsClsid p = 0)
    (h : Stack m.next m.prev (b.cls id).slots L) (hfresh : ∀ p ∈ L, p.page = page → p.off < off) :
    (∃ L', Stack (splitSlabPageIntoFreelist id n m b ⟨page, off⟩).1.next
      (splitSlabPageIntoFreelist id n m b ⟨page, off⟩).1.prev
      ((splitSlabPageIntoFreelist id n m b ⟨page, off⟩).2.cls id).slots L') ∧
    id < (splitSlabPageIntoFreelist id n m b ⟨page, off⟩).2.memBase.length := by
  induction n generalizing m b off L with
  | zero => exact ⟨⟨L, h⟩, hid⟩
  | succ n ih =>
    have hnot : (⟨page, off⟩ : Ptr) ∉ L := fun hmem => by simpa using hfresh _ hmem rfl
    obtain ⟨hsz, hlen⟩ := doSlabsFree_cls m hid ⟨page, off⟩ 0
    apply ih _ _ _ (⟨page, off⟩ :: L) (by omega) (by omega)
    · intro p hp
      unfold doSlabsFree
      split_ifs <;> exact hclsid p hp
    · exact doSlabsFree_stack h1 h2 hid (hclsid _ rfl) h hnot 0
    · intro p hp hpage
      rcases List.mem_cons.mp hp with rfl | hp
      · show off < off + (b.cls id).size
        omega
      · have hlow := hfresh p hp hpage
        show p.off < off + (b.cls id).size
        omega

/-- The freelist of a class that was given a page. -/
theorem doSlabsNewslab_stack {m m' : Items} {b b' : Slab} {id : ℕ} (h1 : 1 ≤ id)
    (h2 : id ≤ Slab.POWER_LARGEST) (hid : id < b.memBase.length) (hsize : 0 < (b.cls id).size)
    (hlisted : (b.cls id).Listed) {L : List Ptr} (h : Stack m.next m.prev (b.cls id).slots L)
    (hfresh : ∀ p ∈ L, p.page < b.mallocCalls) (hrun : doSlabsNewslab m b id = (m', b', true)) :
    ∃ L', Stack m'.next m'.prev (b'.cls id).slots L' := by
  obtain ⟨hgrow, -, -⟩ := growSlabList_spec b hid hlisted
  unfold doSlabsNewslab at hrun
  extract_lets p len at hrun
  split_ifs at hrun with hlimit
  · simp at hrun
  · rcases hg : growSlabList b id with ⟨b₁, ok⟩
    rw [hg] at hgrow hrun
    cases ok with
    | false => simp at hrun
    | true =>
      simp only at hgrow hrun
      by_cases hok : b₁.mallocOk b₁.mallocCalls = true
      · simp only [Slab.malloc, hok, if_true] at hrun
        have hcalls := hgrow.calls
        have hlen := hgrow.table.length
        have hold : ∀ q ∈ L, q.page ≠ b₁.mallocCalls := fun q hq e => by
          have := hfresh q hq
          omega
        obtain ⟨⟨L', hL'⟩, hid'⟩ := splitSlabPage_stack h1 h2 p.perslab (m.clearPage b₁.mallocCalls)
          { b₁ with mallocCalls := b₁.mallocCalls + 1 } b₁.mallocCalls 0 L (hlen ▸ hid)
          (by rw [show Slab.cls { b₁ with mallocCalls := b₁.mallocCalls + 1 } id = _ from hgrow.cls id]
              exact hsize)
          (fun q hq => by simp [Items.clearPage, hq])
          (by
            rw [show Slab.cls { b₁ with mallocCalls := b₁.mallocCalls + 1 } id = _ from hgrow.cls id]
            exact h.congr (fun q hq => by simp [Items.clearPage, hold q hq])
              fun q hq => by simp [Items.clearPage, hold q hq])
          (fun q hq hqp => absurd hqp (hold q hq))
        obtain ⟨rfl, hb⟩ := Prod.mk.inj hrun
        obtain ⟨rfl, -⟩ := Prod.mk.inj hb
        refine ⟨L', ?_⟩
        show Stack _ _ (Slab.cls (Slab.setCls _ id _) id).slots L'
        rw [Slab.cls_setCls_self hid']
        exact hL'
      · simp [Slab.malloc, hok] at hrun

/-- The chunks of a class are at different addresses. -/
theorem SlabRep.chunks_nodup {m : Items} {b : Slab} {F : ℕ → List Ptr} (h : SlabRep m b F) (id : ℕ) :
    (b.cls id).chunks.Nodup := by
  refine List.nodup_flatMap.mpr ⟨fun page hpage => ?_, ?_⟩
  · by_cases hper : (b.cls id).perslab = 0
    · simp [hper]
    · have hmem : (⟨page, 0⟩ : Ptr) ∈ (b.cls id).chunks :=
        SlabClass.mem_chunks.mpr ⟨hpage, 0, Nat.pos_of_ne_zero hper, (Nat.zero_mul _).symm⟩
      obtain ⟨h1, h2⟩ := h.mem_range hmem
      refine List.nodup_range.map fun i j hij => ?_
      exact Nat.eq_of_mul_eq_mul_right (h.size id h1 h2) (Ptr.mk.inj hij).2
  · refine (h.nodup id).imp fun hne p hp hp' => ?_
    obtain ⟨i, -, rfl⟩ := List.mem_map.mp hp
    obtain ⟨j, -, hpj⟩ := List.mem_map.mp hp'
    exact hne (Ptr.mk.inj hpj).1.symm

theorem SlabRep.unreferenced {m : Items} {b : Slab} {F : ℕ → List Ptr} (h : SlabRep m b F) :
    SlabRep m.unreferenced b F :=
  { h with
    chain := h.chain
    rest := fun _ _ _ => rfl }

/-- Each freelist is linked both ways. -/
def Stacked (m : Items) (b : Slab) (F : ℕ → List Ptr) : Prop :=
  ∀ id, Stack m.next m.prev (b.cls id).slots (F id)

namespace Stacked

variable {m m' : Items} {b b' : Slab} {F F' : ℕ → List Ptr} {id size : ℕ}

/-- The lists of a stack are those that `next` gives. -/
theorem of_exists (hrep : SlabRep m b F) (h : ∀ id, ∃ L, Stack m.next m.prev (b.cls id).slots L) :
    Stacked m b F := by
  intro id
  obtain ⟨L, hL⟩ := h id
  rwa [hL.forward.unique (hrep.chain id)] at hL

theorem popSlot (h : Stacked m b F) (hrep : SlabRep m b F) (hid : id < b.memBase.length) {it : Ptr}
    (hrun : MiniMemcached.popSlot m b size id = .ok (m', b', some it)) (hrep' : SlabRep m' b' F') :
    Stacked m' b' F' := by
  apply of_exists hrep'
  intro j
  unfold MiniMemcached.popSlot at hrun
  cases hslots : (b.cls id).slots with
  | none => simp [hslots] at hrun
  | some top =>
    simp only [hslots, Except.ok.injEq, Prod.mk.injEq, Option.some.injEq] at hrun
    obtain ⟨rfl, rfl, rfl⟩ := hrun
    have hstack := h id
    rw [hslots] at hstack
    cases hF : F id with
    | nil =>
      rw [hF] at hstack
      cases hstack.forward
    | cons a L =>
      rw [hF] at hstack
      obtain rfl : top = a := Option.some.inj hstack.forward.1
      by_cases hj : j = id
      · subst hj
        rw [Slab.cls_setCls_self hid]
        exact ⟨L, hstack.pop⟩
      · rw [Slab.cls_setCls_of_ne hj]
        refine ⟨F j, (h j).congr (fun _ _ => rfl) fun p hp => if_neg fun hnext => hj ?_⟩
        have hpF := (hrep.chain id).next_mem (hF ▸ List.mem_cons_self ..) hnext
        exact hrep.class_unique (hrep.own j p hp) (hrep.own id p hpF)

theorem newslab (h : Stacked m b F) (hrep : SlabRep m b F) (h1 : 1 ≤ id) (h2 : id ≤ b.powerLargest)
    (hrun : doSlabsNewslab m b id = (m', b', true)) (hrep' : SlabRep m' b' F') : Stacked m' b' F' := by
  apply of_exists hrep'
  intro j
  by_cases hj : j = id
  · subst hj
    exact doSlabsNewslab_stack h1 (h2.trans hrep.largest) (hrep.id_lt h2) (hrep.size j h1 h2)
      (hrep.listed j) (h j)
      (fun p hp => hrep.page_lt (hrep.own j p hp)) hrun
  · obtain ⟨hno, hyes⟩ := doSlabsNewslab_spec hrep h1 h2
    by_cases hok : b.newslabOk id
    · obtain ⟨m₁, b₁, page, slots, hrun₁, hc, -⟩ := hyes hok
      obtain ⟨rfl, hb⟩ := Prod.mk.inj (hrun₁.symm.trans hrun)
      obtain ⟨rfl, -⟩ := Prod.mk.inj hb
      rw [hc.cls_of_ne j hj]
      have hsame : ∀ p ∈ F j, SameAt m m₁ p := fun p hp => hc.same p
        (fun e => by
          have := hrep.page_lt (hrep.own j p hp)
          have := hc.page_ge
          omega)
        fun hp' => hj (hrep.class_unique (hrep.own j p hp) (hrep.own id p hp'))
      exact ⟨F j, (h j).congr (fun p hp => (hsame p hp).next) fun p hp => (hsame p hp).prev⟩
    · obtain ⟨b₁, hrun₁, -⟩ := hno hok
      simp [hrun₁] at hrun

theorem alloc (h : Stacked m b F) (hrep : SlabRep m b F) (h1 : 1 ≤ id) (h2 : id ≤ b.powerLargest)
    {r : Option Ptr} (hrun : doSlabsAlloc m b size id = .ok (m', b', r)) (hrep' : SlabRep m' b' F') :
    Stacked m' b' F' := by
  have hguard : ¬(id < Slab.POWER_SMALLEST ∨ Slab.POWER_LARGEST < id) := by
    have := hrep.largest
    unfold Slab.POWER_SMALLEST
    omega
  obtain ⟨hfail, hsuccess⟩ := doSlabsAlloc_spec hrep size h1 h2
  by_cases hnone : (b.cls id).slCurr = 0 ∧ ¬b.newslabOk id
  · obtain ⟨b₁, hrun₁, hb⟩ := hfail hnone
    rw [hrun₁] at hrun
    cases hrun
    exact of_exists hrep' fun j => ⟨F j, by rw [hb.cls j]; exact h j⟩
  · obtain ⟨m₁, b₁, F₁, it, hrun₁, -⟩ := hsuccess (by tauto)
    rw [hrun₁] at hrun
    cases hrun
    unfold doSlabsAlloc at hrun₁
    rw [if_neg hguard] at hrun₁
    by_cases hcurr : (b.cls id).slCurr ≠ 0
    · rw [if_pos hcurr] at hrun₁
      exact h.popSlot hrep (hrep.id_lt h2) hrun₁ hrep'
    · rw [if_neg hcurr] at hrun₁
      obtain ⟨hno, hyes⟩ := doSlabsNewslab_spec hrep h1 h2
      by_cases hok : b.newslabOk id
      · obtain ⟨m₂, b₂, page, slots, hnew, hc, hrep₂⟩ := hyes hok
        have hstack := h.newslab hrep h1 h2 hnew hrep₂
        rw [hnew] at hrun₁
        simp only at hrun₁
        split_ifs at hrun₁ with hcurr₂
        · exact hstack.popSlot hrep₂ (hrep₂.id_lt (hc.table.powerLargest ▸ h2)) hrun₁ hrep'
        · simp at hrun₁
      · obtain ⟨b₂, hnew, -⟩ := hno hok
        rw [hnew] at hrun₁
        simp at hrun₁

end Stacked

/-- A chunk that is freed is the first one of its class again. -/
theorem SlabRep.freed {m : Items} {b : Slab} {F : ℕ → List Ptr} (h : SlabRep m b F) {ptr : Ptr}
    {id : ℕ} (h1 : 1 ≤ id) (h2 : id ≤ b.powerLargest) (hchunk : ptr ∈ (b.cls id).chunks)
    (hnot : ptr ∉ F id) (hrest : m.refcount ptr = 0) (hclsid : m.slabsClsid ptr = 0) (size : ℕ) :
    SlabRep (doSlabsFree m b ptr size id).1 (doSlabsFree m b ptr size id).2
      (Function.update F id (ptr :: F id)) := by
  have hid := h.id_lt h2
  have hguard : ¬(m.slabsClsid ptr ≠ 0 ∨ id < Slab.POWER_SMALLEST ∨ Slab.POWER_LARGEST < id) := by
    have := h.largest
    unfold Slab.POWER_SMALLEST
    simp only [hclsid, ne_eq, not_true_eq_false, false_or]
    omega
  have hother : ∀ j, j ≠ id → ptr ∉ F j := fun j hj hp => hj (h.class_unique (h.own j ptr hp) hchunk)
  unfold doSlabsFree
  rw [if_neg hguard]
  refine h.setFreelist h2 rfl ((h.chain id).push hnot) ?_ ?_ ?_ fun j hj q hq => ⟨?_, rfl⟩
  · rw [List.length_cons, UInt32.ofNat_add, ← h.count]
    rfl
  · exact List.forall_mem_cons.mpr ⟨hchunk, h.own id⟩
  · exact List.forall_mem_cons.mpr ⟨hrest, h.rest id⟩
  · exact Function.update_of_ne (ne_of_mem_of_not_mem hq (hother j hj)) _ _

theorem Stacked.freed {m : Items} {b : Slab} {F : ℕ → List Ptr} (h : Stacked m b F)
    (hrep : SlabRep m b F) {ptr : Ptr} {id : ℕ} (h1 : 1 ≤ id) (h2 : id ≤ b.powerLargest)
    (hchunk : ptr ∈ (b.cls id).chunks) (hnot : ptr ∉ F id) (hclsid : m.slabsClsid ptr = 0)
    (size : ℕ) {F' : ℕ → List Ptr} (hrep' : SlabRep (doSlabsFree m b ptr size id).1
      (doSlabsFree m b ptr size id).2 F') :
    Stacked (doSlabsFree m b ptr size id).1 (doSlabsFree m b ptr size id).2 F' := by
  apply of_exists hrep'
  intro j
  by_cases hj : j = id
  · subst hj
    exact ⟨_, doSlabsFree_stack h1 (h2.trans hrep.largest) (hrep.id_lt h2) hclsid (h j) hnot size⟩
  · have hother : ptr ∉ F j := fun hp => hj (hrep.class_unique (hrep.own j ptr hp) hchunk)
    -- the old top of the class is in no other freelist
    have htop : ∀ p ∈ F j, (b.cls id).slots ≠ some p := fun p hp hslots => hj
      (hrep.class_unique (hrep.own j p hp) (hrep.own id p ((hrep.chain id).start_mem hslots)))
    unfold doSlabsFree
    split_ifs
    · exact ⟨F j, h j⟩
    · rw [Slab.cls_setCls_of_ne hj]
      refine ⟨F j, (h j).congr (fun p hp => ?_) fun p hp => ?_⟩
      · exact Function.update_of_ne (ne_of_mem_of_not_mem hp hother) _ _
      · show (if _ then _ else _) = _
        rw [if_neg (htop p hp)]
        exact Function.update_of_ne (ne_of_mem_of_not_mem hp hother) _ _

theorem slabsPreallocate_stacked {m m' : Items} {b b' : Slab} {F : ℕ → List Ptr}
    (h : SlabFresh m b F) (hst : Stacked m b F) {n i : ℕ} (h1 : 1 ≤ i)
    (hn : i + n ≤ b.powerLargest + 1) (hrun : slabsPreallocate n i m b = some (m', b')) :
    ∃ F', SlabFresh m' b' F' ∧ Stacked m' b' F' := by
  induction n generalizing m b F i with
  | zero =>
    cases hrun
    exact ⟨F, h, hst⟩
  | succ n ih =>
    rw [slabsPreallocate] at hrun
    rcases hnew : doSlabsNewslab m b i with ⟨m₁, b₁, ok⟩
    rw [hnew] at hrun
    cases ok with
    | false => simp at hrun
    | true =>
      have hone : slabsPreallocate 1 i m b = some (m₁, b₁) := by simp [slabsPreallocate, hnew]
      obtain ⟨⟨F₁, hfresh⟩, htable⟩ := slabsPreallocate_spec h h1 (by omega) hone
      have hst₁ := hst.newslab h.rep h1 (by omega) hnew hfresh.rep
      exact ih hfresh hst₁ (by omega) (by rw [htable.powerLargest]; omega) hrun

/-! ### The allocator and its client -/

/-- The allocator, and the chunks of each class that the client holds. -/
structure Arena where
  items : Items
  slab : Slab
  allocated : ℕ → List Ptr

/-- What a client does: calls of `slabs_alloc` and `slabs_free`, and writes to its chunks
in between. -/
inductive ArenaAction
  | alloc (size id : ℕ)
  | free (ptr : Ptr) (size id : ℕ)
  | write (m : Items)

namespace Arena

def step (st : Arena) : ArenaAction → Result Arena
  | .alloc size id =>
    doSlabsAlloc st.items st.slab size id >>= fun r =>
      .ok { items := r.1
            slab := r.2.1
            allocated := Function.update st.allocated id (r.2.2.toList ++ st.allocated id) }
  | .free ptr size id =>
    let r := doSlabsFree st.items st.slab ptr size id
    .ok { items := r.1
          slab := r.2
          allocated := Function.update st.allocated id ((st.allocated id).erase ptr) }
  | .write m => .ok { st with items := m }

/-- The client asks for classes of the table, returns chunks that it holds with
`slabs_clsid` set to 0, and writes to no other chunks. -/
def Lawful (st : Arena) : ArenaAction → Prop
  | .alloc _ id => 1 ≤ id ∧ id ≤ st.slab.powerLargest
  | .free ptr _ id => 1 ≤ id ∧ id ≤ st.slab.powerLargest ∧ ptr ∈ st.allocated id ∧
    st.items.slabsClsid ptr = 0
  | .write m => ∀ p, (∀ id, p ∉ st.allocated id) → SameAt st.items m p

/-- The allocator as its constructor leaves it. -/
def start (m : Items) (b : Slab) : Arena where
  items := m
  slab := b
  allocated _ := []

/-- The freelists `F` are stacks linked both ways, and a chunk of a class is once on its
freelist or once with the client. The counter of a freelist wraps around. -/
structure Conserved (st : Arena) (F : ℕ → List Ptr) : Prop where
  freelist : Stacked st.items st.slab F
  count : ∀ id, (st.slab.cls id).slCurr = UInt32.ofNat (F id).length
  counted : ∀ id, (F id).length < 2 ^ 32 → (F id).length = (st.slab.cls id).slCurr.toNat
  perm : ∀ id, (F id ++ st.allocated id).Perm (st.slab.cls id).chunks
  nodup : ∀ id, (st.slab.cls id).chunks.Nodup
  length : ∀ id, (st.slab.cls id).chunks.length = (st.slab.cls id).slabs.toNat * (st.slab.cls id).perslab
  disjoint : ∀ id id' p, p ∈ (st.slab.cls id).chunks → p ∈ (st.slab.cls id').chunks → id = id'

/-- What the steps of a client keep. -/
structure Inv (st : Arena) (F : ℕ → List Ptr) : Prop where
  rep : SlabRep st.items.unreferenced st.slab F
  stacked : Stacked st.items.unreferenced st.slab F
  nodup : ∀ id, (st.allocated id).Nodup
  own : ∀ id, ∀ p ∈ st.allocated id, p ∈ (st.slab.cls id).chunks
  apart : ∀ id, ∀ p ∈ st.allocated id, p ∉ F id
  cover : ∀ id, ∀ p ∈ (st.slab.cls id).chunks, p ∈ F id ∨ p ∈ st.allocated id

namespace Inv

variable {st st' : Arena} {F : ℕ → List Ptr}

/-- A client holds no free chunk, of whatever class. -/
theorem notFree (h : Inv st F) {id j : ℕ} {p : Ptr} (hp : p ∈ st.allocated id) : p ∉ F j := by
  intro hpF
  obtain rfl := h.rep.class_unique (h.rep.own j p hpF) (h.own id p hp)
  exact h.apart _ p hp hpF

theorem alloc (h : Inv st F) {size id : ℕ} (h1 : 1 ≤ id) (h2 : id ≤ st.slab.powerLargest) :
    ∃ st' F', st.step (.alloc size id) = .ok st' ∧ Inv st' F' := by
  obtain ⟨hfail, hsuccess⟩ := doSlabsAlloc_spec h.rep size h1 h2
  by_cases hnone : (st.slab.cls id).slCurr = 0 ∧ ¬st.slab.newslabOk id
  · obtain ⟨b', hrun₀, hb⟩ := hfail hnone
    obtain ⟨m', hrun, hm⟩ := exists_alloc_of_unreferenced hrun₀
    have hrep : SlabRep m'.unreferenced b' F := hm ▸ h.rep.nothingCarved hb
    refine ⟨⟨m', b', Function.update st.allocated id (st.allocated id)⟩, F,
      by rw [Arena.step, hrun]; rfl, ?_⟩
    rw [Function.update_eq_self]
    exact {
      rep := hrep
      stacked := hm ▸ h.stacked.alloc h.rep h1 h2 hrun₀ (hm ▸ hrep)
      nodup := h.nodup
      own := fun j p hp => hb.chunks j ▸ h.own j p hp
      apart := h.apart
      cover := fun j p hp => h.cover j p (hb.chunks j ▸ hp) }
  · obtain ⟨m₀, b', F', it, hrun₀, ha⟩ := hsuccess (by tauto)
    obtain ⟨m', hrun, hm⟩ := exists_alloc_of_unreferenced hrun₀
    have hrep : SlabRep m'.unreferenced b' F' := hm ▸ ha.rep
    have hheld : ∀ j, ∀ p ∈ st.allocated j, p ∉ F j := h.apart
    -- the chunk was free or is new, so the client does not hold it
    have hnew : ∀ j, it ∉ st.allocated j := fun j hit =>
      h.notFree hit (ha.wasFree j (h.own j it hit))
    have hmem : ∀ j p, p ∈ Function.update st.allocated id (it :: st.allocated id) j ↔
        j = id ∧ p = it ∨ p ∈ st.allocated j := by
      intro j p
      by_cases hj : j = id
      · subst hj; simp
      · simp [hj]
    refine ⟨⟨m', b', Function.update st.allocated id (it :: st.allocated id)⟩, F',
      by rw [Arena.step, hrun]; rfl, ?_⟩
    exact {
      rep := hrep
      stacked := hm ▸ h.stacked.alloc h.rep h1 h2 hrun₀ ha.rep
      nodup := fun j => by
        by_cases hj : j = id
        · subst hj
          show (Function.update st.allocated j _ j).Nodup
          rw [Function.update_self]
          exact List.nodup_cons.mpr ⟨hnew j, h.nodup j⟩
        · show (Function.update st.allocated id _ j).Nodup
          rw [Function.update_of_ne hj]
          exact h.nodup j
      own := fun j p hp => by
        rcases (hmem j p).mp hp with ⟨rfl, rfl⟩ | hp
        · exact ha.mem_chunks
        · exact ha.chunks_subset j (h.own j p hp)
      apart := fun j p hp => by
        rcases (hmem j p).mp hp with ⟨rfl, rfl⟩ | hp
        · exact ha.notFree _
        · exact (ha.used j p (h.own j p hp) (hheld j p hp)).2 j
      cover := fun j p hp => by
        rcases ha.free_or_used j p hp with hpF | rfl | ⟨hpc, hpF⟩
        · exact .inl hpF
        · exact .inr ((hmem j p).mpr (.inl ⟨ha.rep.class_unique hp ha.mem_chunks, rfl⟩))
        · exact .inr ((hmem j p).mpr (.inr ((h.cover j p hpc).resolve_left hpF))) }

theorem free (h : Inv st F) {ptr : Ptr} {id : ℕ} (h1 : 1 ≤ id) (h2 : id ≤ st.slab.powerLargest)
    (hptr : ptr ∈ st.allocated id) (hclsid : st.items.slabsClsid ptr = 0) (size : ℕ) :
    ∃ st' F', st.step (.free ptr size id) = .ok st' ∧ Inv st' F' := by
  have hchunk := h.own id ptr hptr
  have hnot := h.apart id ptr hptr
  have hrep := h.rep.freed h1 h2 hchunk hnot rfl hclsid size
  have hstacked := h.stacked.freed h.rep h1 h2 hchunk hnot hclsid size hrep
  have hchunks : ∀ j, ((doSlabsFree st.items.unreferenced st.slab ptr size id).2.cls j).chunks =
      (st.slab.cls j).chunks := fun j => doSlabsFree_chunks (h.rep.id_lt h2) j
  rw [doSlabsFree_unreferenced] at hrep hstacked hchunks
  have hmem : ∀ j p, p ∈ Function.update st.allocated id ((st.allocated id).erase ptr) j ↔
      p ∈ st.allocated j ∧ ¬(j = id ∧ p = ptr) := by
    intro j p
    by_cases hj : j = id
    · subst hj
      simp [(h.nodup j).mem_erase_iff, and_comm]
    · simp [hj]
  refine ⟨_, Function.update F id (ptr :: F id), rfl, ?_⟩
  exact {
    rep := hrep
    stacked := hstacked
    nodup := fun j => by
      by_cases hj : j = id
      · subst hj
        show (Function.update st.allocated j _ j).Nodup
        rw [Function.update_self]
        exact (h.nodup j).erase ptr
      · show (Function.update st.allocated id _ j).Nodup
        rw [Function.update_of_ne hj]
        exact h.nodup j
    own := fun j p hp => (hchunks j).symm ▸ h.own j p ((hmem j p).mp hp).1
    apart := fun j p hp => by
      obtain ⟨hpA, hne⟩ := (hmem j p).mp hp
      by_cases hj : j = id
      · subst hj
        rw [Function.update_self, List.mem_cons, not_or]
        exact ⟨fun e => hne ⟨rfl, e⟩, h.apart j p hpA⟩
      · rw [Function.update_of_ne hj]
        exact h.apart j p hpA
    cover := fun j p hp => by
      rcases h.cover j p (hchunks j ▸ hp) with hpF | hpA
      · refine .inl ?_
        by_cases hj : j = id
        · subst hj
          rw [Function.update_self]
          exact List.mem_cons_of_mem _ hpF
        · rwa [Function.update_of_ne hj]
      · by_cases hfreed : j = id ∧ p = ptr
        · obtain ⟨rfl, rfl⟩ := hfreed
          rw [Function.update_self]
          exact .inl (List.mem_cons_self ..)
        · exact .inr ((hmem j p).mpr ⟨hpA, hfreed⟩) }

theorem write (h : Inv st F) {m : Items}
    (hm : ∀ p, (∀ id, p ∉ st.allocated id) → SameAt st.items m p) :
    Inv { st with items := m } F := by
  have hsame : ∀ id, ∀ p ∈ F id, SameAt st.items m p := fun id p hp =>
    hm p fun j hpj => h.notFree hpj hp
  exact {
    rep := h.rep.congr (fun id p hp => (hsame id p hp).next) fun _ _ _ => rfl
    stacked := fun id => (h.stacked id).congr (fun p hp => (hsame id p hp).next)
      fun p hp => (hsame id p hp).prev
    nodup := h.nodup
    own := h.own
    apart := h.apart
    cover := h.cover }

theorem step (h : Inv st F) {a : ArenaAction} (ha : st.Lawful a) :
    ∃ st' F', st.step a = .ok st' ∧ Inv st' F' := by
  cases a with
  | alloc size id => exact h.alloc ha.1 ha.2
  | free ptr size id => exact h.free ha.1 ha.2.1 ha.2.2.1 ha.2.2.2 size
  | write m => exact ⟨_, F, rfl, h.write ha⟩

theorem conserved (h : Inv st F) : Conserved st F where
  freelist := h.stacked
  count := h.rep.count
  counted id hlt := by rw [h.rep.count, UInt32.toNat_ofNat_of_lt' hlt]
  perm id := by
    have hdisjoint : (F id).Disjoint (st.allocated id) := fun p hpF hpA => h.apart id p hpA hpF
    have hnodup := List.Nodup.append (h.rep.chain id).nodup (h.nodup id) hdisjoint
    refine (List.perm_ext_iff_of_nodup hnodup (h.rep.chunks_nodup id)).mpr fun p => ?_
    rw [List.mem_append]
    exact ⟨fun hp => hp.elim (h.rep.own id p) (h.own id p), h.cover id p⟩
  nodup := h.rep.chunks_nodup
  length id := by rw [SlabClass.length_chunks, h.rep.slabs]
  disjoint id id' p hp hp' := h.rep.class_unique hp hp'

end Inv

theorem start_inv {limit : ℕ} {set : Settings} {mallocOk : ℕ → Bool} {m : Items} {b : Slab}
    (h : Slab.init limit set mallocOk = some (m, b)) : ∃ F, Inv (start m b) F := by
  have hbuild : SlabFresh Items.zero (Slab.build limit set mallocOk) fun _ => [] :=
    Slab.build_slabFresh limit set mallocOk
  obtain ⟨F, hfresh, hstacked⟩ := slabsPreallocate_stacked hbuild (fun id => by
    rw [Slab.build_cls]
    exact ⟨rfl, nofun, nofun⟩) le_rfl (by
      show 1 + ((Slab.build limit set mallocOk).powerLargest - 1) ≤ _
      omega) h
  exact ⟨F, hfresh.rep.unreferenced, hstacked, fun _ => List.nodup_nil, nofun, nofun,
    fun id p hp => .inl (hfresh.allFree id p hp)⟩

/-- A lawful run goes from one state to the other. -/
def Leads (st st' : Arena) : Prop := ∃ as, EachStep step Lawful st as ∧ run step st as = .ok st'

variable {st st' st'' : Arena} {F : ℕ → List Ptr} {id : ℕ}

theorem Leads.refl (st : Arena) : Leads st st := ⟨[], trivial, rfl⟩

theorem Leads.trans (h₁ : Leads st st') (h₂ : Leads st' st'') : Leads st st'' := by
  obtain ⟨as, hlaw₁, hrun₁⟩ := h₁
  obtain ⟨bs, hlaw₂, hrun₂⟩ := h₂
  exact ⟨as ++ bs, hlaw₁.append hrun₁ hlaw₂, (run_append_eq_ok step).mpr ⟨st', hrun₁, hrun₂⟩⟩

theorem Leads.of_step {a : ArenaAction} (ha : st.Lawful a) (hstep : st.step a = .ok st') : Leads st st' :=
  ⟨[a], ⟨ha, fun _ _ => trivial⟩, by rw [run_cons_ok step hstep]; rfl⟩

theorem Inv.length_chunks (h : Inv st F) (id : ℕ) :
    (F id).length + (st.allocated id).length = (st.slab.cls id).slabs.toNat * (st.slab.cls id).perslab := by
  rw [← List.length_append, (h.conserved.perm id).length_eq, h.conserved.length]

/-- A chunk that is granted goes to the client. -/
theorem Inv.alloc_granted (h : Inv st F) (h1 : 1 ≤ id) (h2 : id ≤ st.slab.powerLargest) (size : ℕ)
    (hgrant : (st.slab.cls id).slCurr ≠ 0 ∨ st.slab.newslabOk id) :
    ∃ st' F', st.step (.alloc size id) = .ok st' ∧ Inv st' F' ∧ st.slab.SameTable st'.slab ∧
      (st'.allocated id).length = (st.allocated id).length + 1 := by
  obtain ⟨st', F', hstep, hinv⟩ : ∃ st' F', st.step (.alloc size id) = .ok st' ∧ Inv st' F' := h.alloc h1 h2
  obtain ⟨m₀, b', F₁, it, hrun₀, ha⟩ := (doSlabsAlloc_spec h.rep size h1 h2).2 hgrant
  obtain ⟨m', hrun, -⟩ := exists_alloc_of_unreferenced hrun₀
  refine ⟨st', F', hstep, hinv, ?_, ?_⟩
  all_goals
    rw [Arena.step, hrun, Result.ok_bind] at hstep
    cases hstep
  · exact ha.table
  · show (Function.update st.allocated id (it :: st.allocated id) id).length = _
    rw [Function.update_self, List.length_cons]

/-- A client that goes on taking chunks of a class is refused one at last. -/
theorem exists_refused (h : Inv st F) (h1 : 1 ≤ id) (h2 : id ≤ st.slab.powerLargest) :
    ∃ n st' F', EachStep step Lawful st (List.replicate n (.alloc 0 id)) ∧
      run step st (List.replicate n (.alloc 0 id)) = .ok st' ∧ Inv st' F' ∧ st.slab.SameTable st'.slab ∧
      (st'.slab.cls id).slCurr = 0 ∧ ¬st'.slab.newslabOk id := by
  -- the chunks of the class bound the number of the calls
  induction hleft : 2 ^ 31 * (st.slab.cls id).perslab - (st.allocated id).length using Nat.strong_induction_on
    generalizing st F with
  | _ left ih =>
    subst hleft
    by_cases hgrant : (st.slab.cls id).slCurr ≠ 0 ∨ st.slab.newslabOk id
    · obtain ⟨st₁, F₁, hstep, hinv, htable, hlen⟩ := h.alloc_granted h1 h2 0 hgrant
      have hchunks := hinv.length_chunks id
      have hlisted := hinv.rep.listed id
      have hmost := Nat.mul_le_mul_right (st₁.slab.cls id).perslab (hlisted.room.trans hlisted.listSize_le)
      rw [htable.perslab] at hchunks hmost
      obtain ⟨n, st', F', hlaw, hrun, hinv', htable', hno⟩ :=
        ih _ (by rw [htable.perslab]; omega) hinv (htable.powerLargest ▸ h2) rfl
      refine ⟨n + 1, st', F', ⟨⟨h1, h2⟩, fun s hs => ?_⟩, ?_, hinv', htable.trans htable', hno⟩
      · rw [hstep] at hs
        cases hs
        exact hlaw
      · rw [List.replicate_succ, run_cons_ok step hstep, hrun]
    · obtain ⟨hempty, hpage⟩ := not_or.mp hgrant
      exact ⟨0, st, F, trivial, rfl, h, .refl _, not_not.mp hempty, hpage⟩

/-- Where there is no limit and `malloc` does not fail, it is the list of the pages that
refuses one. -/
theorem full_of_refused (hlimit : st.slab.memLimit = 0)
    (hmalloc : ∀ n, st.slab.mallocOk n = true) (hpage : ¬st.slab.newslabOk id) :
    (st.slab.cls id).slabs = (st.slab.cls id).listSize ∧ (st.slab.cls id).grownSize = 0 := by
  by_contra hno
  refine hpage ⟨fun hlim => hlim.1 hlimit, ?_⟩
  simp only [hmalloc, and_true]
  split_ifs with heq
  exact fun hgrown => hno ⟨heq, hgrown⟩

/-- The client gives back all its chunks of a class, with `slabs_clsid` set to 0 in each. -/
theorem exists_freed (h : Inv st F) (h1 : 1 ≤ id) (h2 : id ≤ st.slab.powerLargest) {n : ℕ}
    (hn : (st.allocated id).length = n) :
    ∃ st' F', Leads st st' ∧ Inv st' F' ∧ st'.allocated id = [] ∧
      (st'.slab.cls id).chunks = (st.slab.cls id).chunks := by
  induction n generalizing st F with
  | zero => exact ⟨st, F, .refl st, h, List.length_eq_zero_iff.mp hn, rfl⟩
  | succ n ih =>
    obtain ⟨ptr, hptr⟩ := List.exists_mem_of_length_pos (by omega : 0 < (st.allocated id).length)
    -- the client clears the field, and frees the chunk
    set m := st.items.setClsid ptr 0
    have hwrite : st.Lawful (.write m) := fun p hp => by
      have hne : p ≠ ptr := fun e => hp id (e ▸ hptr)
      constructor <;> simp [m, Items.setClsid, hne]
    have hinv₁ : Inv { st with items := m } F := h.write hwrite
    have hclsid : m.slabsClsid ptr = 0 := by simp [m, Items.setClsid]
    obtain ⟨st₂, F₂, hstep, hinv₂⟩ := hinv₁.free h1 h2 hptr hclsid 0
    have hfree : ({ st with items := m } : Arena).Lawful (.free ptr 0 id) := ⟨h1, h2, hptr, hclsid⟩
    have hchunks : (st₂.slab.cls id).chunks = (st.slab.cls id).chunks ∧
        st₂.slab.powerLargest = st.slab.powerLargest ∧ st₂.allocated id = (st.allocated id).erase ptr := by
      cases hstep
      refine ⟨doSlabsFree_chunks (h.rep.id_lt h2) id, ?_, Function.update_self ..⟩
      show (doSlabsFree m st.slab ptr 0 id).2.powerLargest = _
      unfold doSlabsFree
      split_ifs <;> rfl
    obtain ⟨hchunks, hlargest, hheld⟩ := hchunks
    obtain ⟨st', F', hlead, hinv', hnone, hsame⟩ := ih hinv₂ (hlargest ▸ h2) (by
      rw [hheld, List.length_erase_of_mem hptr, hn]
      rfl)
    exact ⟨st', F', ((Leads.of_step hwrite rfl).trans (.of_step hfree hstep)).trans hlead, hinv', hnone,
      hsame.trans hchunks⟩

end Arena

end MiniMemcached
