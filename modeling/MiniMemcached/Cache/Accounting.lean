import Mathlib.Algebra.BigOperators.Intervals
import MiniMemcached.Cache.Conservation
import MiniMemcached.Cache.Lru

/-! The books of the slab allocator. `mem_malloced` is the size of all pages, the list of
a class has room for its pages, and `requested` is the sum of the sizes that the client
was charged for the chunks it holds. The limit does not hold for the first page of a
class, so what it bounds is the size of all the other pages. -/

namespace MiniMemcached

open Runs

namespace Slab

/-- The size of the pages of all classes. -/
def pagesTotal (b : Slab) : ℕ :=
  ∑ id ∈ Finset.Icc 1 b.powerLargest, (b.cls id).slabs.toNat * (b.cls id).size * (b.cls id).perslab

/-- The size of all pages but the first one of each class. -/
def laterPages (b : Slab) : ℕ :=
  ∑ id ∈ Finset.Icc 1 b.powerLargest, ((b.cls id).slabs.toNat - 1) * (b.cls id).size * (b.cls id).perslab

/-- The size of one page for each class that has one. -/
def firstPages (b : Slab) : ℕ :=
  ∑ id ∈ (Finset.Icc 1 b.powerLargest).filter fun id => 0 < (b.cls id).slabs.toNat,
    (b.cls id).size * (b.cls id).perslab

/-- The books of the pages. -/
structure Accounted (b : Slab) : Prop where
  malloced : b.memMalloced = b.pagesTotal
  limit : b.memLimit ≠ 0 → b.laterPages ≤ b.memLimit

theorem pagesTotal_eq (b : Slab) : b.pagesTotal = b.laterPages + b.firstPages := by
  unfold pagesTotal laterPages firstPages
  rw [Finset.sum_filter, ← Finset.sum_add_distrib]
  refine Finset.sum_congr rfl fun id _ => ?_
  cases hslabs : (b.cls id).slabs.toNat with
  | zero => simp
  | succ n =>
    rw [if_pos (Nat.succ_pos n), Nat.add_sub_cancel]
    ring

/-- The pages exceed the limit by one page for each class at the most. -/
theorem Accounted.le_limit {b : Slab} (h : b.Accounted) (hlimit : b.memLimit ≠ 0) :
    b.memMalloced ≤ b.memLimit + b.firstPages := by
  rw [h.malloced, pagesTotal_eq]
  exact Nat.add_le_add_right (h.limit hlimit) _

/-- One term of a sum grows. -/
theorem sum_grown {s : Finset ℕ} {f g : ℕ → ℕ} {i c : ℕ} (hi : i ∈ s) (hself : g i = f i + c)
    (hne : ∀ j, j ≠ i → g j = f j) : ∑ j ∈ s, g j = ∑ j ∈ s, f j + c := by
  have hrest : ∑ j ∈ s.erase i, g j = ∑ j ∈ s.erase i, f j :=
    Finset.sum_congr rfl fun j hj => hne j (Finset.ne_of_mem_erase hj)
  rw [← Finset.add_sum_erase s g hi, ← Finset.add_sum_erase s f hi, hself, hrest]
  ring

theorem Accounted.congr {b b' : Slab} (h : b.Accounted) (htable : SameTable b b')
    (hmalloced : b'.memMalloced = b.memMalloced) (hslabs : ∀ j, (b'.cls j).slabs = (b.cls j).slabs) :
    b'.Accounted where
  malloced := by
    rw [hmalloced, h.malloced]
    unfold pagesTotal
    rw [htable.powerLargest]
    exact Finset.sum_congr rfl fun j _ => by rw [hslabs, htable.size, htable.perslab]
  limit hlimit := by
    rw [htable.memLimit] at hlimit ⊢
    refine le_of_eq_of_le ?_ (h.limit hlimit)
    unfold laterPages
    rw [htable.powerLargest]
    exact Finset.sum_congr rfl fun j _ => by rw [hslabs, htable.size, htable.perslab]

/-- A change to the freelist of a class, or to its charges. -/
theorem Accounted.setCls {b : Slab} (h : b.Accounted) {id : ℕ} (hid : id < b.memBase.length)
    {p : SlabClass} (hp : p = { b.cls id with
      slots := p.slots
      slCurr := p.slCurr
      requested := p.requested }) : (b.setCls id p).Accounted := by
  refine h.congr (.setCls hid (by rw [hp]) (by rw [hp])) rfl fun j => ?_
  by_cases hj : j = id
  · subst hj
    rw [cls_setCls_self hid, hp]
  · rw [cls_setCls_of_ne hj]

end Slab

namespace Slab.Accounted

variable {m m' : Items} {b b' : Slab} {F : ℕ → List Ptr} {id : ℕ}

/-- A page that is bought is within the limit, or the first one of its class. -/
theorem pageCarved (h : b.Accounted) (h1 : 1 ≤ id) (h2 : id ≤ b.powerLargest) (hlisted : (b.cls id).Listed)
    (hok : b.newslabOk id) {page : ℕ} {slots : Option Ptr} {L : List Ptr}
    (hc : PageCarved m m' b b' id page slots L) : b'.Accounted := by
  have hmem : id ∈ Finset.Icc 1 b.powerLargest := Finset.mem_Icc.mpr ⟨h1, h2⟩
  have hother : ∀ j, j ≠ id → (b'.cls j).slabs.toNat = (b.cls j).slabs.toNat := by
    intro j hj
    rw [hc.cls_of_ne j hj]
  have hself : (b'.cls id).slabs.toNat = (b.cls id).slabs.toNat + 1 := by
    rw [← (hc.listed id hlisted).length, ← hlisted.length, hc.slabList, if_pos rfl, List.length_append]
    rfl
  have htotal : b'.pagesTotal = b.pagesTotal + (b.cls id).size * (b.cls id).perslab := by
    unfold pagesTotal
    rw [hc.table.powerLargest]
    refine sum_grown hmem ?_ fun j hj => ?_
    · rw [hself, hc.table.size, hc.table.perslab]
      ring
    · rw [hother j hj, hc.table.size, hc.table.perslab]
  refine ⟨by rw [hc.malloced, htotal, h.malloced], fun hne => ?_⟩
  rw [hc.table.memLimit] at hne ⊢
  rcases Nat.eq_zero_or_pos (b.cls id).slabs.toNat with hzero | hpos
  · -- the first page of the class: the limit is not asked
    refine le_of_eq_of_le ?_ (h.limit hne)
    unfold laterPages
    rw [hc.table.powerLargest]
    refine Finset.sum_congr rfl fun j _ => ?_
    rw [hc.table.size, hc.table.perslab]
    by_cases hj : j = id
    · subst hj
      rw [hself, hzero]
    · rw [hother j hj]
  · have hlimit : b.memMalloced + (b.cls id).size * (b.cls id).perslab ≤ b.memLimit := by
      by_contra hgt
      exact hok.1 ⟨hne, not_le.mp hgt, UInt32.lt_iff_toNat_lt.mpr hpos⟩
    calc b'.laterPages ≤ b'.pagesTotal := by
          rw [pagesTotal_eq]
          exact Nat.le_add_right _ _
      _ = b.memMalloced + (b.cls id).size * (b.cls id).perslab := by rw [htotal, h.malloced]
      _ ≤ b.memLimit := hlimit

/-- The books are kept by `do_slabs_newslab`, whether it gets its page or not. -/
theorem newslab (h : b.Accounted) (hrep : SlabRep m b F) (h1 : 1 ≤ id) (h2 : id ≤ b.powerLargest)
    {ok : Bool} (hrun : doSlabsNewslab m b id = (m', b', ok)) : b'.Accounted := by
  obtain ⟨hno, hyes⟩ := doSlabsNewslab_spec hrep h1 h2
  by_cases hok : b.newslabOk id
  · obtain ⟨m₁, b₁, page, slots, hnew, hc, -⟩ := hyes hok
    rw [hnew] at hrun
    cases hrun
    exact h.pageCarved h1 h2 (hrep.listed id) hok hc
  · obtain ⟨b₁, hnew, hcarved⟩ := hno hok
    rw [hnew] at hrun
    cases hrun
    exact h.congr hcarved.table hcarved.malloced fun j => by rw [hcarved.cls j]

theorem popSlot (h : b.Accounted) (hid : id < b.memBase.length) {size : ℕ} {r : Option Ptr}
    (hrun : popSlot m b size id = .ok (m', b', r)) : b'.Accounted := by
  unfold MiniMemcached.popSlot at hrun
  extract_lets p at hrun
  split at hrun
  · cases hrun
  · cases hrun
    exact h.setCls hid rfl

theorem alloc (h : b.Accounted) (hrep : SlabRep m b F) (h1 : 1 ≤ id) (h2 : id ≤ b.powerLargest)
    {size : ℕ} {r : Option Ptr} (hrun : doSlabsAlloc m b size id = .ok (m', b', r)) :
    b'.Accounted := by
  unfold doSlabsAlloc at hrun
  split_ifs at hrun
  · cases hrun
    exact h
  · exact h.popSlot (hrep.id_lt h2) hrun
  · rcases hnew : doSlabsNewslab m b id with ⟨m₁, b₁, ok⟩
    rw [hnew] at hrun
    have h₁ := h.newslab hrep h1 h2 hnew
    cases ok with
    | false =>
      cases hrun
      exact h₁
    | true =>
      have hid₁ : id < b₁.memBase.length := by
        obtain ⟨hno, hyes⟩ := doSlabsNewslab_spec hrep h1 h2
        by_cases hok : b.newslabOk id
        · obtain ⟨m₂, b₂, page, slots, hnew', hc, -⟩ := hyes hok
          rw [hnew] at hnew'
          cases hnew'
          rw [hc.table.length]
          exact hrep.id_lt h2
        · obtain ⟨b₂, hnew', -⟩ := hno hok
          rw [hnew] at hnew'
          cases hnew'
      dsimp only at hrun
      split_ifs at hrun
      · exact h₁.popSlot hid₁ hrun
      · cases hrun
        exact h₁

theorem free (h : b.Accounted) (hid : id < b.memBase.length) (ptr : Ptr) (size : ℕ) :
    (doSlabsFree m b ptr size id).2.Accounted := by
  unfold doSlabsFree
  split_ifs
  · exact h
  · exact h.setCls hid rfl

theorem build (limit : ℕ) (set : Settings) (mallocOk : ℕ → Bool) :
    (Slab.build limit set mallocOk).Accounted := by
  have hslabs : ∀ id, ((Slab.build limit set mallocOk).cls id).slabs.toNat = 0 := fun id => by
    rw [build_cls]
    rfl
  refine ⟨?_, fun _ => ?_⟩
  · unfold pagesTotal
    simp only [hslabs, Nat.zero_mul, Finset.sum_const_zero]
    rfl
  · unfold laterPages
    simp only [hslabs, Nat.zero_sub, Nat.zero_mul, Finset.sum_const_zero]
    exact Nat.zero_le _

/-- Preallocation keeps the books. -/
theorem preallocate {n i : ℕ} (h : b.Accounted) (hfresh : SlabFresh m b F) (h1 : 1 ≤ i)
    (hn : i + n ≤ b.powerLargest + 1) (hrun : slabsPreallocate n i m b = some (m', b')) :
    b'.Accounted := by
  induction n generalizing m b F i with
  | zero =>
    cases hrun
    exact h
  | succ n ih =>
    rw [slabsPreallocate] at hrun
    rcases hnew : doSlabsNewslab m b i with ⟨m₁, b₁, ok⟩
    rw [hnew] at hrun
    cases ok with
    | false => simp at hrun
    | true =>
      have hone : slabsPreallocate 1 i m b = some (m₁, b₁) := by simp [slabsPreallocate, hnew]
      obtain ⟨⟨F₁, hfresh₁⟩, htable⟩ := slabsPreallocate_spec hfresh h1 (by omega) hone
      have h₁ := h.newslab hfresh.rep h1 (by omega) hnew
      exact ih h₁ hfresh₁ (by omega) (by rw [htable.powerLargest]; omega) hrun

theorem init {limit : ℕ} {set : Settings} {mallocOk : ℕ → Bool}
    (hrun : Slab.init limit set mallocOk = some (m, b)) : b.Accounted := by
  refine (build limit set mallocOk).preallocate (build_slabFresh limit set mallocOk) le_rfl ?_ hrun
  simp only [Slab.build, POWER_SMALLEST]
  omega

end Slab.Accounted

/-! ### Changed charges -/

theorem Slab.cls_adjustMemRequested {b : Slab} {id : ℕ} (hid : id < b.memBase.length)
    (old ntotal j : ℕ) :
    (b.adjustMemRequested id old ntotal).cls j = { b.cls j with
      requested := if j = id then (b.cls id).requested - UInt64.ofNat old + UInt64.ofNat ntotal
        else (b.cls j).requested } := by
  unfold adjustMemRequested
  by_cases hj : j = id
  · subst hj
    rw [cls_setCls_self hid, if_pos rfl]
  · rw [cls_setCls_of_ne hj, if_neg hj]

theorem SlabRep.adjusted {m : Items} {b : Slab} {F : ℕ → List Ptr} (h : SlabRep m b F) {id : ℕ}
    (h2 : id ≤ b.powerLargest) (old ntotal : ℕ) : SlabRep m (b.adjustMemRequested id old ntotal) F := by
  have hsame : ∀ j, j ≠ id → ∀ q ∈ F j, m.next q = m.next q ∧
    m.refcount q = m.refcount q := fun _ _ _ _ => ⟨rfl, rfl⟩
  have hrep := h.setFreelist h2 (p := { b.cls id with
    requested := (b.cls id).requested - UInt64.ofNat old + UInt64.ofNat ntotal }) rfl (h.chain id)
      (h.count id)
    (h.own id) (h.rest id) hsame
  rwa [Function.update_eq_self] at hrep

/-! ### The books and the client -/

/-- The allocator with its client, and the size last charged for each chunk. -/
structure Ledger where
  arena : Arena
  charge : Ptr → ℕ

/-- What the client does; a chunk is freed, or its charge is changed, under the size that was
last charged for it. -/
inductive LedgerAction
  | alloc (size id : ℕ)
  | free (ptr : Ptr) (size id : ℕ)
  | adjust (ptr : Ptr) (id old ntotal : ℕ)
  | write (m : Items)

namespace Ledger

def step (l : Ledger) : LedgerAction → Result Ledger
  | .alloc size id =>
    doSlabsAlloc l.arena.items l.arena.slab size id >>= fun r =>
      .ok { arena := {
              items := r.1
              slab := r.2.1
              allocated := Function.update l.arena.allocated id (r.2.2.toList ++ l.arena.allocated id) }
            charge := r.2.2.elim l.charge fun it => Function.update l.charge it size }
  | .free ptr size id => l.arena.step (.free ptr size id) >>= fun st => .ok { l with arena := st }
  | .adjust ptr id old ntotal =>
    .ok { arena := { l.arena with slab := l.arena.slab.adjustMemRequested id old ntotal }
          charge := Function.update l.charge ptr ntotal }
  | .write m => l.arena.step (.write m) >>= fun st => .ok { l with arena := st }

/-- The client asks for classes of the table, names chunks that it holds and the sizes it
was charged, clears `slabs_clsid` before it frees, and writes to no other chunks. -/
def Lawful (l : Ledger) : LedgerAction → Prop
  | .alloc _ id => 1 ≤ id ∧ id ≤ l.arena.slab.powerLargest
  | .free ptr size id => ptr ∈ l.arena.allocated id ∧ l.arena.items.slabsClsid ptr = 0 ∧
    size = l.charge ptr
  | .adjust ptr id old _ => ptr ∈ l.arena.allocated id ∧ old = l.charge ptr
  | .write m => ∀ p, (∀ id, p ∉ l.arena.allocated id) → SameAt l.arena.items m p

/-- The allocator as its constructor leaves it. -/
def start (m : Items) (b : Slab) : Ledger where
  arena := Arena.start m b
  charge _ := 0

/-- The sizes charged for the chunks of a class that the client holds. -/
def charged (l : Ledger) (id : ℕ) : ℕ := ((l.arena.allocated id).map l.charge).sum

/-- What the steps of a client keep. -/
structure Inv (l : Ledger) (F : ℕ → List Ptr) : Prop where
  arena : l.arena.Inv F
  accounted : l.arena.slab.Accounted
  requested : ∀ id, (l.arena.slab.cls id).requested = UInt64.ofNat (l.charged id)

namespace Inv

variable {l : Ledger} {F : ℕ → List Ptr}

theorem mem_range (h : Inv l F) {ptr : Ptr} {id : ℕ} (hptr : ptr ∈ l.arena.allocated id) :
    1 ≤ id ∧ id ≤ l.arena.slab.powerLargest :=
  h.arena.rep.mem_range (h.arena.own id ptr hptr)

/-- The client holds a chunk in one class only. -/
theorem allocated_unique (h : Inv l F) {ptr : Ptr} {id j : ℕ} (hptr : ptr ∈ l.arena.allocated id)
    (hj : ptr ∈ l.arena.allocated j) : j = id :=
  h.arena.rep.class_unique (h.arena.own j ptr hj) (h.arena.own id ptr hptr)

/-- A chunk that is held takes its part of what the class is charged. -/
theorem charged_eq (l : Ledger) {ptr : Ptr} {id : ℕ} (hptr : ptr ∈ l.arena.allocated id) :
    l.charged id = l.charge ptr + (((l.arena.allocated id).erase ptr).map l.charge).sum :=
  (List.sum_map_erase l.charge hptr).symm

/-- What a call of `do_slabs_alloc` does to the charges of a class. -/
theorem requested_alloc (h : Inv l F) {size id : ℕ} (h1 : 1 ≤ id)
    (h2 : id ≤ l.arena.slab.powerLargest) {m' : Items} {b' : Slab} {r : Option Ptr}
    (hrun : doSlabsAlloc l.arena.items l.arena.slab size id = .ok (m', b', r)) :
    (r = none → NothingCarved l.arena.slab b') ∧
      ∀ it, r = some it → (∀ j, it ∉ l.arena.allocated j) ∧ ∀ j, (b'.cls j).requested =
        if j = id then (l.arena.slab.cls id).requested + UInt64.ofNat size
        else (l.arena.slab.cls j).requested := by
  have hrun₀ : doSlabsAlloc l.arena.items.unreferenced l.arena.slab size id =
      .ok (m'.unreferenced, b', r) := by
    rw [doSlabsAlloc_unreferenced, hrun]
    rfl
  obtain ⟨hfail, hsuccess⟩ := doSlabsAlloc_spec h.arena.rep size h1 h2
  by_cases hnone : (l.arena.slab.cls id).slCurr = 0 ∧ ¬l.arena.slab.newslabOk id
  · obtain ⟨b₁, hrun₁, hb⟩ := hfail hnone
    rw [hrun₀] at hrun₁
    simp only [Except.ok.injEq, Prod.mk.injEq] at hrun₁
    obtain ⟨-, rfl, rfl⟩ := hrun₁
    exact ⟨fun _ => hb, fun it hit => nomatch hit⟩
  · obtain ⟨m₁, b₁, F', it, hrun₁, ha⟩ := hsuccess (by tauto)
    rw [hrun₀] at hrun₁
    simp only [Except.ok.injEq, Prod.mk.injEq] at hrun₁
    obtain ⟨-, rfl, rfl⟩ := hrun₁
    refine ⟨fun hno => (nomatch hno), fun it' hit => ?_⟩
    cases hit
    exact ⟨fun j hj => h.arena.notFree hj (ha.wasFree j (h.arena.own j it hj)), ha.requested⟩

theorem alloc (h : Inv l F) {size id : ℕ} (h1 : 1 ≤ id) (h2 : id ≤ l.arena.slab.powerLargest) :
    ∃ l' F', l.step (.alloc size id) = .ok l' ∧ Inv l' F' := by
  obtain ⟨st, F', hstep, hinv⟩ : ∃ st F', l.arena.step (.alloc size id) = .ok st ∧ st.Inv F' :=
    h.arena.alloc h1 h2
  obtain ⟨⟨m', b', r⟩, hrun, hst⟩ := Result.bind_eq_ok.mp hstep
  cases hst
  have hrun₀ : doSlabsAlloc l.arena.items.unreferenced l.arena.slab size id =
      .ok (m'.unreferenced, b', r) := by
    rw [doSlabsAlloc_unreferenced, hrun]
    rfl
  obtain ⟨hrefused, hgranted⟩ := h.requested_alloc h1 h2 hrun
  refine ⟨_, F', by rw [Ledger.step, hrun]; rfl, hinv, h.accounted.alloc h.arena.rep h1 h2 hrun₀, ?_⟩
  intro j
  cases r with
  | none =>
    show (b'.cls j).requested = UInt64.ofNat ((Function.update l.arena.allocated id
      (l.arena.allocated id) j).map l.charge).sum
    rw [Function.update_eq_self, (hrefused rfl).cls j]
    exact h.requested j
  | some it =>
    obtain ⟨hnew, hreq⟩ := hgranted it rfl
    have hkept : ∀ i, (l.arena.allocated i).map (Function.update l.charge it size) =
        (l.arena.allocated i).map l.charge := fun i =>
      List.map_congr_left fun p hp => Function.update_of_ne (ne_of_mem_of_not_mem hp (hnew i)) _ _
    show (b'.cls j).requested = UInt64.ofNat ((Function.update l.arena.allocated id
      (it :: l.arena.allocated id) j).map (Function.update l.charge it size)).sum
    rw [hreq]
    by_cases hj : j = id
    · subst hj
      rw [if_pos rfl, Function.update_self, List.map_cons, List.sum_cons, Function.update_self,
        hkept, h.requested, ← UInt64.ofNat_add, Nat.add_comm]
      rfl
    · rw [if_neg hj, Function.update_of_ne hj, hkept, h.requested]
      rfl

theorem free (h : Inv l F) {ptr : Ptr} {id : ℕ} (hptr : ptr ∈ l.arena.allocated id)
    (hclsid : l.arena.items.slabsClsid ptr = 0) :
    ∃ l' F', l.step (.free ptr (l.charge ptr) id) = .ok l' ∧ Inv l' F' := by
  obtain ⟨h1, h2⟩ := h.mem_range hptr
  have hid := h.arena.rep.id_lt h2
  obtain ⟨st, F', hstep, hinv⟩ :
      ∃ st F', l.arena.step (.free ptr (l.charge ptr) id) = .ok st ∧ st.Inv F' :=
    h.arena.free h1 h2 hptr hclsid (l.charge ptr)
  refine ⟨{ l with arena := st }, F', by rw [Ledger.step, hstep]; rfl, hinv, ?_, fun j => ?_⟩
  · cases hstep
    exact h.accounted.free hid ptr _
  · cases hstep
    have hlargest := h.arena.rep.largest
    have hguard : ¬(l.arena.items.slabsClsid ptr ≠ 0 ∨ id < Slab.POWER_SMALLEST ∨
        Slab.POWER_LARGEST < id) := by
      unfold Slab.POWER_SMALLEST
      simp only [hclsid, ne_eq, not_true_eq_false, false_or]
      omega
    show ((doSlabsFree l.arena.items l.arena.slab ptr (l.charge ptr) id).2.cls j).requested =
      UInt64.ofNat ((Function.update l.arena.allocated id ((l.arena.allocated id).erase ptr) j).map
        l.charge).sum
    unfold doSlabsFree
    rw [if_neg hguard]
    by_cases hj : j = id
    · subst hj
      have hsum := charged_eq l hptr
      rw [Slab.cls_setCls_self hid, Function.update_self]
      show (l.arena.slab.cls j).requested - _ = _
      rw [h.requested, hsum, Nat.add_comm, UInt64.ofNat_add, UInt64.add_sub_cancel]
    · rw [Slab.cls_setCls_of_ne hj, Function.update_of_ne hj]
      exact h.requested j

theorem adjust (h : Inv l F) {ptr : Ptr} {id : ℕ} (hptr : ptr ∈ l.arena.allocated id) (ntotal : ℕ) :
    ∃ l', l.step (.adjust ptr id (l.charge ptr) ntotal) = .ok l' ∧ Inv l' F := by
  obtain ⟨h1, h2⟩ := h.mem_range hptr
  have hid := h.arena.rep.id_lt h2
  have hcls := Slab.cls_adjustMemRequested hid (l.charge ptr) ntotal
  have hchunks : ∀ j, ((l.arena.slab.adjustMemRequested id (l.charge ptr) ntotal).cls j).chunks =
      (l.arena.slab.cls j).chunks := fun j => by
    rw [hcls]
    rfl
  refine ⟨_, rfl, ?_, h.accounted.setCls hid rfl, fun j => ?_⟩
  · exact {
      rep := h.arena.rep.adjusted h2 _ _
      stacked := fun j => by
        show Lists.Stack _ _ (Slab.cls (Slab.adjustMemRequested _ _ _ _) j).slots _
        rw [hcls]
        exact h.arena.stacked j
      nodup := h.arena.nodup
      own := fun j p hp => (hchunks j).symm ▸ h.arena.own j p hp
      apart := h.arena.apart
      cover := fun j p hp => h.arena.cover j p (hchunks j ▸ hp) }
  · show (Slab.cls (Slab.adjustMemRequested _ _ _ _) j).requested =
      UInt64.ofNat ((l.arena.allocated j).map (Function.update l.charge ptr ntotal)).sum
    rw [hcls]
    by_cases hj : j = id
    · subst hj
      have hrest : ((l.arena.allocated j).erase ptr).map (Function.update l.charge ptr ntotal) =
          ((l.arena.allocated j).erase ptr).map l.charge := by
        refine List.map_congr_left fun p hp => Function.update_of_ne ?_ _ _
        exact ((h.arena.nodup j).mem_erase_iff.mp hp).1
      have hsum := charged_eq l hptr
      have hsum' := charged_eq { l with charge := Function.update l.charge ptr ntotal } hptr
      simp only [charged, Function.update_self, hrest] at hsum'
      show (if j = j then (l.arena.slab.cls j).requested - _ + _ else _) = _
      rw [if_pos rfl, hsum', h.requested, hsum, Nat.add_comm (l.charge ptr), Nat.add_comm ntotal,
        UInt64.ofNat_add, UInt64.ofNat_add, UInt64.add_sub_cancel]
    · have hnot : ptr ∉ l.arena.allocated j := fun hp => hj (h.allocated_unique hptr hp)
      have hkept : (l.arena.allocated j).map (Function.update l.charge ptr ntotal) =
          (l.arena.allocated j).map l.charge :=
        List.map_congr_left fun p hp => Function.update_of_ne (ne_of_mem_of_not_mem hp hnot) _ _
      show (if j = id then _ else (l.arena.slab.cls j).requested) = _
      rw [if_neg hj, hkept]
      exact h.requested j

theorem step (h : Inv l F) {a : LedgerAction} (ha : l.Lawful a) :
    ∃ l' F', l.step a = .ok l' ∧ Inv l' F' := by
  cases a with
  | alloc size id => exact h.alloc ha.1 ha.2
  | free ptr size id =>
    obtain ⟨hptr, hclsid, rfl⟩ := ha
    exact h.free hptr hclsid
  | adjust ptr id old ntotal =>
    obtain ⟨hptr, rfl⟩ := ha
    obtain ⟨l', hstep, hinv⟩ := h.adjust hptr ntotal
    exact ⟨l', F, hstep, hinv⟩
  | write m => exact ⟨_, F, rfl, h.arena.write ha, h.accounted, h.requested⟩

end Inv

theorem start_inv {limit : ℕ} {set : Settings} {mallocOk : ℕ → Bool} {m : Items} {b : Slab}
    (h : Slab.init limit set mallocOk = some (m, b)) : ∃ F, Inv (start m b) F := by
  obtain ⟨F, harena⟩ := Arena.start_inv h
  obtain ⟨⟨F', hfresh⟩, -⟩ := Slab.init_spec h
  exact ⟨F, harena, Slab.Accounted.init h, fun id => hfresh.requested id⟩

/-- The books of the allocator. The list of the pages of a class is given back when it has
to grow beyond `2 ^ 31` pages. `requested` counts modulo the size of its type; where the
charges of a class fit into it, no size that is given back is more than it holds. -/
structure Books (l : Ledger) : Prop where
  malloced : l.arena.slab.memMalloced = l.arena.slab.pagesTotal
  listSize : ∀ id, (l.arena.slab.cls id).slabs.toNat ≤ (l.arena.slab.cls id).listSize.toNat
  stored : ∀ id, (l.arena.slab.cls id).slabList.length = (l.arena.slab.cls id).slabs.toNat
  listed : ∀ id, (l.arena.slab.cls id).slabs.toNat < 2 ^ 31 → (l.arena.slab.cls id).listLost = false
  limit : l.arena.slab.memLimit ≠ 0 → l.arena.slab.laterPages ≤ l.arena.slab.memLimit ∧
    l.arena.slab.memMalloced ≤ l.arena.slab.memLimit + l.arena.slab.firstPages
  requested : ∀ id, (l.arena.slab.cls id).requested = UInt64.ofNat (l.charged id)
  fits : ∀ id, l.charged id < 2 ^ 64 → (l.arena.slab.cls id).requested.toNat = l.charged id ∧
    ∀ ptr ∈ l.arena.allocated id, l.charge ptr ≤ (l.arena.slab.cls id).requested.toNat
  refused : ∀ size id, 1 ≤ id → id ≤ l.arena.slab.powerLargest → ∀ m' b',
    doSlabsAlloc l.arena.items l.arena.slab size id = .ok (m', b', none) →
      NothingCarved l.arena.slab b'

theorem Inv.books {l : Ledger} {F : ℕ → List Ptr} (h : Inv l F) : Books l where
  malloced := h.accounted.malloced
  listSize id := (h.arena.rep.listed id).room
  stored := h.arena.rep.slabs
  listed id hlt := by
    by_contra hlost
    exact hlt.ne ((h.arena.rep.listed id).lost (by simpa using hlost))
  limit hne := ⟨h.accounted.limit hne, h.accounted.le_limit hne⟩
  requested := h.requested
  fits id hfit := by
    have htoNat : (l.arena.slab.cls id).requested.toNat = l.charged id := by
      rw [h.requested, UInt64.toNat_ofNat', Nat.mod_eq_of_lt hfit]
    refine ⟨htoNat, fun ptr hptr => ?_⟩
    rw [htoNat, Inv.charged_eq l hptr]
    exact Nat.le_add_right _ _
  refused size id h1 h2 m' b' hrun := (h.requested_alloc h1 h2 hrun).1 rfl

/-- Two chunks that are charged `2 ^ 63` bytes each leave `requested` at 0, and less than
the size that either of them gives back. -/
theorem not_fits_wrapped : ∃ m b l,
    Slab.init 0 .twoChunks (fun _ => true) = some (m, b) ∧
    EachStep step Lawful (start m b) [.alloc (2 ^ 63) 1, .alloc (2 ^ 63) 1] ∧
    run step (start m b) [.alloc (2 ^ 63) 1, .alloc (2 ^ 63) 1] = .ok l ∧
    (l.arena.slab.cls 1).requested.toNat ≠ l.charged 1 ∧
    ∃ ptr ∈ l.arena.allocated 1, (l.arena.slab.cls 1).requested.toNat < l.charge ptr := by
  have htrial : (Slab.init 0 .twoChunks fun _ => true).any (fun x => decide (1 ≤ x.2.powerLargest) &&
      (step (start x.1 x.2) (.alloc (2 ^ 63) 1)).toOption.any fun l₁ =>
        decide (1 ≤ l₁.arena.slab.powerLargest) &&
        (step l₁ (.alloc (2 ^ 63) 1)).toOption.any fun l =>
          decide ((l.arena.slab.cls 1).requested.toNat ≠ l.charged 1 ∧
            ∃ ptr ∈ l.arena.allocated 1, (l.arena.slab.cls 1).requested.toNat < l.charge ptr)) =
      true := by
    decide +kernel
  obtain ⟨⟨m, b⟩, hinit, hx⟩ := (Option.any_eq_true _ _).mp htrial
  obtain ⟨hb, hx⟩ := (Bool.and_eq_true _ _).mp hx
  obtain ⟨l₁, hstep₁, hx⟩ := (Option.any_eq_true _ _).mp hx
  obtain ⟨hb₁, hx⟩ := (Bool.and_eq_true _ _).mp hx
  obtain ⟨l, hstep, hx⟩ := (Option.any_eq_true _ _).mp hx
  have hrun₁ := Result.eq_ok_of_toOption hstep₁
  have hrun := Result.eq_ok_of_toOption hstep
  refine ⟨m, b, l, hinit, ⟨⟨le_rfl, of_decide_eq_true hb⟩, fun l' hl' => ?_⟩, ?_, of_decide_eq_true hx⟩
  · rw [hrun₁] at hl'
    cases hl'
    exact ⟨⟨le_rfl, of_decide_eq_true hb₁⟩, fun _ _ => trivial⟩
  · rw [run_cons_ok step hrun₁, run_cons_ok step hrun]
    rfl

theorem step_alloc {l : Ledger} {st : Arena} {size id : ℕ} (h : l.arena.step (.alloc size id) = .ok st) :
    ∃ l', l.step (.alloc size id) = .ok l' ∧ l'.arena = st := by
  obtain ⟨⟨m', b', r⟩, halloc, hst⟩ := Result.bind_eq_ok.mp h
  cases hst
  exact ⟨_, by rw [step, halloc]; rfl, rfl⟩

/-- What the allocator does for a client that only takes chunks, it does with its charges. -/
theorem run_allocs {st : Arena} {n id : ℕ} {l : Ledger}
    (hlaw : EachStep Arena.step Arena.Lawful l.arena (List.replicate n (.alloc 0 id)))
    (hrun : run Arena.step l.arena (List.replicate n (.alloc 0 id)) = .ok st) :
    ∃ l', EachStep step Lawful l (List.replicate n (.alloc 0 id)) ∧
      run step l (List.replicate n (.alloc 0 id)) = .ok l' ∧ l'.arena = st := by
  induction n generalizing l with
  | zero =>
    cases hrun
    exact ⟨l, trivial, rfl, rfl⟩
  | succ n ih =>
    obtain ⟨st₁, hstep, hrun⟩ := (run_cons_eq_ok Arena.step).mp hrun
    obtain ⟨l₁, hstep₁, rfl⟩ := step_alloc hstep
    obtain ⟨l', hlaw', hrun', harena⟩ := ih (hlaw.2 _ hstep) hrun
    refine ⟨l', ⟨hlaw.1, fun s hs => ?_⟩, ?_, harena⟩
    · rw [hstep₁] at hs
      cases hs
      exact hlaw'
    · rw [List.replicate_succ, run_cons_ok step hstep₁, hrun']

/-- A class that has all the pages it can list loses the list when it needs one more. -/
theorem listLost_of_full {m : Items} {b : Slab} {id : ℕ} (h1 : 1 ≤ id) (h2 : id ≤ Slab.POWER_LARGEST)
    (hid : id < b.memBase.length) (hempty : (b.cls id).slCurr = 0) (hlimit : b.memLimit = 0)
    (hfull : (b.cls id).slabs = (b.cls id).listSize) (hgrown : (b.cls id).grownSize = 0) (size : ℕ) :
    ∃ b', doSlabsAlloc m b size id = .ok (m, b', none) ∧ (b'.cls id).listLost = true := by
  have hguard : ¬(id < Slab.POWER_SMALLEST ∨ Slab.POWER_LARGEST < id) := by
    unfold Slab.POWER_SMALLEST
    omega
  have hgrow : growSlabList b id = (b.setCls id { b.cls id with listLost := true }, false) := by
    unfold growSlabList
    simp only [hfull, hgrown, if_true]
  have hnew : doSlabsNewslab m b id = (m, b.setCls id { b.cls id with listLost := true }, false) := by
    unfold doSlabsNewslab
    simp only [hlimit, ne_eq, not_true_eq_false, false_and, if_false, hgrow]
  refine ⟨b.setCls id { b.cls id with listLost := true }, ?_, by rw [Slab.cls_setCls_self hid]⟩
  unfold doSlabsAlloc
  rw [if_neg hguard, if_neg (not_not.mpr hempty), hnew]

/-- Without a limit, a client that goes on taking chunks of the first class takes so many pages
that the list of the pages is lost. -/
theorem not_listed_full : ∃ m b as l,
    Slab.init 0 .twoChunks (fun _ => true) = some (m, b) ∧ EachStep step Lawful (start m b) as ∧
    run step (start m b) as = .ok l ∧ (l.arena.slab.cls 1).listLost = true := by
  have htrial : (Slab.init 0 .twoChunks fun _ => true).any (fun x => decide (1 ≤ x.2.powerLargest ∧
      x.2.memLimit = 0)) = true := by decide +kernel
  obtain ⟨⟨m, b⟩, hinit, hx⟩ := (Option.any_eq_true _ _).mp htrial
  obtain ⟨h2, hlimit⟩ := of_decide_eq_true hx
  obtain ⟨F₀, hinv₀⟩ := Arena.start_inv hinit
  obtain ⟨n, st, F, hlaw, hrun, hinv, htable, hempty, hpage⟩ := Arena.exists_refused hinv₀ le_rfl h2
  have hmalloc : ∀ n, st.slab.mallocOk n = true := fun n => by
    rw [htable.mallocOk, show (Arena.start m b).slab = b from rfl, (Slab.init_spec hinit).2.mallocOk]
    rfl
  have hlimit' := htable.memLimit.trans hlimit
  have h2' : 1 ≤ st.slab.powerLargest := htable.powerLargest ▸ h2
  obtain ⟨hfull, hgrown⟩ := Arena.full_of_refused hlimit' hmalloc hpage
  obtain ⟨l, hlaw', hrun', rfl⟩ := run_allocs (l := start m b) hlaw hrun
  obtain ⟨b', halloc, hlost⟩ := listLost_of_full (m := l.arena.items) le_rfl (by decide) (hinv.rep.id_lt h2')
    hempty hlimit' hfull hgrown 0
  have hstep : ∃ l', l.step (.alloc 0 1) = .ok l' ∧ (l'.arena.slab.cls 1).listLost = true :=
    ⟨_, by rw [step, halloc]; rfl, hlost⟩
  obtain ⟨l', hstep, hlost⟩ := hstep
  have hlast : EachStep step Lawful l [.alloc 0 1] := ⟨⟨le_rfl, h2'⟩, fun _ _ => trivial⟩
  have hend : run step l [.alloc 0 1] = .ok l' := by
    rw [run_cons_ok step hstep]
    rfl
  exact ⟨m, b, _, l', hinit, hlaw'.append hrun' hlast, (run_append_eq_ok step).mpr ⟨l, hrun', hend⟩, hlost⟩

end Ledger

end MiniMemcached
