import Mathlib.Order.Bounds.Basic
import Mathlib.Data.List.Pairwise
import MiniMemcached.Cache.Arena

/-! The size classes. Rounding up outweighs the truncated multiplication, so that
each class is at least 8/7 times as large as the one before: the loop of the
constructor ends at the size bound, long before `POWER_LARGEST`. The search of
`slabs_clsid` finds the smallest class that fits, and stays inside the table. -/

namespace MiniMemcached

namespace Slab

/-- The loop of `slabs_clsid` from class `res`, with the index into `mem_base` checked. -/
def clsidScan (b : Slab) (size res : ℕ) : Result ℕ :=
  if h : res < b.memBase.length then
    if b.memBase[res].size < size then
      if res = b.powerLargest then .ok 0 else clsidScan b size (res + 1)
    else .ok res
  else .error .outOfBounds
termination_by b.memBase.length - res

/-- `slabs_clsid` with every index into `mem_base` checked. -/
def slabsClsidChecked (b : Slab) (size : ℕ) : Result ℕ :=
  if size = 0 then .ok 0 else b.clsidScan size POWER_SMALLEST

/-- The rounding of the constructor's loop. -/
def alignUp (size : ℕ) : ℕ :=
  if size % CHUNK_ALION_BYTES ≠ 0 then
    size + (CHUNK_ALION_BYTES - size % CHUNK_ALION_BYTES) else size

theorem alignUp_spec (size : ℕ) :
    size ≤ alignUp size ∧ alignUp size < size + 8 ∧ 8 ∣ alignUp size := by
  unfold alignUp CHUNK_ALION_BYTES
  split_ifs <;> omega

variable {set : Settings} {n size : ℕ}

theorem classesFrom_succ (set : Settings) (n size : ℕ) :
    classesFrom set (n + 1) size = if 6 * size ≤ 5 * set.itemSizeMax then
      { SlabClass.empty with size := alignUp size, perslab := set.itemSizeMax / alignUp size } ::
        classesFrom set n (alignUp size * 6 / 5)
    else [] := rfl

/-- One turn of the loop multiplies the size by 8/7 at least. -/
theorem growth (hsize : 14 ≤ size) : 8 * size ≤ 7 * (alignUp size * 6 / 5) := by
  obtain ⟨hge, -, -⟩ := alignUp_spec size
  omega

/-- The class after `k` others is built from a size that has grown `k` times. -/
theorem grown {k : ℕ} (hsize : 14 ≤ size) (h : k < (classesFrom set n size).length) :
    size * 8 ^ k ≤ set.itemSizeMax * 7 ^ k := by
  induction n generalizing size k with
  | zero => simp [classesFrom] at h
  | succ n ih =>
    rw [classesFrom_succ] at h
    split_ifs at h with hle
    · cases k with
      | zero => omega
      | succ k =>
        have hgrow := growth hsize
        have hrest : alignUp size * 6 / 5 * 8 ^ k ≤ set.itemSizeMax * 7 ^ k :=
          ih (by omega) (by simpa using h)
        calc size * 8 ^ (k + 1) = 8 * size * 8 ^ k := by ring
          _ ≤ 7 * (alignUp size * 6 / 5) * 8 ^ k := Nat.mul_le_mul_right _ hgrow
          _ = 7 * (alignUp size * 6 / 5 * 8 ^ k) := by ring
          _ ≤ 7 * (set.itemSizeMax * 7 ^ k) := Nat.mul_le_mul_left _ hrest
          _ = set.itemSizeMax * 7 ^ (k + 1) := by ring
    · simp at h

/-- The loop builds fewer classes than `POWER_LARGEST` allows. -/
theorem classesFrom_length_lt (set : Settings) (n : ℕ) {size : ℕ} (hsize : sizeofBaseItem ≤ size) :
    (classesFrom set n size).length < POWER_LARGEST - POWER_SMALLEST := by
  unfold sizeofBaseItem at hsize
  by_contra hlong
  have hgrown : size * 8 ^ 198 ≤ set.itemSizeMax * 7 ^ 198 := by
    apply grown (n := n) (by omega)
    simp only [POWER_LARGEST, POWER_SMALLEST] at hlong
    omega
  have hmax := set.itemSizeMax_lt
  have hlow : 56 * 8 ^ 198 ≤ size * 8 ^ 198 := Nat.mul_le_mul_right _ hsize
  have hhigh : set.itemSizeMax * 7 ^ 198 < 2 ^ 31 * 7 ^ 198 :=
    Nat.mul_lt_mul_of_pos_right hmax (Nat.pow_pos (by decide))
  have hbound : 2 ^ 31 * 7 ^ 198 < 56 * 8 ^ 198 := by decide
  omega

/-- A loop that stopped at the size bound stops there with any larger number of turns. -/
theorem classesFrom_of_length_lt (h : (classesFrom set n size).length < n) (j : ℕ) :
    classesFrom set (n + j) size = classesFrom set n size := by
  induction n generalizing size with
  | zero => simp at h
  | succ n ih =>
    rw [Nat.succ_add, classesFrom_succ, classesFrom_succ]
    rw [classesFrom_succ] at h
    split_ifs at h ⊢ with hle
    · rw [ih (by simpa using h)]
    · rfl

/-- The classes of the loop are multiples of 8, smaller than the largest item, and
hold as many chunks a page as fit. -/
theorem classesFrom_sizes (hsize : 36 ≤ size) : ∀ p ∈ classesFrom set n size,
    size ≤ p.size ∧ CHUNK_ALION_BYTES ∣ p.size ∧ p.size < set.itemSizeMax ∧
      p.perslab = set.itemSizeMax / p.size := by
  induction n generalizing size with
  | zero => simp [classesFrom]
  | succ n ih =>
    intro p hp
    rw [classesFrom_succ] at hp
    obtain ⟨hge, hlt, hdvd⟩ := alignUp_spec size
    split_ifs at hp with hle
    · rcases List.mem_cons.mp hp with rfl | hp
      · exact ⟨hge, hdvd, by show alignUp size < _; omega, rfl⟩
      · obtain ⟨hmin, hrest⟩ := ih (by omega) p hp
        exact ⟨by omega, hrest⟩
    · simp at hp

theorem classesFrom_increasing (hsize : 36 ≤ size) :
    (classesFrom set n size).Pairwise fun p q => p.size < q.size := by
  induction n generalizing size with
  | zero => exact .nil
  | succ n ih =>
    rw [classesFrom_succ]
    obtain ⟨hge, -, -⟩ := alignUp_spec size
    split_ifs with hle
    · refine .cons (fun q hq => ?_) (ih (by omega))
      obtain ⟨hmin, -⟩ := classesFrom_sizes (by omega) q hq
      show alignUp size < q.size
      omega
    · exact .nil

end Slab

/-- A table of size classes in order. -/
structure WellSized (b : Slab) (itemSizeMax : ℕ) : Prop where
  powerLargest_pos : 1 ≤ b.powerLargest
  powerLargest_lt : b.powerLargest < Slab.POWER_LARGEST
  length : b.memBase.length = b.powerLargest + 1
  increasing : ∀ i j, 1 ≤ i → i < j → j ≤ b.powerLargest → (b.cls i).size < (b.cls j).size
  aligned : ∀ i, 1 ≤ i → i < b.powerLargest → Slab.CHUNK_ALION_BYTES ∣ (b.cls i).size
  largest : (b.cls b.powerLargest).size = itemSizeMax
  perslab : ∀ i, 1 ≤ i → i ≤ b.powerLargest →
    1 ≤ (b.cls i).perslab ∧ (b.cls i).size * (b.cls i).perslab ≤ itemSizeMax

namespace WellSized

variable {b : Slab} {M : ℕ}

theorem size_le (h : WellSized b M) {i : ℕ} (h1 : 1 ≤ i) (h2 : i ≤ b.powerLargest) :
    (b.cls i).size ≤ M := by
  rcases Nat.lt_or_eq_of_le h2 with hlt | rfl
  · exact h.largest ▸ (h.increasing i _ h1 hlt le_rfl).le
  · exact h.largest.le

theorem getElem_eq {i : ℕ} (hi : i < b.memBase.length) : b.memBase[i] = b.cls i := by
  simp [Slab.cls, List.getD_eq_getElem?_getD, hi]

/-- The search ends at the first class from `res` that fits, or gives 0 when none does. -/
theorem clsidScan (h : WellSized b M) {size res : ℕ} (hres : res ≤ b.powerLargest) :
    (∃ id, b.clsidScan size res = .ok id ∧ res ≤ id ∧ id ≤ b.powerLargest ∧
      size ≤ (b.cls id).size ∧ ∀ j, res ≤ j → j < id → (b.cls j).size < size) ∨
    b.clsidScan size res = .ok 0 ∧ (b.cls b.powerLargest).size < size := by
  obtain ⟨d, hd⟩ : ∃ d, res + d = b.powerLargest := ⟨_, Nat.add_sub_cancel' hres⟩
  have hlen := h.length
  induction d generalizing res with
  | zero =>
    obtain rfl : res = b.powerLargest := hd
    rw [Slab.clsidScan, dif_pos (by omega), getElem_eq, if_pos rfl]
    split_ifs with hlt
    · exact .inr ⟨rfl, hlt⟩
    · exact .inl ⟨_, rfl, le_rfl, le_rfl, not_lt.mp hlt, fun j hj hj' => absurd hj' (not_lt.mpr hj)⟩
  | succ d ih =>
    rw [Slab.clsidScan, dif_pos (by omega), getElem_eq]
    split_ifs with hlt hend
    · omega
    · rcases ih (by omega : res + 1 ≤ b.powerLargest)
        (by omega) with ⟨id, hid, hge, hle, hfit, hleast⟩ | hnone
      · refine .inl ⟨id, hid, by omega, hle, hfit, fun j hj hj' => ?_⟩
        rcases Nat.lt_or_eq_of_le hj with hj | rfl
        · exact hleast j hj hj'
        · exact hlt
      · exact .inr hnone
    · exact .inl ⟨res, rfl, le_rfl, hres, not_lt.mp hlt, fun j hj hj' => absurd hj' (not_lt.mpr hj)⟩

theorem clsidFrom_eq (h : WellSized b M) (size : ℕ) {n res : ℕ} (hn : n + res = b.powerLargest + 1) :
    res ≤ b.powerLargest → b.clsidScan size res = .ok (b.clsidFrom size n res) := by
  induction n generalizing res with
  | zero => omega
  | succ n ih =>
    intro hres
    have hlen := h.length
    rw [Slab.clsidScan, dif_pos (by omega), getElem_eq, Slab.clsidFrom]
    split_ifs with hlt hend
    · rfl
    · exact ih (by omega) (by omega)
    · rfl

/-- `slabs_clsid` stays inside the table. -/
theorem slabsClsid_checked (h : WellSized b M) (size : ℕ) :
    b.slabsClsidChecked size = .ok (b.slabsClsid size) := by
  unfold Slab.slabsClsidChecked Slab.slabsClsid
  split_ifs with h0
  · rfl
  · exact h.clsidFrom_eq size rfl h.powerLargest_pos

/-- `slabs_clsid` is 0 or the smallest class that fits, and 0 for no other sizes than 0
and those above the largest class. -/
theorem slabsClsid_spec (h : WellSized b M) (size : ℕ) :
    (b.slabsClsid size = 0 ↔ size = 0 ∨ M < size) ∧
    (b.slabsClsid size ≠ 0 →
      IsLeast {id | 1 ≤ id ∧ id ≤ b.powerLargest ∧ size ≤ (b.cls id).size} (b.slabsClsid size)) := by
  have hcheck := h.slabsClsid_checked size
  unfold Slab.slabsClsidChecked at hcheck
  split_ifs at hcheck with h0
  · obtain hid : 0 = b.slabsClsid size := Except.ok.inj hcheck
    exact ⟨⟨fun _ => .inl h0, fun _ => hid.symm⟩, fun hne => absurd hid.symm hne⟩
  · rcases h.clsidScan h.powerLargest_pos with ⟨id, hid, hge, hle, hfit, hleast⟩ | ⟨hid, hlt⟩
    · obtain rfl : b.slabsClsid size = id := Except.ok.inj (hcheck.symm.trans hid)
      have hsize := h.size_le hge hle
      refine ⟨⟨fun hz => by omega, by omega⟩, fun _ => ⟨⟨hge, hle, hfit⟩, fun j hj => ?_⟩⟩
      by_contra hlt
      have hsmall := hleast j hj.1 (not_le.mp hlt)
      have hlarge := hj.2.2
      omega
    · obtain hz : b.slabsClsid size = 0 := Except.ok.inj (hcheck.symm.trans hid)
      rw [h.largest] at hlt
      exact ⟨⟨fun _ => .inr hlt, fun _ => hz⟩, fun hne => absurd hz hne⟩

end WellSized

namespace Slab

theorem build_cls_succ (limit : ℕ) (set : Settings) (mallocOk : ℕ → Bool) (i : ℕ) :
    (build limit set mallocOk).cls (i + 1) =
      (classesFrom set (POWER_LARGEST - POWER_SMALLEST) (sizeofBaseItem + set.chunkSize) ++
        [{ SlabClass.empty with size := set.itemSizeMax, perslab := 1 }]).getD i .empty := by
  simp [cls, build, List.getD_eq_getElem?_getD]

theorem build_wellSized (limit : ℕ) (set : Settings) (mallocOk : ℕ → Bool) :
    WellSized (build limit set mallocOk) set.itemSizeMax := by
  have hstart : sizeofBaseItem ≤ sizeofBaseItem + set.chunkSize := Nat.le_add_right _ _
  have hstart' : 36 ≤ sizeofBaseItem + set.chunkSize := le_trans (by decide) hstart
  have hlen := classesFrom_length_lt set (POWER_LARGEST - POWER_SMALLEST) hstart
  have hinc : (classesFrom set (POWER_LARGEST - POWER_SMALLEST)
      (sizeofBaseItem + set.chunkSize)).Pairwise fun p q => p.size < q.size :=
    classesFrom_increasing hstart'
  have hsizes : ∀ p ∈ classesFrom set (POWER_LARGEST - POWER_SMALLEST)
      (sizeofBaseItem + set.chunkSize), sizeofBaseItem + set.chunkSize ≤ p.size ∧
        CHUNK_ALION_BYTES ∣ p.size ∧ p.size < set.itemSizeMax ∧
        p.perslab = set.itemSizeMax / p.size := classesFrom_sizes hstart'
  generalize hcs : classesFrom set (POWER_LARGEST - POWER_SMALLEST) (sizeofBaseItem + set.chunkSize) = cs
    at hlen hinc hsizes
  have hcls : ∀ i, (build limit set mallocOk).cls (i + 1) =
      (cs ++ [{ SlabClass.empty with size := set.itemSizeMax, perslab := 1 }]).getD i .empty :=
    hcs ▸ build_cls_succ limit set mallocOk
  have hpower : (build limit set mallocOk).powerLargest = cs.length + 1 := hcs ▸ rfl
  have hmid : ∀ i (hi : i < cs.length), (build limit set mallocOk).cls (i + 1) = cs[i] := by
    intro i hi
    simp [hcls, List.getD_eq_getElem?_getD, List.getElem?_append_left hi, hi]
  have hlast : (build limit set mallocOk).cls (cs.length + 1) =
      { SlabClass.empty with size := set.itemSizeMax, perslab := 1 } := by
    simp [hcls, List.getD_eq_getElem?_getD]
  refine ⟨by omega, ?_, by simp [build], fun i j h1 hij hj => ?_, fun i h1 hi => ?_, ?_, fun i h1 hi => ?_⟩
  · rw [hpower]
    simp only [POWER_LARGEST, POWER_SMALLEST] at hlen ⊢
    omega
  · obtain ⟨i, rfl⟩ : ∃ k, i = k + 1 := ⟨i - 1, by omega⟩
    obtain ⟨j, rfl⟩ : ∃ k, j = k + 1 := ⟨j - 1, by omega⟩
    rw [hmid i (by omega)]
    rcases Nat.lt_or_eq_of_le (by omega : j ≤ cs.length) with hlt | rfl
    · rw [hmid j hlt]
      exact List.pairwise_iff_getElem.mp hinc i j (by omega) hlt (by omega)
    · rw [hlast]
      exact (hsizes _ (List.getElem_mem _)).2.2.1
  · obtain ⟨i, rfl⟩ : ∃ k, i = k + 1 := ⟨i - 1, by omega⟩
    rw [hmid i (by omega)]
    exact (hsizes _ (List.getElem_mem _)).2.1
  · rw [hpower, hlast]
  · obtain ⟨i, rfl⟩ : ∃ k, i = k + 1 := ⟨i - 1, by omega⟩
    rcases Nat.lt_or_eq_of_le (by omega : i ≤ cs.length) with hlt | rfl
    · obtain ⟨hmin, -, hmax, hper⟩ := hsizes _ (List.getElem_mem hlt)
      rw [hmid i hlt, hper]
      exact ⟨Nat.div_pos hmax.le (by omega), Nat.mul_div_le _ _⟩
    · rw [hlast]
      exact ⟨le_rfl, (Nat.mul_one _).le⟩

/-- The constructor builds a table in order, for which the bound `POWER_LARGEST` on its
loop does not matter, and `slabs_clsid` is the best fit. -/
theorem sizeClasses (limit : ℕ) (set : Settings) (mallocOk : ℕ → Bool) :
    (∀ turns, POWER_LARGEST - POWER_SMALLEST ≤ turns →
      classesFrom set turns (sizeofBaseItem + set.chunkSize) =
        classesFrom set (POWER_LARGEST - POWER_SMALLEST) (sizeofBaseItem + set.chunkSize)) ∧
    WellSized (build limit set mallocOk) set.itemSizeMax ∧
    ∀ size, ∃ id, (build limit set mallocOk).slabsClsidChecked size = .ok id ∧
      (build limit set mallocOk).slabsClsid size = id ∧
      (id = 0 ↔ size = 0 ∨ set.itemSizeMax < size) ∧
      (id ≠ 0 → IsLeast {id | 1 ≤ id ∧ id ≤ (build limit set mallocOk).powerLargest ∧
        size ≤ ((build limit set mallocOk).cls id).size} id) := by
  have hwell := build_wellSized limit set mallocOk
  refine ⟨fun turns hturns => ?_, hwell, fun size => ?_⟩
  · obtain ⟨j, rfl⟩ := Nat.exists_eq_add_of_le hturns
    exact classesFrom_of_length_lt (classesFrom_length_lt set _ (Nat.le_add_right _ _)) j
  · obtain ⟨hzero, hleast⟩ := hwell.slabsClsid_spec size
    exact ⟨_, hwell.slabsClsid_checked size, rfl, hzero, hleast⟩

end Slab

end MiniMemcached
