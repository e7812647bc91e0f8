import MiniMemcached.Cache.Commands
import MiniMemcached.Runs.Locks

/-! The lock discipline of the cache. The locks rank item lock, `cache_lock`,
`slabs_lock`; whatever state a public operation starts in, if it returns, it has
waited for locks in that order only and has given back all that it took. -/

namespace MiniMemcached

open Runs

def Lock.rank : Lock → ℕ
  | .item _ => 0
  | .cache => 1
  | .slabs => 2

theorem Lock.below_slabs_of_item {held : List Lock} (hl : ∀ h ∈ held, h.rank < Lock.slabs.rank)
    (i : ℕ) : ∀ h ∈ Lock.item i :: held, h.rank < Lock.slabs.rank := by
  intro h hmem
  rcases List.mem_cons.mp hmem with rfl | hmem
  · exact Nat.zero_lt_two
  · exact hl h hmem

/-- The lock events of the trace. -/
def Event.locking : Event → Option (LockEvent Lock)
  | .lock l => some (.lock l)
  | .tryLock l taken => some (.tryLock l taken)
  | .unlock l => some (.unlock l)
  | .fetchSub _ _ | .link _ _ => none

/-- The locks `held` are different ones, and the item locks among them are taken. -/
structure HoldsLocks (s : Cache) (held : List Lock) : Prop where
  nodup : held.Nodup
  taken : ∀ i, .item i ∈ held → s.itemLocks i = true

/-- A part of an operation that keeps to the order: it starts with the locks `held` and
ends with `held'`. -/
def Keeps (held held' : List Lock) (s s' : Cache) : Prop :=
  HoldsLocks s held → s'.hashtable.hashpower = s.hashtable.hashpower ∧ HoldsLocks s' held' ∧
    ∃ es : List Event, s'.trace = es.reverse ++ s.trace ∧
      follow Lock.rank held (es.filterMap Event.locking) = some held'

namespace Keeps

variable {held held₁ held' : List Lock} {s s₁ s' : Cache}

/-- A part that takes and gives back no lock. -/
theorem quiet (es : List Event) (htrace : s'.trace = es.reverse ++ s.trace)
    (hes : es.filterMap Event.locking = []) (hlocks : s'.itemLocks = s.itemLocks)
    (hpower : s'.hashtable.hashpower = s.hashtable.hashpower) : Keeps held held s s' := by
  intro h
  refine ⟨hpower, ⟨h.nodup, fun i hi => hlocks ▸ h.taken i hi⟩, es, htrace, ?_⟩
  rw [hes]
  rfl

theorem silent (htrace : s'.trace = s.trace) (hlocks : s'.itemLocks = s.itemLocks)
    (hpower : s'.hashtable.hashpower = s.hashtable.hashpower) : Keeps held held s s' :=
  quiet [] htrace rfl hlocks hpower

theorem refl (held : List Lock) (s : Cache) : Keeps held held s s := silent rfl rfl rfl

theorem trans (h₁ : Keeps held held₁ s s₁) (h₂ : Keeps held₁ held' s₁ s') :
    Keeps held held' s s' := by
  intro h
  obtain ⟨hpower₁, hholds₁, es₁, htrace₁, hfollow₁⟩ := h₁ h
  obtain ⟨hpower₂, hholds₂, es₂, htrace₂, hfollow₂⟩ := h₂ hholds₁
  refine ⟨hpower₂.trans hpower₁, hholds₂, es₁ ++ es₂, ?_, ?_⟩
  · rw [htrace₂, htrace₁, List.reverse_append, List.append_assoc]
  · rw [List.filterMap_append, follow_append hfollow₁, hfollow₂]

theorem lock {l : Lock} (hl : ∀ h ∈ held, h.rank < l.rank) (hcache : ∀ i, l ≠ .item i) :
    Keeps held (l :: held) s (s.lock l) := by
  intro h
  refine ⟨rfl, ⟨?_, fun i hi => ?_⟩, [.lock l], rfl, ?_⟩
  · exact List.nodup_cons.mpr ⟨fun hmem => lt_irrefl _ (hl l hmem), h.nodup⟩
  · exact h.taken i ((List.mem_cons.mp hi).resolve_left (hcache i).symm)
  · simp only [List.filterMap_cons, List.filterMap_nil, Event.locking, follow_cons, heldAfter]
    rw [if_pos hl]
    rfl

theorem unlock (l : Lock) : Keeps (l :: held) held s (s.unlock l) := by
  intro h
  refine ⟨rfl, ⟨(List.nodup_cons.mp h.nodup).2, fun i hi => ?_⟩, [.unlock l], rfl, ?_⟩
  · exact h.taken i (List.mem_cons_of_mem _ hi)
  · simp [Event.locking, heldAfter]

/-- A critical section. -/
theorem critical {l : Lock} (hl : ∀ h ∈ held, h.rank < l.rank) (hcache : ∀ i, l ≠ .item i)
    (hbody : Keeps (l :: held) (l :: held) (s.lock l) s₁) : Keeps held held s (s₁.unlock l) :=
  ((lock hl hcache).trans hbody).trans (unlock l)

theorem hashLock (hv : UInt32) (hl : held = []) :
    Keeps held (.item (s.lockIndex hv) :: held) s (s.hashLock hv) := by
  intro h
  subst hl
  refine ⟨rfl, ⟨List.nodup_singleton _, fun i hi => ?_⟩, [.lock (.item (s.lockIndex hv))], rfl, ?_⟩
  · obtain rfl : i = s.lockIndex hv := by simpa using hi
    exact Function.update_self ..
  · simp [Event.locking, heldAfter]

theorem lockIndex_eq {hv : UInt32} (hpower : s'.hashtable.hashpower = s.hashtable.hashpower) :
    s'.lockIndex hv = s.lockIndex hv := by
  simp only [Cache.lockIndex, HashTable.bucket, hpower]

/-- The item lock is given back under the index that it was taken with. -/
theorem hashUnlock {hv : UInt32} {i : ℕ} (hi : s.lockIndex hv = i) :
    Keeps (.item i :: held) held s (s.hashUnlock hv) := by
  intro h
  subst hi
  obtain ⟨hnot, hnodup⟩ := List.nodup_cons.mp h.nodup
  refine ⟨rfl, ⟨hnodup, fun j hj => ?_⟩, [.unlock (.item (s.lockIndex hv))], rfl, ?_⟩
  · have hne : j ≠ s.lockIndex hv := fun e => hnot (e ▸ hj)
    rw [← h.taken j (List.mem_cons_of_mem _ hj)]
    exact Function.update_of_ne hne _ _
  · simp [Event.locking, heldAfter]

/-- The index of the lock does not change until it is given back. -/
theorem trans_hashUnlock {hv : UInt32} {i : ℕ} (h₁ : Keeps held (.item i :: held') s s₁)
    (hi : s.lockIndex hv = i) : Keeps held held' s (s₁.hashUnlock hv) := by
  intro h
  exact (h₁.trans (hashUnlock ((lockIndex_eq (h₁ h).1).trans hi))) h

/-- An operation under the item lock of a key. -/
theorem hashed {hv : UInt32}
    (hbody : Keeps [.item (s.lockIndex hv)] [.item (s.lockIndex hv)] (s.hashLock hv) s₁) :
    Keeps [] [] s (s₁.hashUnlock hv) :=
  ((hashLock hv rfl).trans hbody).trans_hashUnlock rfl

theorem trylock_failed {hv : UInt32} (h : s.itemTrylock hv = (s', false)) :
    Keeps held held s s' := by
  intro hholds
  unfold Cache.itemTrylock at h
  extract_lets i at h
  split_ifs at h with htaken
  · obtain ⟨rfl, -⟩ := Prod.mk.inj h
    exact ⟨rfl, ⟨hholds.nodup, hholds.taken⟩, [.tryLock (.item i) false], rfl, rfl⟩
  · cases (Prod.mk.inj h).2

theorem trylock_taken {hv : UInt32} (h : s.itemTrylock hv = (s', true)) :
    Keeps held (.item (s.lockIndex hv) :: held) s s' := by
  intro hholds
  unfold Cache.itemTrylock at h
  extract_lets i at h
  split_ifs at h with htaken
  · cases (Prod.mk.inj h).2
  obtain ⟨rfl, -⟩ := Prod.mk.inj h
  -- a lock that this operation holds is not free
  have hnot : Lock.item i ∉ held := fun hmem => htaken (hholds.taken i hmem)
  refine ⟨rfl, ⟨List.nodup_cons.mpr ⟨hnot, hholds.nodup⟩, fun j hj => ?_⟩,
    [.tryLock (.item i) true], rfl, ?_⟩
  · by_cases hji : j = i
    · exact hji ▸ Function.update_self ..
    · rw [← hholds.taken j ((List.mem_cons.mp hj).resolve_left fun e => hji (Lock.item.inj e))]
      exact Function.update_of_ne hji _ _
  · simp only [List.filterMap_cons, List.filterMap_nil, Event.locking, follow_cons, heldAfter]
    rw [if_neg hnot]
    rfl

end Keeps

namespace Cache

variable {held : List Lock} {s s' : Cache}

theorem keeps_fetchAdd (s : Cache) (it : Ptr) : Keeps held held s (s.fetchAdd it) :=
  .silent rfl rfl rfl

theorem keeps_fetchSub (s : Cache) (it : Ptr) : Keeps held held s (s.fetchSub it) :=
  .quiet [.fetchSub it (s.items.refcount it)] rfl rfl rfl rfl

theorem keeps_itemUnlinkQ (s : Cache) (it : Ptr) : Keeps held held s (s.itemUnlinkQ it) :=
  .silent rfl rfl rfl

theorem keeps_hashDelete {key : List UInt8} {hv : UInt32} (h : s.hashDelete key hv = .ok s') :
    Keeps held held s s' := by
  obtain ⟨r, hr, hs⟩ := Result.bind_eq_ok.mp h
  cases hs
  refine .silent rfl rfl ?_
  show r.2.hashpower = s.hashtable.hashpower
  unfold MiniMemcached.hashDelete at hr
  split at hr
  · cases hr; rfl
  · split_ifs at hr
    · cases hr; rfl
    · obtain ⟨at_, -, hr⟩ := Result.bind_eq_ok.mp hr
      split at hr
      · cases hr; rfl
      · cases hr; rfl

section Slabs

variable (hl : ∀ h ∈ held, h.rank < Lock.slabs.rank)
include hl

theorem keeps_slabsFree (s : Cache) (ptr : Ptr) (size id : ℕ) :
    Keeps held held s (s.slabsFree ptr size id) :=
  .critical hl nofun (.silent rfl rfl rfl)

theorem keeps_slabsAdjust (s : Cache) (id old ntotal : ℕ) :
    Keeps held held s (s.slabsAdjustMemRequested id old ntotal) :=
  .critical hl nofun (.silent rfl rfl rfl)

theorem keeps_slabsAlloc {size id : ℕ} {r : Option Ptr} (h : s.slabsAlloc size id = .ok (s', r)) :
    Keeps held held s s' := by
  obtain ⟨x, -, hs⟩ := Result.bind_eq_ok.mp h
  cases hs
  exact .critical hl nofun (.silent rfl rfl rfl)

theorem keeps_itemFree (s : Cache) (it : Ptr) : Keeps held held s (s.itemFree it) := by
  unfold itemFree
  extract_lets ntotal clsid
  split
  · exact .refl held s
  · have hclsid : Keeps held held s { s with items := s.items.setClsid it 0 } := .silent rfl rfl rfl
    exact hclsid.trans (keeps_slabsFree hl _ it ntotal clsid)

theorem keeps_doItemRemove (s : Cache) (it : Ptr) : Keeps held held s (s.doItemRemove it) := by
  unfold doItemRemove
  split_ifs
  · exact .refl held s
  · exact (keeps_fetchSub s it).trans (keeps_itemFree hl _ it)
  · exact keeps_fetchSub s it

theorem keeps_doItemUnlinkNolock {it : Ptr} {hv : UInt32}
    (h : s.doItemUnlinkNolock it hv = .ok s') : Keeps held held s s' := by
  unfold doItemUnlinkNolock at h
  split_ifs at h
  · obtain ⟨s₁, hdelete, hs⟩ := Result.bind_eq_ok.mp h
    cases hs
    have hflag : Keeps held held s (s.setFlag it (s.items.itemFlag it &&& ~~~Slab.ITEM_LINKED)) :=
      .silent rfl rfl rfl
    exact ((hflag.trans (keeps_hashDelete hdelete)).trans (keeps_itemUnlinkQ s₁ it)).trans
      (keeps_doItemRemove hl _ it)
  · cases h
    exact .refl held s

theorem keeps_takeOver {it : Ptr} {hv : UInt32} {ntotal : ℕ} (h : s.takeOver it hv ntotal = .ok s') :
    Keeps held held s s' := by
  obtain ⟨s₁, hunlink, hs⟩ := Result.bind_eq_ok.mp h
  cases hs
  exact ((keeps_slabsAdjust hl s _ _ ntotal).trans (keeps_doItemUnlinkNolock hl hunlink)).trans
    (.silent rfl rfl rfl)

/-- A scan step that ends the loop gives back the item lock that the try took. -/
theorem keeps_scanTake {search : Ptr} {hv : UInt32} {ntotal id tries i : ℕ} {r : Scan}
    (hi : s.lockIndex hv = i) (h : s.scanTake search hv ntotal id tries = .ok r) :
    Keeps (.item i :: held) held s r.cache := by
  have hitem := Lock.below_slabs_of_item hl i
  have hdone : ∀ {s₁ : Cache}, Keeps (.item i :: held) (.item i :: held) s s₁ →
      Keeps (.item i :: held) held s ((s₁.fetchSub search).itemTrylockUnlock hv) := fun h₁ =>
    (h₁.trans (keeps_fetchSub _ search)).trans_hashUnlock hi
  unfold scanTake at h
  extract_lets done at h
  split_ifs at h
  · obtain ⟨s₁, htake, hs⟩ := Result.bind_eq_ok.mp h
    cases hs
    exact hdone (keeps_takeOver hitem htake)
  · obtain ⟨⟨s₁, it⟩, halloc, hs⟩ := Result.bind_eq_ok.mp h
    have hkeeps := keeps_slabsAlloc hitem halloc
    cases it with
    | some it =>
      cases hs
      exact hdone hkeeps
    | none =>
      simp only at hs
      split at hs
      · cases hs
        exact hdone hkeeps
      · split at hs
        · obtain ⟨s₂, htake, hs⟩ := Result.bind_eq_ok.mp hs
          cases hs
          exact hdone (hkeeps.trans (keeps_takeOver hitem htake))
        · cases hs

/-- An item in use is put back, and unlinked when it has been so for long. -/
def skip (s : Cache) (search : Ptr) (hv : UInt32) : Result Cache :=
  let s := (s.fetchAdd search).fetchSub search
  if s.items.realtime search + LruList.TAIL_REPAIR_TIME < s.clock then
    ({ s with items := s.items.setRefcount search 1 } : Cache).doItemUnlinkNolock search hv
  else .ok s

theorem keeps_skip (s : Cache) (search : Ptr) (hv : UInt32) (h : s.skip search hv = .ok s') :
    Keeps held held s s' := by
  have hback : Keeps held held s ((s.fetchAdd search).fetchSub search) :=
    (keeps_fetchAdd s search).trans (keeps_fetchSub _ search)
  unfold skip at h
  extract_lets s₁ at h
  split at h
  · have hreset : Keeps held held s₁ { s₁ with items := s₁.items.setRefcount search 1 } :=
      .silent rfl rfl rfl
    exact (hback.trans hreset).trans (keeps_doItemUnlinkNolock hl h)
  · exact Except.ok.inj h ▸ hback

theorem keeps_tailScan {ntotal id n tries : ℕ} {search : Option Ptr} {r : Scan}
    (h : tailScan ntotal id n tries search s = .ok r) : Keeps held held s r.cache := by
  induction n generalizing tries search s with
  | zero =>
    cases tries with
    | zero => cases h; exact .refl held s
    | succ tries =>
      cases search with
      | none => cases h; exact .refl held s
      | some search => cases h
  | succ n ih =>
    cases tries with
    | zero => cases h; exact .refl held s
    | succ tries =>
      cases search with
      | none => cases h; exact .refl held s
      | some search =>
        rw [tailScan] at h
        split at h
        · exact ih h
        · extract_lets hv at h
          rcases htry : s.itemTrylock hv with ⟨s₁, taken⟩
          rw [htry] at h
          cases taken with
          | false => exact (Keeps.trylock_failed htry).trans (ih h)
          | true =>
            have htaken : Keeps held (.item (s.lockIndex hv) :: held) s s₁ := .trylock_taken htry
            intro hholds
            have hindex : s₁.lockIndex hv = s.lockIndex hv := Keeps.lockIndex_eq (htaken hholds).1
            refine (htaken.trans ?_) hholds
            simp only at h
            split at h
            · have hskip : (s₁.skip search hv >>= fun s₂ => tailScan ntotal id n tries
                  (s.items.prev search) (s₂.itemTrylockUnlock hv)) = .ok r := by
                rw [← h]
                unfold skip
                extract_lets s₂
                split <;> rfl
              obtain ⟨s₂, hskip, hrest⟩ := Result.bind_eq_ok.mp hskip
              have hitem := Lock.below_slabs_of_item hl (s.lockIndex hv)
              exact ((keeps_skip hitem s₁ search hv hskip).trans_hashUnlock hindex).trans (ih hrest)
            · exact (keeps_fetchAdd s₁ search).trans (keeps_scanTake hl hindex h)

end Slabs

section CacheLock

variable (hl : ∀ h ∈ held, h.rank < Lock.cache.rank)
include hl

theorem below_slabs_of_cache : ∀ h ∈ Lock.cache :: held, h.rank < Lock.slabs.rank := by
  intro h hmem
  rcases List.mem_cons.mp hmem with rfl | hmem
  · exact Nat.lt_succ_self 1
  · exact (hl h hmem).trans (Nat.lt_succ_self 1)

theorem below_slabs : ∀ h ∈ held, h.rank < Lock.slabs.rank :=
  fun h hmem => (hl h hmem).trans (Nat.lt_succ_self 1)

theorem keeps_doItemUnlink {it : Ptr} {hv : UInt32} (h : s.doItemUnlink it hv = .ok s') :
    Keeps held held s s' := by
  obtain ⟨s₁, hunlink, hs⟩ := Result.bind_eq_ok.mp h
  cases hs
  exact .critical hl nofun (keeps_doItemUnlinkNolock (below_slabs_of_cache hl) hunlink)

theorem keeps_doItemLink (s : Cache) (it : Ptr) (hv : UInt32) :
    Keeps held held s (s.doItemLink it hv).1 := by
  unfold doItemLink
  split
  · exact .refl held s
  · exact .critical hl nofun (.quiet [.link it (s.casId + 1)] rfl rfl rfl rfl)

theorem keeps_doItemUpdate (s : Cache) (it : Ptr) : Keeps held held s (s.doItemUpdate it) := by
  unfold doItemUpdate
  split
  · split
    · exact .refl held s
    · refine .critical hl nofun ?_
      split
      · exact .silent rfl rfl rfl
      · exact .refl _ _
  · exact .refl held s

theorem keeps_doItemReplace {it newIt : Ptr} {hv : UInt32} {r : Cache × Bool}
    (h : s.doItemReplace it newIt hv = .ok r) : Keeps held held s r.1 := by
  unfold doItemReplace at h
  split_ifs at h
  · cases h
    exact .refl held s
  · obtain ⟨s₁, hunlink, hs⟩ := Result.bind_eq_ok.mp h
    cases hs
    exact (keeps_doItemUnlink hl hunlink).trans (keeps_doItemLink hl s₁ newIt hv)

theorem keeps_doItemGet {key : List UInt8} {hv : UInt32} {r : Cache × Option Ptr}
    (h : s.doItemGet key hv = .ok r) : Keeps held held s r.1 := by
  obtain ⟨found, -, hs⟩ := Result.bind_eq_ok.mp h
  cases found with
  | none =>
    cases hs
    exact .refl held s
  | some it =>
    simp only at hs
    have hadd : Keeps held held s (s.fetchAdd it) := keeps_fetchAdd s it
    split at hs
    · obtain ⟨s₁, hunlink, hs⟩ := Result.bind_eq_ok.mp hs
      cases hs
      exact (hadd.trans (keeps_doItemUnlink hl hunlink)).trans
        (keeps_doItemRemove (below_slabs hl) s₁ it)
    · cases hs
      exact hadd.trans (.silent rfl rfl rfl)

theorem keeps_doItemTouch {key : List UInt8} {exptime hv : UInt32} {r : Cache × Option Ptr}
    (h : s.doItemTouch key exptime hv = .ok r) : Keeps held held s r.1 := by
  obtain ⟨⟨s₁, found⟩, hget, hs⟩ := Result.bind_eq_ok.mp h
  have hkeeps := keeps_doItemGet hl hget
  cases found with
  | none =>
    cases hs
    exact hkeeps
  | some it =>
    cases hs
    exact hkeeps.trans (.silent rfl rfl rfl)

theorem keeps_doItemAlloc {nkey : ℕ} {nbytes : ℤ} {r : Cache × Option Ptr}
    (h : s.doItemAlloc nkey nbytes = .ok r) : Keeps held held s r.1 := by
  have hslabs := below_slabs_of_cache hl
  unfold doItemAlloc at h
  extract_lets ntotal id at h
  split at h
  · cases h
    exact .refl held s
  · obtain ⟨scan, hscan, hs⟩ := Result.bind_eq_ok.mp h
    have hkeeps := keeps_tailScan hslabs hscan
    split at hs
    · obtain ⟨⟨s₁, it⟩, halloc, hs⟩ := Result.bind_eq_ok.mp hs
      cases hs
      exact .critical hl nofun (hkeeps.trans (keeps_slabsAlloc hslabs halloc))
    · obtain ⟨⟨s₁, it⟩, hpure, hs⟩ := Result.bind_eq_ok.mp hs
      cases hpure
      cases hs
      exact .critical hl nofun hkeeps

section Storing

variable {it : Ptr} {hv : UInt32} {r : Cache × StoreStat × Option UInt64}

omit hl in
theorem keeps_join (s : Cache) (newIt it old : Ptr) (append : Bool) :
    Keeps held held s ((s.joinItem newIt it old append).incCas newIt) := by
  have hjoin : ∃ m, s.joinItem newIt it old append = { s with items := m } := by
    unfold joinItem
    exact ⟨_, rfl⟩
  obtain ⟨m, hm⟩ := hjoin
  rw [hm]
  exact .silent rfl rfl rfl

theorem keeps_storeNew {cmd : Nread} (h : s.storeNew it cmd hv = .ok r) : Keeps held held s r.1 := by
  have hbump : Keeps held held s (s.incCas it) := .silent rfl rfl rfl
  have hlink := hbump.trans (keeps_doItemLink hl (s.incCas it) it hv)
  cases cmd <;> cases h
  case add => exact hlink
  case set => exact hlink
  case error => exact hlink
  all_goals exact .refl held s

theorem keeps_storeReplace {old : Ptr} (h : s.storeReplace it old hv = .ok r) :
    Keeps held held s r.1 := by
  obtain ⟨⟨s₁, linked⟩, hreplace, hs⟩ := Result.bind_eq_ok.mp h
  cases hs
  exact (keeps_doItemReplace hl hreplace).trans (keeps_doItemRemove (below_slabs hl) s₁ old)

theorem keeps_storeJoin {old : Ptr} {append : Bool} (h : s.storeJoin it old append hv = .ok r) :
    Keeps held held s r.1 := by
  have hremove := keeps_doItemRemove (below_slabs hl)
  unfold storeJoin at h
  extract_lets nbytes at h
  split at h
  · cases h
    exact hremove s old
  · obtain ⟨⟨s₁, newIt⟩, halloc, hs⟩ := Result.bind_eq_ok.mp h
    have hkeeps := keeps_doItemAlloc hl halloc
    cases newIt with
    | none =>
      cases hs
      exact hkeeps.trans (hremove s₁ old)
    | some newIt =>
      obtain ⟨⟨s₂, linked⟩, hreplace, hs⟩ := Result.bind_eq_ok.mp hs
      obtain rfl := Except.ok.inj hs
      exact (((hkeeps.trans (keeps_join s₁ newIt it old append)).trans
        (keeps_doItemReplace hl hreplace)).trans
        (hremove s₂ old)).trans (hremove _ newIt)

theorem keeps_storeOver {old : Ptr} {cmd : Nread} (h : s.storeOver it old cmd hv = .ok r) :
    Keeps held held s r.1 := by
  have hremove := keeps_doItemRemove (below_slabs hl)
  have hbump : Keeps held held s (s.incCas it) := .silent rfl rfl rfl
  cases cmd with
  | add =>
    cases h
    exact (keeps_doItemUpdate hl s old).trans (hremove _ old)
  | cas =>
    unfold storeOver at h
    simp only at h
    split at h
    · exact keeps_storeReplace hl h
    · cases h
      exact hremove s old
  | append => exact keeps_storeJoin hl h
  | prepend => exact keeps_storeJoin hl h
  | set => exact hbump.trans (keeps_storeReplace hl h)
  | replace => exact hbump.trans (keeps_storeReplace hl h)
  | error => exact hbump.trans (keeps_storeReplace hl h)

theorem keeps_doStoreItem {cmd : Nread} (h : s.doStoreItem it cmd hv = .ok r) :
    Keeps held held s r.1 := by
  obtain ⟨⟨s₁, old⟩, hget, hs⟩ := Result.bind_eq_ok.mp h
  have hkeeps := keeps_doItemGet hl hget
  cases old with
  | none => exact hkeeps.trans (keeps_storeNew hl hs)
  | some old => exact hkeeps.trans (keeps_storeOver hl hs)

end Storing

end CacheLock

/-- The public operations of `LRU_list`. -/
inductive Operation
  | itemGet (key : List UInt8)
  | itemTouch (key : List UInt8) (exptime : UInt32)
  | itemAlloc (nkey : ℕ) (nbytes : ℤ)
  | itemLink (it : Ptr)
  | itemUnlink (it : Ptr)
  | itemUpdate (it : Ptr)
  | itemRemove (it : Ptr)
  | storeItem (it : Ptr) (cmd : Nread)

/-- The cache that a public operation leaves. -/
def perform (s : Cache) : Operation → Result Cache
  | .itemGet key => do pure (← s.itemGet key).1
  | .itemTouch key exptime => do pure (← s.itemTouch key exptime).1
  | .itemAlloc nkey nbytes => do pure (← s.itemAlloc nkey nbytes).1
  | .itemLink it => .ok (s.itemLink it).1
  | .itemUnlink it => s.itemUnlink it
  | .itemUpdate it => .ok (s.itemUpdate it)
  | .itemRemove it => .ok (s.itemRemove it)
  | .storeItem it cmd => do pure (← s.storeItem it cmd).1

theorem Lock.below_cache_of_item (i : ℕ) : ∀ h ∈ [Lock.item i], h.rank < Lock.cache.rank := by
  intro h hmem
  rw [List.mem_singleton.mp hmem]
  exact Nat.zero_lt_one

theorem keeps_perform {op : Operation} (h : s.perform op = .ok s') : Keeps [] [] s s' := by
  have hitem : ∀ hv, ∀ h ∈ [Lock.item (s.lockIndex hv)], h.rank < Lock.cache.rank := fun hv =>
    Lock.below_cache_of_item _
  cases op with
  | itemGet key =>
    obtain ⟨r, hget, hs⟩ := Result.bind_eq_ok.mp h
    obtain ⟨r₁, hbody, hr⟩ := Result.bind_eq_ok.mp hget
    cases hr
    cases hs
    exact .hashed (keeps_doItemGet (hitem _) hbody)
  | itemTouch key exptime =>
    obtain ⟨r, htouch, hs⟩ := Result.bind_eq_ok.mp h
    obtain ⟨r₁, hbody, hr⟩ := Result.bind_eq_ok.mp htouch
    cases hr
    cases hs
    exact .hashed (keeps_doItemTouch (hitem _) hbody)
  | itemAlloc nkey nbytes =>
    obtain ⟨r, halloc, hs⟩ := Result.bind_eq_ok.mp h
    cases hs
    exact keeps_doItemAlloc (by simp) halloc
  | itemLink it =>
    cases h
    exact .hashed (keeps_doItemLink (hitem _) _ it _)
  | itemUnlink it =>
    obtain ⟨s₁, hbody, hs⟩ := Result.bind_eq_ok.mp h
    cases hs
    exact .hashed (keeps_doItemUnlink (hitem _) hbody)
  | itemUpdate it =>
    cases h
    exact .hashed (keeps_doItemUpdate (hitem _) _ it)
  | itemRemove it =>
    cases h
    exact .hashed (keeps_doItemRemove (below_slabs (hitem _)) _ it)
  | storeItem it cmd =>
    obtain ⟨r, hstore, hs⟩ := Result.bind_eq_ok.mp h
    obtain ⟨r₁, hbody, hr⟩ := Result.bind_eq_ok.mp hstore
    cases hr
    cases hs
    exact .hashed (keeps_doStoreItem (hitem _) hbody)

/-- Whatever state a public operation starts in, if it returns, it has waited for locks
in their order only and has given back all that it took. -/
theorem perform_orderly {op : Operation} (h : s.perform op = .ok s') :
    ∃ es : List Event, s'.trace = es.reverse ++ s.trace ∧
      follow Lock.rank [] (es.filterMap Event.locking) = some [] :=
  (keeps_perform h ⟨List.nodup_nil, nofun⟩).2.2

/-- A value is stored, and the block of an `append` to it has come. -/
def joining (s : Cache) : Result (Cache × Option Ptr) := do
  match ← s.allocLine (shortLine .set 97 0 0 0) with
  | (s, none) => pure (s, none)
  | (s, some it) =>
    let (s, _, _) ← s.commandBlock it .set [120, 13, 10]
    match ← s.allocLine (shortLine .append 97 0 0 1) with
    | (s, none) => pure (s, none)
    | (s, some new) => pure (s.writeValue new [121, 13, 10], some new)

/-- The `append` takes locks of all three kinds. -/
theorem perform_orderly_append : ∃ s₀ s new s', Cache.init 0 .twoChunks (fun _ => true) 0 = some s₀ ∧
    s₀.joining = .ok (s, some new) ∧ s.perform (.storeItem new .append) = .ok s' ∧
    ∃ es : List Event, s'.trace = es.reverse ++ s.trace ∧
      follow Lock.rank [] (es.filterMap Event.locking) = some [] ∧
      .lock (.item 0) ∈ es ∧ .lock .cache ∈ es ∧ .lock .slabs ∈ es := by
  have htrial : (Cache.init 0 .twoChunks (fun _ => true) 0).any (fun s₀ => s₀.joining.toOption.any fun r =>
      r.2.any fun new => (r.1.perform (.storeItem new .append)).toOption.any fun s' =>
        decide (∀ l ∈ [Lock.item 0, .cache, .slabs],
          Event.lock l ∈ s'.trace.take (s'.trace.length - r.1.trace.length))) = true := by
    decide +kernel
  obtain ⟨s₀, hinit, hs⟩ := (Option.any_eq_true _ _).mp htrial
  obtain ⟨⟨s, it⟩, hjoin, hs⟩ := (Option.any_eq_true _ _).mp hs
  obtain ⟨new, rfl, hs⟩ := (Option.any_eq_true _ _).mp hs
  obtain ⟨s', hs', hs⟩ := (Option.any_eq_true _ _).mp hs
  have hrun := Result.eq_ok_of_toOption hs'
  obtain ⟨es, htrace, hfollow⟩ := perform_orderly hrun
  have hes : s'.trace.take (s'.trace.length - s.trace.length) = es.reverse := by
    rw [htrace, List.length_append, Nat.add_sub_cancel, List.take_left]
  have htaken : ∀ l ∈ [Lock.item 0, .cache, .slabs], Event.lock l ∈ es := fun l hl => by
    have hmem := of_decide_eq_true hs l hl
    rwa [hes, List.mem_reverse] at hmem
  exact ⟨s₀, s, new, s', hinit, Result.eq_ok_of_toOption hjoin, hrun, es, htrace, hfollow, htaken _ (by simp),
    htaken _ (by simp), htaken _ (by simp)⟩

end Cache

end MiniMemcached
