import MiniMemcached.Cache.Primitive

/-! Lookup and removal as paths of primitive steps. A lookup finds nothing, takes a
reference to the live item with the key, or unlinks the item with the key
because it has expired. -/

namespace MiniMemcached

open Runs

/-- `do_item_get` drops the item instead of returning it. -/
def Cache.expired (s : Cache) (p : Ptr) : Prop := s.items.exptime p ≠ 0 ∧ s.items.exptime p ≤ s.clock

instance (s : Cache) (p : Ptr) : Decidable (s.expired p) := by
  unfold Cache.expired
  infer_instance

/-- The state behind a lookup that returns `p`. -/
def Cache.fetched (s : Cache) (p : Ptr) : Cache :=
  (s.fetchAdd p).setFlag p (s.items.itemFlag p ||| Slab.ITEM_FETCHED)

theorem Cache.shown_fetched (s : Cache) (p q : Ptr) : (s.fetched p).items.shown q = s.items.shown q := by
  by_cases hq : q = p
  · subst hq
    simp [Items.shown, fetched, setFlag, fetchAdd, Items.setFlag, Items.setRefcount]
  · simp [Items.shown, fetched, setFlag, fetchAdd, Items.setFlag, Items.setRefcount, hq]

/-- No item of the table has the key. -/
def Shape.Absent (g : Shape) (m : Items) (k : List UInt8) : Prop := ∀ p ∈ g.table, m.key p ≠ k

/-- What `do_item_unlink` does to an item that was linked once. -/
def unlinkActs (s : Cache) (p : Ptr) : List Act :=
  if s.items.itemFlag p &&& Slab.ITEM_LINKED ≠ 0 then [.quiet, .unlink p, .quiet]
  else [.quiet, .quiet]

/-- The ways a lookup of `k` can go. -/
inductive GetActs (s : Cache) (g : Shape) (k : List UInt8) : List Act → Option Ptr → Prop
  | miss (h : g.Absent s.items k) : GetActs s g k [] none
  | live (p : Ptr) (hp : p ∈ g.table) (hk : s.items.key p = k) (hl : ¬s.expired p) :
      GetActs s g k [.ref p, .fetch p] (some p)
  | expired (p : Ptr) (hp : p ∈ g.table) (hk : s.items.key p = k) (he : s.expired p) :
      GetActs s g k [.ref p, .quiet, .unlink p, .quiet, .unref p] none

/-- The locks do not matter for a lookup. -/
theorem GetActs.hashLock {s : Cache} {g : Shape} {k : List UInt8} {hv : UInt32} {acts : List Act}
    {r : Option Ptr} (h : GetActs (s.hashLock hv) g k acts r) : GetActs s g k acts r := by
  cases h with
  | miss hm => exact .miss hm
  | live p hp hk hl => exact .live p hp hk hl
  | expired p hp hk he => exact .expired p hp hk he

/-- A lookup of the key of an expired item unlinks the item. -/
theorem GetActs.unlink_mem {s : Cache} {g : Shape} {k : List UInt8} {acts : List Act} {r : Option Ptr}
    (h : GetActs s g k acts r) (hs : Sound s g) {p : Ptr} (hp : p ∈ g.table) (hk : s.items.key p = k)
    (he : s.expired p) : .unlink p ∈ acts := by
  have hinj : ∀ q ∈ g.table, s.items.key q = k → p = q := by
    rintro q ⟨b', hq⟩ hkq
    obtain ⟨b, hp⟩ := hp
    exact hs.buckets.key_inj hp hq (hk.trans hkq.symm)
  cases h with
  | miss hm => exact absurd hk (hm p hp)
  | live q hq hkq hl => exact absurd (hinj q hq hkq ▸ he) hl
  | expired q hq hkq he' =>
    obtain rfl := hinj q hq hkq
    simp

namespace Steps

variable {s s' : Cache} {g g' : Shape}

/-- A key comes into the table with a linked item only. -/
theorem absent {acts : List Act} {k : List UInt8} (hsteps : Steps s g acts s' g') (h : Sound s g)
    (habs : g.Absent s.items k) (hlink : ∀ q, .link q ∈ acts → s'.items.key q ≠ k) :
    g'.Absent s'.items k := by
  intro q hq
  rcases hsteps.table_of_link hq with hq | hq
  · have hev := hsteps.evolves h (K := ∅) (by simp) (by simp)
    rw [hev.key (.inl (h.linked q hq).1)]
    exact habs q hq
  · exact hlink q hq

/-- The key of an unlinked item stays out of the table until an item with it is linked. -/
theorem absent_of_unlink {acts : List Act} (hsteps : Steps s g acts s' g') (h : Sound s g) {p : Ptr}
    (hp : p ∈ s.everLinked) (hu : .unlink p ∈ acts)
    (hlink : ∀ q, .link q ∈ acts → s'.items.key q ≠ s.items.key p) :
    g'.Absent s'.items (s.items.key p) := by
  obtain ⟨as, bs, rfl⟩ := List.append_of_mem hu
  obtain ⟨⟨s₁, g₁⟩, hpre, hrest⟩ := Path.append_iff.mp hsteps
  have h₁ := Steps.sound hpre h
  have hkey : s₁.items.key p = s.items.key p :=
    (Steps.evolves hpre h (K := ∅) (by simp) (by simp)).key (.inl hp)
  cases hrest with
  | @cons _ m _ _ _ hunlink hpost =>
    have h₂ := hunlink.sound h₁
    refine absent hpost h₂ (fun q hq => ?_) fun q hq =>
      hlink q (List.mem_append_right _ (List.mem_cons_of_mem _ hq))
    cases hunlink with
    | unlink hpE hf hB => exact hkey ▸ h₁.key_ne_of_dropped hq

/-- An unlinked item does not come back. -/
theorem notMem_of_unlink {acts : List Act} (hsteps : Steps s g acts s' g') (h : Sound s g) {p : Ptr}
    (hp : p ∈ s.everLinked) (hu : .unlink p ∈ acts) : p ∉ g'.table := by
  intro hpT
  obtain ⟨as, bs, rfl⟩ := List.append_of_mem hu
  obtain ⟨⟨s₁, g₁⟩, hpre, hrest⟩ := Path.append_iff.mp hsteps
  have h₁ := Steps.sound hpre h
  have hp₁ := Steps.everLinked_mono hpre h hp
  cases hrest with
  | @cons _ m _ _ _ hunlink hpost =>
    have h₂ := hunlink.sound h₁
    have hp₂ := Steps.everLinked_mono (.single hunlink) h₁ hp₁
    rcases (Steps.evolves hpost h₂ (K := ∅) (by simp) (by simp)).table p hpT with hpm | hpm
    · cases hunlink with
      | unlink hpE hf hB => exact h₁.key_ne_of_dropped hpm rfl
    · exact hpm hp₂

theorem quiet (locks : ℕ → Bool) (t : List Event) (hl : Event.links t = [])
    (hf : ∀ p v, Event.fetchSub p v ∉ t) :
    Steps s g [.quiet] { s with itemLocks := locks, trace := t ++ s.trace } g :=
  .single (.quiet locks t hl hf)

theorem lock (l : Lock) : Steps s g [.quiet] (s.lock l) g := quiet s.itemLocks [.lock l] rfl (by simp)

theorem unlock (l : Lock) : Steps s g [.quiet] (s.unlock l) g :=
  quiet s.itemLocks [.unlock l] rfl (by simp)

theorem hashLock (hv : UInt32) : Steps s g [.quiet] (s.hashLock hv) g :=
  quiet (Function.update s.itemLocks (s.lockIndex hv) true) [.lock (.item (s.lockIndex hv))] rfl
    (by simp)

theorem hashUnlock (hv : UInt32) : Steps s g [.quiet] (s.hashUnlock hv) g :=
  quiet (Function.update s.itemLocks (s.lockIndex hv) false) [.unlock (.item (s.lockIndex hv))] rfl
    (by simp)

theorem doItemRemove (h : Sound s g) {p : Ptr} (hp : p ∈ s.everLinked) :
    Steps s g [.unref p] (s.doItemRemove p) g := by
  rw [Cache.doItemRemove_eq (h.unslabbed p hp)]
  exact .single (.unref hp)

/-- `do_item_unlink` returns. -/
theorem doItemUnlink (h : Sound s g) {p : Ptr} (hp : p ∈ s.everLinked) :
    ∃ s' g', s.doItemUnlink p (HashTable.hash (s.items.key p)) = .ok s' ∧
      Steps s g (unlinkActs s p) s' g' ∧
      (s.items.itemFlag p &&& Slab.ITEM_LINKED ≠ 0 → g'.Absent s'.items (s.items.key p)) := by
  unfold Cache.doItemUnlink unlinkActs
  by_cases hf : s.items.itemFlag p &&& Slab.ITEM_LINKED ≠ 0
  · obtain ⟨f, P, c, heq, hB⟩ := (h.lock .cache).doItemUnlinkNolock_eq hp hf
    have heq' : (s.lock .cache).doItemUnlinkNolock p (HashTable.hash (s.items.key p)) = _ := heq
    refine ⟨_, g.dropped (s.lock .cache) p, by rw [heq', Result.ok_bind, Result.pure_eq], ?_,
      fun _ q hq => ?_⟩
    · rw [if_pos hf]
      exact .append (lock .cache) (.cons (.unlink hp hf hB) (unlock .cache))
    · exact (h.lock .cache).key_ne_of_dropped hq
  · rw [not_not] at hf
    have heq : (s.lock .cache).doItemUnlinkNolock p (HashTable.hash (s.items.key p)) =
        .ok (s.lock .cache) := Cache.doItemUnlinkNolock_skip (s := s.lock .cache) hf _
    refine ⟨_, g, by rw [heq, Result.ok_bind, Result.pure_eq], ?_, fun hf' => absurd hf hf'⟩
    rw [if_neg (not_not.mpr hf)]
    exact .append (lock .cache) (unlock .cache)

theorem doItemGet (h : Sound s g) (k : List UInt8) :
    ∃ s' g' acts r, s.doItemGet k (HashTable.hash k) = .ok (s', r) ∧ Steps s g acts s' g' ∧
      GetActs s g k acts r ∧ (r = none → g'.Absent s'.items k) ∧
      ∀ p, r = some p → s' = s.fetched p ∧ g' = g := by
  unfold Cache.doItemGet
  rcases h.find_cases k with ⟨hfind, hmiss⟩ | ⟨p, hp, hk, hfind⟩
  · exact ⟨s, g, [], none, by rw [hfind]; rfl, .nil _, .miss hmiss, fun _ => hmiss, by simp⟩
  · have hpE := (h.linked p hp).1
    rw [hfind]
    by_cases he : s.expired p
    · -- the flags are those of `s`, so the item is unlinked
      obtain ⟨s₁, g₁, heq, hsteps, habs⟩ := doItemUnlink (h.fetchAdd hpE) hpE
      have hlinked : (s.fetchAdd p).items.itemFlag p &&& Slab.ITEM_LINKED ≠ 0 := (h.linked p hp).2
      have hacts : unlinkActs (s.fetchAdd p) p = [.quiet, .unlink p, .quiet] := if_pos hlinked
      rw [hacts] at hsteps
      have hkey : (s.fetchAdd p).items.key p = k := hk
      rw [hkey] at heq habs
      have hs₁ : Sound s₁ g₁ := hsteps.sound (h.fetchAdd hpE)
      have hpE₁ : p ∈ s₁.everLinked := Cache.everLinked_mono
        (hsteps.evolves (K := ∅) (h.fetchAdd hpE) (by simp) (by simp)).trace hpE
      refine ⟨s₁.doItemRemove p, g₁, [.ref p, .quiet, .unlink p, .quiet, .unref p], none, ?_, ?_,
        .expired p hp hk he, fun _ => ?_, by simp⟩
      · have he' : (s.fetchAdd p).items.exptime p ≠ 0 ∧
            (s.fetchAdd p).items.exptime p ≤ (s.fetchAdd p).clock := he
        simp only [Result.ok_bind, if_pos he', heq, Result.pure_eq]
      · exact .cons (.ref hpE) (hsteps.append (doItemRemove hs₁ hpE₁))
      · rw [Cache.doItemRemove_eq (hs₁.unslabbed p hpE₁)]
        exact habs hlinked
    · have he' : ¬((s.fetchAdd p).items.exptime p ≠ 0 ∧
          (s.fetchAdd p).items.exptime p ≤ (s.fetchAdd p).clock) := he
      refine ⟨s.fetched p, g, [.ref p, .fetch p], some p,
        by simp only [Result.ok_bind, if_neg he', Result.pure_eq]; rfl,
        ?_, .live p hp hk he, by simp, by simp⟩
      have hpE' : p ∈ (s.fetchAdd p).everLinked := hpE
      exact .cons (.ref hpE) (.single (.fetch hpE'))

/-- `item_get` returns. -/
theorem itemGet (h : Sound s g) (k : List UInt8) :
    ∃ s' g' acts r, s.itemGet k = .ok (s', r) ∧ Steps s g (.quiet :: acts ++ [.quiet]) s' g' ∧
      GetActs s g k acts r ∧ (r = none → g'.Absent s'.items k) ∧
      ∀ p, r = some p →
        s' = ((s.hashLock (HashTable.hash k)).fetched p).hashUnlock (HashTable.hash k) ∧ g' = g := by
  obtain ⟨s', g', acts, r, heq, hsteps, hacts, habs, hlive⟩ :=
    doItemGet (h.hashLock (HashTable.hash k)) k
  refine ⟨s'.hashUnlock (HashTable.hash k), g', acts, r, ?_, ?_, hacts.hashLock, habs,
    fun p hp => ?_⟩
  · unfold Cache.itemGet
    simp only [heq, Result.ok_bind, Result.pure_eq]
  · exact ((hashLock _).append hsteps).append (hashUnlock _)
  · rw [(hlive p hp).1]
    exact ⟨rfl, (hlive p hp).2⟩

theorem itemUnlink (h : Sound s g) {p : Ptr} (hp : p ∈ s.everLinked) :
    ∃ s' g', s.itemUnlink p = .ok s' ∧ Steps s g (.quiet :: unlinkActs s p ++ [.quiet]) s' g' ∧
      (s.items.itemFlag p &&& Slab.ITEM_LINKED ≠ 0 → g'.Absent s'.items (s.items.key p)) := by
  obtain ⟨s', g', heq, hsteps, habs⟩ :=
    doItemUnlink (h.hashLock (HashTable.hash (s.items.key p))) hp
  refine ⟨s'.hashUnlock (HashTable.hash (s.items.key p)), g', ?_, ?_, habs⟩
  · unfold Cache.itemUnlink
    have heq' : (s.hashLock (HashTable.hash (s.items.key p))).doItemUnlink p
        (HashTable.hash (s.items.key p)) = .ok s' := heq
    simp only [heq', Result.ok_bind, Result.pure_eq]
  · exact ((hashLock _).append hsteps).append (hashUnlock _)

theorem itemRemove (h : Sound s g) {p : Ptr} (hp : p ∈ s.everLinked) :
    Steps s g [.quiet, .unref p, .quiet] (s.itemRemove p) g :=
  ((hashLock _).append (doItemRemove (h.hashLock _) hp)).append (hashUnlock _)

end Steps

end MiniMemcached
