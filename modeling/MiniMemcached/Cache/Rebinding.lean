import MiniMemcached.Cache.CommandPaths
import MiniMemcached.Maps.Lossy

/-! The table as a map that may forget. A path of primitive steps that links and unlinks
items of one key rebinds this key: the items of the other buckets stay in the table, and
those of its own bucket stay unless an item of the key was unlinked. -/

namespace MiniMemcached

open Maps Runs

/-- The bucket of a key. -/
def Cache.bucketOf (s : Cache) (k : List UInt8) : ℕ := s.hashtable.bucket (HashTable.hash k)

theorem bucketOf_congr {s s' : Cache} (h : s'.hashtable.hashpower = s.hashtable.hashpower)
    (k : List UInt8) : s'.bucketOf k = s.bucketOf k := by
  unfold Cache.bucketOf HashTable.bucket
  rw [h]

/-- An item stays in its bucket when no item with a key of the bucket is unlinked. -/
theorem Prim.mem_buckets {x y : Cache × Shape} {a : Act} (hp : Prim x a y) {b : ℕ} {p : Ptr}
    (h : p ∈ x.2.buckets b) (hno : ∀ q, a = .unlink q → x.1.bucketOf (x.1.items.key q) ≠ b) :
    p ∈ y.2.buckets b := by
  cases hp with
  | @unlink s g q f P c hq hf hB =>
    have hne : b ≠ s.hashtable.bucket (HashTable.hash (s.items.key q)) := fun e => hno q rfl e.symm
    show p ∈ Function.update g.buckets _ _ b
    rw [Function.update_of_ne hne]
    exact h
  | grant hg => exact hg.buckets ▸ h
  | @link s g it Q hit hkey hf hsound =>
    show p ∈ Function.update g.buckets _ _ b
    rw [Function.update_apply]
    split_ifs with hb
    · exact List.mem_cons_of_mem it (hb ▸ h)
    · exact h
  | _ => exact h

namespace Steps

variable {s s' : Cache} {g g' : Shape} {acts : List Act} {k : List UInt8}

theorem bucketOf (hsteps : Steps s g acts s' g') (h : Sound s g) (k : List UInt8) :
    s'.bucketOf k = s.bucketOf k :=
  bucketOf_congr (hsteps.evolves h (K := ∅) (by simp) (by simp)).hashpower k

theorem mem_buckets (hsteps : Steps s g acts s' g') (h : Sound s g) {b : ℕ} {p : Ptr}
    (hp : p ∈ g.buckets b) (hno : ∀ q, .unlink q ∈ acts → q ∈ g.table ∧ s.bucketOf (s.items.key q) ≠ b) :
    p ∈ g'.buckets b := by
  have hE : ∀ q, .unlink q ∈ acts → q ∈ s.everLinked := fun q hq => (h.linked q (hno q hq).1).1
  have hb : ∀ q, .unlink q ∈ acts → s.bucketOf (s.items.key q) ≠ b := fun q hq => (hno q hq).2
  clear hno
  induction acts generalizing s g with
  | nil => cases hsteps; exact hp
  | cons a acts ih =>
    cases hsteps with
    | @cons _ m _ _ _ hstep hrest =>
      have hsingle : Steps s g [a] m.1 m.2 := .single hstep
      have hev := hsingle.evolves h (K := ∅) (by simp) (by simp)
      have hm : p ∈ m.2.buckets b :=
        hstep.mem_buckets hp fun q hq => hb q (by rw [hq]; exact List.mem_cons_self ..)
      refine ih hrest (hstep.sound h) hm (fun q hq => ?_) fun q hq => ?_
      · exact hsingle.everLinked_mono h (hE q (List.mem_cons_of_mem _ hq))
      · have hqE := hE q (List.mem_cons_of_mem _ hq)
        rw [hsingle.bucketOf h, hev.key (.inl hqE)]
        exact hb q (List.mem_cons_of_mem _ hq)

/-- A path that links and unlinks items of one key rebinds the key. -/
theorem rebinds (hsteps : Steps s g acts s' g') (h : Sound s g)
    (hlink : ∀ q, .link q ∈ acts → s'.items.key q = k)
    (hunlink : ∀ q, .unlink q ∈ acts → q ∈ g.table ∧ s.items.key q = k) :
    Rebinds s.bucketOf s.found k (s'.found k) s'.found := by
  have hs' := hsteps.sound h
  have hev := hsteps.evolves h (K := ∅) (by simp) (by simp)
  refine ⟨rfl, fun j hj => ?_⟩
  -- an item with another key was there before
  have hback : ∀ p, s'.found j = some p → s.found j = some p := by
    intro p hp
    obtain ⟨hpT, hk⟩ := (hs'.mem_found_iff j p).mp hp
    have hold : p ∈ g.table := (hsteps.table_of_link hpT).resolve_right fun hl =>
      hj (hk.symm.trans (hlink p hl))
    exact (h.mem_found_iff j p).mpr ⟨hold, (hev.key (.inl (h.linked p hold).1)).symm.trans hk⟩
  cases hf : s.found j with
  | none =>
    left
    refine Option.eq_none_iff_forall_not_mem.mpr fun p hp => ?_
    cases hf.symm.trans (hback p hp)
  | some p =>
    obtain ⟨⟨b, hpb⟩, hk⟩ := (h.mem_found_iff j p).mp hf
    by_cases hcls : (∃ q, .unlink q ∈ acts) ∧ s.bucketOf j = s.bucketOf k
    · obtain ⟨⟨q, hq⟩, hcls⟩ := hcls
      cases hf' : s'.found j with
      | none =>
        have hqk : q ∈ s.found k := (h.mem_found_iff k q).mpr (hunlink q hq)
        exact .inr ⟨rfl, Option.isSome_iff_exists.mpr ⟨q, hqk⟩, hcls⟩
      | some p' => exact .inl ((hback p' hf').symm.trans hf)
    · left
      have hb : s.bucketOf j = b := hk ▸ h.buckets.home b p hpb
      have hstay : p ∈ g'.buckets b := by
        refine hsteps.mem_buckets h hpb fun q hq => ⟨(hunlink q hq).1, fun e => hcls ⟨⟨q, hq⟩, ?_⟩⟩
        rw [hb, ← e, (hunlink q hq).2]
      refine (hs'.mem_found_iff j p).mpr ⟨⟨b, hstay⟩, ?_⟩
      rw [hev.key (.inl (h.linked p ⟨b, hpb⟩).1), hk]

end Steps

/-! ### What the commands link and unlink -/

theorem GetActs.unlinked {s : Cache} {g : Shape} {k : List UInt8} {acts : List Act} {r : Option Ptr}
    (h : GetActs s g k acts r) {q : Ptr} (hq : .unlink q ∈ acts) : q ∈ g.table ∧ s.items.key q = k := by
  cases h with
  | miss => cases hq
  | live => simp at hq
  | expired p hp hk =>
    obtain rfl : q = p := by simpa using hq
    exact ⟨hp, hk⟩

theorem GetActs.found_of_some {s : Cache} {g : Shape} {k : List UInt8} {acts : List Act} {p : Ptr}
    (h : GetActs s g k acts (some p)) : p ∈ g.table ∧ s.items.key p = k := by
  cases h with
  | live _ hp hk => exact ⟨hp, hk⟩

theorem RemoveActs.unlinked {s : Cache} {g : Shape} {k : List UInt8} {acts : List Act} {b : Bool}
    (h : RemoveActs s g k acts b) {q : Ptr} (hq : .unlink q ∈ acts) : q ∈ g.table ∧ s.items.key q = k := by
  cases h with
  | miss acts hget => exact hget.unlinked (by simpa using hq)
  | hit p hp hk =>
    obtain rfl : q = p := by simpa using hq
    exact ⟨hp, hk⟩

theorem StoreActs.unlinked {s : Cache} {g : Shape} {it : Ptr} {cmd : Nread} {acts : List Act}
    {stat : StoreStat} (h : StoreActs s g it cmd acts stat) {q : Ptr} (hq : .unlink q ∈ acts) :
    q ∈ g.table ∧ s.items.key q = s.items.key it := by
  have hact : Act.unlink q ≠ linkAct s it := by
    unfold linkAct
    split_ifs <;> simp
  cases h with
  | noKey acts hget
  | stale old acts hget
  | full old acts hget => exact hget.unlinked (by simpa using hq)
  | new acts hget => exact hget.unlinked (by simpa [hact] using hq)
  | taken old acts hget =>
    refine hget.unlinked ?_
    unfold touchActs at hq
    split_ifs at hq <;> simpa using hq
  | replaced old acts hget
  | swapped old acts hget
  | joined old new acts hget =>
    have hcases : .unlink q ∈ acts ∨ q = old := by simpa [hact] using hq
    rcases hcases with hq | rfl
    · exact hget.unlinked hq
    · exact hget.found_of_some

/-- Nothing is linked on the way of a path without `link`. -/
theorem Act.linking_of_none {acts : List Act} (h : ∀ p, .link p ∉ acts) (l : List Ptr) :
    acts.foldl Act.linking l = l := by
  induction acts with
  | nil => rfl
  | cons a acts ih =>
    have hrest : ∀ p, .link p ∉ acts := fun p hp => h p (List.mem_cons_of_mem a hp)
    cases a with
    | link p => exact absurd (List.mem_cons_self ..) (h p)
    | _ => exact ih hrest

/-- A storage command links one item at most. -/
theorem StoreActs.linking {s : Cache} {g : Shape} {it : Ptr} {cmd : Nread} {acts : List Act}
    {stat : StoreStat} (h : StoreActs s g it cmd acts stat) {p : Ptr} (hp : .link p ∈ acts) (l : List Ptr) :
    acts.foldl Act.linking l = p :: l := by
  have hget : ∀ {acts r}, GetActs s g (s.items.key it) acts r → acts.foldl Act.linking l = l := fun hget =>
    Act.linking_of_none (fun q => (hget.noLink q).1) l
  cases h with
  | noKey acts hg
  | stale old acts hg
  | full old acts hg => simp [(hg.noLink p).1] at hp
  | taken old acts hg =>
    unfold touchActs at hp
    split_ifs at hp <;> simp [(hg.noLink p).1] at hp
  | joined old new acts hg =>
    obtain rfl : p = new := by simpa [(hg.noLink p).1] using hp
    rw [List.foldl_append, hget hg]
    rfl
  | new acts hg
  | replaced old acts hg
  | swapped old acts hg =>
    have hlink : linkAct s it = .link p := by
      have : .link p = linkAct s it := by simpa [(hg.noLink p).1] using hp
      exact this.symm
    rw [List.foldl_append, hget hg, hlink]
    rfl

end MiniMemcached
