import MiniMemcached.Cache.Arena
import MiniMemcached.Cache.Buckets

/-! The invariant of the cache. A shape names what the pointers of a state stand
for: the chunks handed out and not stored yet, the freelists, the buckets, and
the set of items that the LRU pointers stay in. `Sound` says that the state has
this shape, that an item in the table carries `ITEM_LINKED` and was linked, that
no chunk in use is free, and that the links of the trace are numbered. -/

namespace MiniMemcached

open MiniMemcached.Lists

/-- The links of a trace, the last one first. -/
def Event.links : List Event → List (Ptr × UInt64)
  | [] => []
  | .link it id :: l => (it, id) :: Event.links l
  | _ :: l => Event.links l

theorem Event.links_append (l₁ l₂ : List Event) :
    Event.links (l₁ ++ l₂) = Event.links l₁ ++ Event.links l₂ := by
  induction l₁ with
  | nil => rfl
  | cons e l₁ ih => cases e <;> simp [Event.links, ih]

/-- The links are numbered from 1 in the order they were made. -/
def Numbered : List (Ptr × UInt64) → Prop
  | [] => True
  | (_, id) :: l => id = UInt64.ofNat (l.length + 1) ∧ Numbered l

namespace Cache

def links (s : Cache) : List (Ptr × UInt64) := Event.links s.trace

/-- The items that `do_item_link` ever linked. -/
def everLinked (s : Cache) : Set Ptr := {p | ∃ id, (p, id) ∈ s.links}

end Cache

/-- The item that `hash_find` of the key returns. -/
def Cache.found (s : Cache) (k : List UInt8) : Option Ptr :=
  (s.hashFind k (HashTable.hash k)).toOption.join

theorem Cache.mem_found {s : Cache} {k : List UInt8} {p : Ptr} :
    p ∈ s.found k ↔ s.hashFind k (HashTable.hash k) = .ok (some p) := by
  unfold found
  cases s.hashFind k (HashTable.hash k) with
  | error e => simp [Except.toOption]
  | ok r => simp [Except.toOption]

/-- What the pointers of a cache stand for. -/
structure Shape where
  inFlight : Set Ptr
  free : ℕ → List Ptr
  buckets : ℕ → List Ptr
  queue : Set Ptr

/-- The items chained in the table. -/
def Shape.table (g : Shape) : Set Ptr := {p | ∃ b, p ∈ g.buckets b}

structure Sound (s : Cache) (g : Shape) : Prop where
  slab : SlabRep s.items s.slab g.free
  buckets : Buckets HashTable.hash s.items s.hashtable g.buckets
  clsid : ∀ p, s.items.slabsClsid p = 0
  linked : ∀ p ∈ g.table, p ∈ s.everLinked ∧ s.items.itemFlag p &&& Slab.ITEM_LINKED ≠ 0
  unslabbed : ∀ p ∈ s.everLinked, s.items.itemFlag p &&& Slab.ITEM_SLABBED = 0
  used : ∀ p, p ∈ s.everLinked ∨ p ∈ g.inFlight →
    (∃ id, p ∈ (s.slab.cls id).chunks) ∧ ∀ id, p ∉ g.free id
  unlinked : ∀ p ∈ g.inFlight, p ∉ s.everLinked
  queue : ∀ p ∈ g.queue, p ∈ s.everLinked
  lru : LruClosed s.items s.lru g.queue
    {p | p ∈ s.everLinked ∨ p ∈ g.inFlight ∨ ∃ id, (s.slab.cls id).slots = some p}
  numbered : Numbered s.links
  once : (s.links.map Prod.fst).Nodup
  stamped : ∀ p id, (p, id) ∈ s.links → s.items.cas p = id
  casId : s.casId = UInt64.ofNat s.links.length

/-- What an operation leaves alone: links are only added, an item never comes back
to the table, a linked item keeps its key, value and ids, and so do, with their
flags and counters, the items `K`. -/
structure Evolves (s : Cache) (g : Shape) (s' : Cache) (g' : Shape) (K : Set Ptr) : Prop where
  trace : s.trace <:+ s'.trace
  table : ∀ p ∈ g'.table, p ∈ g.table ∨ p ∉ s.everLinked
  data : ∀ p, p ∈ s.everLinked ∨ p ∈ K → s'.items.data p = s.items.data p
  nkey : ∀ p, p ∈ s.everLinked ∨ p ∈ K → s'.items.nkey p = s.items.nkey p
  nbytes : ∀ p, p ∈ s.everLinked ∨ p ∈ K → s'.items.nbytes p = s.items.nbytes p
  exptime : ∀ p, p ∈ s.everLinked ∨ p ∈ K → s'.items.exptime p = s.items.exptime p
  cas : ∀ p, p ∈ s.everLinked ∨ p ∈ K → s'.items.cas p = s.items.cas p
  itemFlag : ∀ p ∈ K, s'.items.itemFlag p = s.items.itemFlag p
  refcount : ∀ p ∈ K, s'.items.refcount p = s.items.refcount p
  sizes : Slab.SameTable s.slab s'.slab
  hashpower : s'.hashtable.hashpower = s.hashtable.hashpower
  clock : s'.clock = s.clock
  memSetting : s'.memSetting = s.memSetting

theorem Cache.links_mono {s s' : Cache} (h : s.trace <:+ s'.trace) : s.links ⊆ s'.links := by
  obtain ⟨l, hl⟩ := h
  intro e he
  rw [links, ← hl, Event.links_append]
  exact List.mem_append_right _ he

theorem Cache.everLinked_mono {s s' : Cache} (h : s.trace <:+ s'.trace) :
    s.everLinked ⊆ s'.everLinked :=
  fun _ ⟨id, hid⟩ => ⟨id, links_mono h hid⟩

namespace Evolves

variable {s s₁ s₂ : Cache} {g g₁ g₂ : Shape} {K : Set Ptr}

theorem refl (s : Cache) (g : Shape) (K : Set Ptr) : Evolves s g s g K :=
  ⟨List.suffix_refl _, fun _ hp => .inl hp, fun _ _ => rfl, fun _ _ => rfl, fun _ _ => rfl,
    fun _ _ => rfl, fun _ _ => rfl, fun _ _ => rfl, fun _ _ => rfl, .refl _, rfl, rfl, rfl⟩

theorem trans (h₁ : Evolves s g s₁ g₁ K) (h₂ : Evolves s₁ g₁ s₂ g₂ K) : Evolves s g s₂ g₂ K := by
  have hE := Cache.everLinked_mono h₁.trace
  have hin : ∀ p, p ∈ s.everLinked ∨ p ∈ K → p ∈ s₁.everLinked ∨ p ∈ K :=
    fun p hp => hp.imp (fun h => hE h) id
  refine ⟨h₁.trace.trans h₂.trace, fun p hp => ?_, fun p hp => ?_, fun p hp => ?_, fun p hp => ?_,
    fun p hp => ?_, fun p hp => ?_, fun p hp => ?_, fun p hp => ?_, h₁.sizes.trans h₂.sizes, ?_, ?_, ?_⟩
  · rcases h₂.table p hp with hp | hp
    · exact h₁.table p hp
    · exact .inr fun h => hp (hE h)
  · rw [h₂.data p (hin p hp), h₁.data p hp]
  · rw [h₂.nkey p (hin p hp), h₁.nkey p hp]
  · rw [h₂.nbytes p (hin p hp), h₁.nbytes p hp]
  · rw [h₂.exptime p (hin p hp), h₁.exptime p hp]
  · rw [h₂.cas p (hin p hp), h₁.cas p hp]
  · rw [h₂.itemFlag p hp, h₁.itemFlag p hp]
  · rw [h₂.refcount p hp, h₁.refcount p hp]
  · rw [h₂.hashpower, h₁.hashpower]
  · rw [h₂.clock, h₁.clock]
  · rw [h₂.memSetting, h₁.memSetting]

theorem mono {K' : Set Ptr} (h : Evolves s g s₁ g₁ K) (hK : ∀ p ∈ K', p ∈ K) :
    Evolves s g s₁ g₁ K' :=
  ⟨h.trace, h.table, fun p hp => h.data p (hp.imp_right (hK p)),
    fun p hp => h.nkey p (hp.imp_right (hK p)), fun p hp => h.nbytes p (hp.imp_right (hK p)),
    fun p hp => h.exptime p (hp.imp_right (hK p)), fun p hp => h.cas p (hp.imp_right (hK p)),
    fun p hp => h.itemFlag p (hK p hp), fun p hp => h.refcount p (hK p hp), h.sizes, h.hashpower,
    h.clock, h.memSetting⟩

theorem key (h : Evolves s g s₁ g₁ K) {p : Ptr} (hp : p ∈ s.everLinked ∨ p ∈ K) :
    s₁.items.key p = s.items.key p :=
  Items.key_congr (h.data p hp) (h.nkey p hp)

end Evolves

namespace Sound

variable {s : Cache} {g : Shape}

/-- A chain of the table fits into the bound of the lookups. -/
theorem length_le (h : Sound s g) (b : ℕ) : (g.buckets b).length ≤ s.slab.chunkCount := by
  refine h.slab.length_le (h.buckets.chain b).nodup fun p hp => ?_
  exact (h.used p (.inl (h.linked p ⟨b, hp⟩).1)).1

theorem find_some_iff (h : Sound s g) (k : List UInt8) (p : Ptr) :
    s.hashFind k (HashTable.hash k) = .ok (some p) ↔ p ∈ g.table ∧ s.items.key p = k :=
  h.buckets.find_some_iff k (h.length_le _) p

/-- The item that `hash_find` returns. -/
theorem mem_found_iff (h : Sound s g) (k : List UInt8) (p : Ptr) :
    p ∈ s.found k ↔ p ∈ g.table ∧ s.items.key p = k := by
  rw [Cache.mem_found, h.find_some_iff]

theorem find_none_iff (h : Sound s g) (k : List UInt8) :
    s.hashFind k (HashTable.hash k) = .ok none ↔ ∀ p ∈ g.table, s.items.key p ≠ k := by
  rw [Cache.hashFind, h.buckets.find_none_iff k (h.length_le _)]
  exact ⟨fun hall p ⟨b, hp⟩ => hall b p hp, fun hall b p hp => hall p ⟨b, hp⟩⟩

theorem found_none_iff (h : Sound s g) (k : List UInt8) :
    s.found k = none ↔ ∀ p ∈ g.table, s.items.key p ≠ k := by
  rw [Option.eq_none_iff_forall_not_mem]
  exact forall_congr' fun p => by rw [h.mem_found_iff, not_and]

/-- A lookup returns, with the item of the table that has the key. -/
theorem find_cases (h : Sound s g) (k : List UInt8) :
    (s.hashFind k (HashTable.hash k) = .ok none ∧ ∀ p ∈ g.table, s.items.key p ≠ k) ∨
      ∃ p ∈ g.table, s.items.key p = k ∧ s.hashFind k (HashTable.hash k) = .ok (some p) := by
  by_cases hk : ∃ p ∈ g.table, s.items.key p = k
  · obtain ⟨p, hp, hk⟩ := hk
    exact .inr ⟨p, hp, hk, (h.find_some_iff k p).mpr ⟨hp, hk⟩⟩
  · push Not at hk
    exact .inl ⟨(h.find_none_iff k).mpr hk, hk⟩

theorem notFree (h : Sound s g) {p : Ptr} (hp : p ∈ s.everLinked) (id : ℕ) : p ∉ g.free id :=
  (h.used p (.inl hp)).2 id

end Sound

/-- The shape of a server that starts. -/
def Shape.fresh (F : ℕ → List Ptr) : Shape where
  inFlight := ∅
  free := F
  buckets _ := []
  queue := ∅

theorem Shape.notMem_table_fresh (F : ℕ → List Ptr) (p : Ptr) : p ∉ (Shape.fresh F).table := by
  rintro ⟨b, hp⟩
  simp [Shape.fresh] at hp

/-- A server that starts is sound, and all its chunks are free. -/
theorem Sound.init {limit : ℕ} {set : Settings} {mallocOk : ℕ → Bool} {hashpower : ℕ} {s : Cache}
    (h : Cache.init limit set mallocOk hashpower = some s) :
    ∃ F, Sound s (.fresh F) ∧ SlabFresh s.items s.slab F ∧ s.trace = [] ∧
      (Slab.build limit set mallocOk).SameTable s.slab := by
  obtain ⟨⟨m, b⟩, hinit, rfl⟩ := Option.map_eq_some_iff.mp h
  obtain ⟨⟨F, hF⟩, htable⟩ := Slab.init_spec hinit
  refine ⟨F, ⟨hF.rep, Buckets.empty _ _ _, hF.clsid, fun p hp => ?_, fun p hp => ?_, fun p hp => ?_,
    fun p hp => ?_, fun p hp => ?_, ?_, trivial, List.nodup_nil, fun p id hp => ?_, rfl⟩, hF, rfl,
    htable⟩
  · exact absurd hp (Shape.notMem_table_fresh F p)
  · obtain ⟨id, hid⟩ := hp
    cases hid
  · rcases hp with ⟨id, hid⟩ | hp
    · cases hid
    · cases hp
  · cases hp
  · cases hp
  · refine ⟨fun p hp => absurd hp (Set.notMem_empty p), fun p hp => absurd hp (Set.notMem_empty p),
      fun q hq => absurd hq (Option.some_ne_none q).symm,
      fun q hq => absurd hq (Option.some_ne_none q).symm, fun _ _ => ⟨rfl, rfl⟩, fun p hp _ => ?_⟩
    rcases hp with ⟨id, hid⟩ | hp | ⟨id, hid⟩
    · cases hid
    · cases hp
    · exact hF.front id p hid
  · cases hp

end MiniMemcached
