import MiniMemcached.Cache.Queue
import MiniMemcached.Service.UniqueKeys

/-! The three views of the cache: the items that carry `ITEM_LINKED`, the items of the
hash buckets and the items of the LRU list. A link changes all three. An unlink
changes all three only for an item that stands between two others in the LRU list
and does not head a bucket with other items, and a touch keeps the list only for
an item between two others or alone. -/

namespace MiniMemcached

open MiniMemcached.Lists Runs

structure Viewed (x : Cache × Shape) : Prop where
  sound : Sound x.1 x.2
  queue : ∃ L, Queue x.1.items x.1.lru L ∧ ∀ p, p ∈ L ↔ p ∈ x.2.table
  flags : ∀ p, x.1.items.itemFlag p &&& Slab.ITEM_LINKED ≠ 0 ↔ p ∈ x.2.table

/-- The unlink of the item takes it out of all three views. -/
def SafeUnlink (s : Cache) (p : Ptr) : Prop :=
  s.lru.heads 0 ≠ some p ∧ s.lru.tails 0 ≠ some p ∧
    (s.hashtable.primaryHashtable (s.hashtable.bucket (HashTable.hash (s.items.key p))) = some p →
      s.items.hNext p = none)

/-- The touch of the item keeps it in the LRU list. -/
def SafeTouch (s : Cache) (p : Ptr) : Prop :=
  (s.lru.heads 0 ≠ some p ∧ s.lru.tails 0 ≠ some p) ∨
    s.lru.heads 0 = some p ∧ s.lru.tails 0 = some p

instance (s : Cache) (p : Ptr) : Decidable (SafeUnlink s p) := by
  unfold SafeUnlink
  infer_instance

instance (s : Cache) (p : Ptr) : Decidable (SafeTouch s p) := by
  unfold SafeTouch
  infer_instance

/-- A step that needs no condition on the state. -/
def Act.steady : Act → Prop
  | .unlink _ | .touch _ => False
  | .fill _ f => f &&& Slab.ITEM_LINKED = 0
  | _ => True

/-- A step that moves no pointer of a linked item. -/
def Act.calm : Act → Prop
  | .unlink _ | .touch _ | .link _ | .drop _ => False
  | .fill _ f => f &&& Slab.ITEM_LINKED = 0
  | _ => True

theorem Act.calm.steady {a : Act} (h : a.calm) : a.steady := by
  cases a <;> first | exact h | trivial

namespace Viewed

variable {x y : Cache × Shape} {s s' : Cache} {g g' : Shape} {a : Act} {p : Ptr}

/-- A step that leaves the three views as they are. -/
theorem of_same (h : Viewed x) (hs : Sound y.1 y.2) (hlru : y.1.lru = x.1.lru)
    (htable : ∀ p, p ∈ y.2.table ↔ p ∈ x.2.table)
    (hn : ∀ p ∈ x.2.table, y.1.items.next p = x.1.items.next p)
    (hp : ∀ p ∈ x.2.table, y.1.items.prev p = x.1.items.prev p)
    (hf : ∀ p, y.1.items.itemFlag p &&& Slab.ITEM_LINKED ≠ 0 ↔
      x.1.items.itemFlag p &&& Slab.ITEM_LINKED ≠ 0) : Viewed y := by
  obtain ⟨L, hL, hmem⟩ := h.queue
  refine ⟨hs, ⟨L, ?_, fun p => (hmem p).trans (htable p).symm⟩, fun p => by
    rw [hf, h.flags, htable]⟩
  rw [hlru]
  exact hL.congr (fun p hpL => hn p ((hmem p).mp hpL)) fun p hpL => hp p ((hmem p).mp hpL)

theorem link (h : Viewed (s, g)) {it : Ptr} {Q : Set Ptr} (hit : it ∈ g.inFlight)
    (hf : s.items.itemFlag it &&& (Slab.ITEM_LINKED ||| Slab.ITEM_SLABBED) = 0) {hv : UInt32}
    (hsound : Sound (s.linked it hv) (g.inserted s it Q)) :
    Viewed (s.linked it hv, g.inserted s it Q) := by
  obtain ⟨L, hL, hmem⟩ := h.queue
  have hout : it ∉ g.table := fun hT => h.sound.unlinked it hit (h.sound.linked it hT).1
  have hitL : it ∉ L := fun hin => hout ((hmem it).mp hin)
  refine ⟨hsound, ⟨it :: L, hL.linkQ (h.sound.clsid it) (flags_clear hf).2 hitL, fun p => ?_⟩,
    fun p => ?_⟩
  · rw [List.mem_cons, hmem]
    exact Shape.table_inserted.symm
  · rw [show p ∈ (g.inserted s it Q).table ↔ _ from Shape.table_inserted, ← h.flags p]
    by_cases hp : p = it
    · subst hp
      simp [Cache.linked, setLinked_linked]
    · simp [Cache.linked, hp]

/-- A safe unlink takes the item, and no other one, out of the buckets. -/
theorem table_dropped (h : Viewed (s, g)) (hp : p ∈ g.table) (hsafe : SafeUnlink s p) (q : Ptr) :
    q ∈ (g.dropped s p).table ↔ q ∈ g.table ∧ q ≠ p := by
  have hs : Sound s g := h.sound
  obtain ⟨bp, hpb⟩ := hp
  constructor
  · intro hq
    refine ⟨Shape.table_dropped hq, ?_⟩
    rintro rfl
    exact hs.key_ne_of_dropped hq rfl
  · rintro ⟨⟨b, hq⟩, hne⟩
    have hkey : ∀ {r b'}, r ∈ g.buckets b' → s.items.keyIs r (s.items.key p) = true → r = p :=
      fun hr hk => hs.buckets.key_inj hr hpb ((s.items.keyIs_iff _ _).mp hk)
    refine ⟨b, ?_⟩
    simp only [Shape.dropped, Function.update_apply]
    split_ifs with hb
    · subst hb
      refine mem_dropKey_of_ne hq (by simpa using fun hk => hne (hkey hq hk)) fun r hr => ?_
      by_contra hk
      rw [Bool.not_eq_false] at hk
      -- the item heads its bucket, so it is alone there
      obtain rfl := hkey (List.mem_of_mem_head? hr) hk
      have hchain := hs.buckets.chain (s.hashtable.bucket (HashTable.hash (s.items.key r)))
      have hnone := hsafe.2.2 (hchain.start_eq.trans hr)
      cases hL : g.buckets (s.hashtable.bucket (HashTable.hash (s.items.key r))) with
      | nil => simp [hL] at hr
      | cons c l =>
        rw [hL] at hchain hq hr
        obtain rfl : c = r := by simpa using hr
        have hrest := hchain.2
        rw [hnone] at hrest
        rw [hrest.of_none] at hq
        exact hne (by simpa using hq)
    · exact hq

theorem unlink (h : Viewed (s, g)) {f : Ptr → Option Ptr} {P : ℕ → Option Ptr} {c : UInt32}
    (hpE : p ∈ s.everLinked) (hf : s.items.itemFlag p &&& Slab.ITEM_LINKED ≠ 0)
    (hsafe : SafeUnlink s p) (hsound : Sound (s.unlinked p f P c) (g.dropped s p)) :
    Viewed (s.unlinked p f P c, g.dropped s p) := by
  obtain ⟨L, hL, hmem⟩ := h.queue
  have hp : p ∈ g.table := (h.flags p).mp hf
  have htable := h.table_dropped hp hsafe
  refine ⟨hsound, ⟨L.erase p, hL.unlinkQ (h.sound.clsid p) (h.sound.unslabbed p hpE) ((hmem p).mpr hp)
    hsafe.1 hsafe.2.1, fun q => ?_⟩, fun q => ?_⟩
  · rw [List.Nodup.mem_erase_iff hL.forward.nodup, hmem]
    exact and_comm.trans (htable q).symm
  · rw [show q ∈ (g.dropped s p).table ↔ _ from htable q, ← show _ ↔ q ∈ g.table from h.flags q]
    by_cases hq : q = p
    · subst hq
      simp [Cache.unlinked, clearLinked_linked]
    · simp [Cache.unlinked, hq]

theorem touch (h : Viewed (s, g)) {Q : Set Ptr} (hp : p ∈ g.table) (hsafe : SafeTouch s p)
    (hsound : Sound (s.touched p) { g with queue := Q }) :
    Viewed (s.touched p, { g with queue := Q }) := by
  obtain ⟨L, hL, hmem⟩ := h.queue
  have hpL := (hmem p).mpr hp
  have hclsid := h.sound.clsid p
  have hslab := h.sound.unslabbed p (h.sound.linked p hp).1
  obtain ⟨nx, pv, hitems⟩ := s.touched_form p
  have hflags : ∀ q, (s.touched p).items.itemFlag q &&& Slab.ITEM_LINKED ≠ 0 ↔ q ∈ g.table := by
    intro q
    rw [hitems]
    exact h.flags q
  rcases hsafe with ⟨hh, ht⟩ | ⟨hh, ht⟩
  · have hout := hL.unlinkQ hclsid hslab hpL hh ht
    obtain ⟨nx', pv', hform⟩ := itemUnlinkQ_form s.items s.lru p
    have hnodup := hL.forward.nodup
    have hin : Queue ((itemUnlinkQ s.items s.lru p).1.setRealtime p s.clock)
        (itemUnlinkQ s.items s.lru p).2 (L.erase p) := hout
    have hback := hin.linkQ (by rw [hform]; exact hclsid) (by rw [hform]; exact hslab)
      (hnodup.not_mem_erase (a := p))
    refine ⟨hsound, ⟨p :: L.erase p, hback, fun q => ?_⟩, hflags⟩
    rw [List.mem_cons, hnodup.mem_erase_iff, hmem]
    constructor
    · rintro (rfl | ⟨-, hq⟩)
      · exact hp
      · exact hq
    · intro hq
      by_cases hqp : q = p
      · exact .inl hqp
      · exact .inr ⟨hqp, hq⟩
  · exact ⟨hsound, ⟨L, hL.relinkQ_alone hclsid hslab hh ht s.clock, hmem⟩, hflags⟩

/-- One step that needs no condition. -/
theorem step (h : Viewed x) (hp : Prim x a y) (ha : a.steady) : Viewed y := by
  have hs := h.sound
  have hsound := hp.sound hs
  cases hp with
  | unlink => exact absurd ha id
  | touch => exact absurd ha id
  | link hit hkey hf hsound' => exact h.link hit hf hsound'
  | @fetch s g p hpE =>
    refine h.of_same hsound rfl (fun _ => Iff.rfl) (fun _ _ => rfl) (fun _ _ => rfl) fun q => ?_
    by_cases hq : q = p
    · subst hq
      simp [Cache.setFlag, Items.setFlag, setFetched_linked]
    · simp [Cache.setFlag, Items.setFlag, hq]
  | @grant s s' g g' it size id hg =>
    have hsame : ∀ q ∈ g.table, SameAt s.items s'.items q := fun q hq => by
      obtain ⟨⟨j, hj⟩, hfree⟩ := hs.used q (.inl (hs.linked q hq).1)
      exact (hg.alloc.used j q hj (hfree j)).1
    have htable : ∀ q, q ∈ g'.table ↔ q ∈ g.table := fun q => by
      simp only [Shape.table, hg.buckets]
    have hlru : s'.lru = s.lru := by rw [hg.rest]
    refine h.of_same hsound hlru htable (fun q hq => (hsame q hq).next) (fun q hq => (hsame q hq).prev)
      fun q => ?_
    by_cases hq : q ∈ g.table
    · rw [(hsame q hq).itemFlag]
    · have hclear : s.items.itemFlag q &&& Slab.ITEM_LINKED = 0 := not_not.mp ((h.flags q).not.mpr hq)
      have hclear' : s'.items.itemFlag q &&& Slab.ITEM_LINKED = 0 := hg.alloc.unlinked q hclear
      simp [hclear, hclear']
  | @fill s g it flags m hit hn hpv hhn hr hc hf hd =>
    refine h.of_same hsound rfl (fun _ => Iff.rfl) (fun q _ => congrFun hn q) (fun q _ => congrFun hpv q)
      fun q => ?_
    by_cases hq : q = it
    · subst hq
      have hout : q ∉ g.table := fun hT => hs.unlinked q hit (hs.linked q hT).1
      have hclear : s.items.itemFlag q &&& Slab.ITEM_LINKED = 0 :=
        not_not.mp ((h.flags q).not.mpr hout)
      have hclear' : m.itemFlag q &&& Slab.ITEM_LINKED = 0 := by rw [hf]; exact ha
      simp [hclear, hclear']
    · rw [(hd q hq).itemFlag]
  | refuse => exact h.of_same hsound rfl (fun _ => Iff.rfl) (fun _ _ => rfl) (fun _ _ => rfl) fun _ => Iff.rfl
  | _ => exact h.of_same hsound rfl (fun _ => Iff.rfl) (fun _ _ => rfl) (fun _ _ => rfl) fun _ => Iff.rfl

theorem steps {acts : List Act} (h : Viewed (s, g)) (hsteps : Steps s g acts s' g')
    (ha : ∀ a ∈ acts, a.steady) : Viewed (s', g') :=
  Path.invariant (I := Viewed) (C := Act.steady) (fun _ _ _ hI hC hp => step hI hp hC) hsteps ha h

end Viewed

/-- The pointers that decide whether an unlink or a touch is safe. -/
structure Unmoved (x y : Cache × Shape) : Prop where
  linked : x.1.everLinked ⊆ y.1.everLinked
  lru : y.1.lru = x.1.lru
  hashtable : y.1.hashtable = x.1.hashtable
  buckets : y.2.buckets = x.2.buckets
  hNext : ∀ p ∈ x.1.everLinked, y.1.items.hNext p = x.1.items.hNext p
  key : ∀ p ∈ x.1.everLinked, y.1.items.key p = x.1.items.key p

theorem Prim.unmoved {x y : Cache × Shape} {a : Act} (hp : Prim x a y) (ha : a.calm)
    (hs : Sound x.1 x.2) : Unmoved x y := by
  have hev := hp.evolves hs
  have hkey : ∀ p ∈ x.1.everLinked, y.1.items.key p = x.1.items.key p := fun p hpE => hev.key (.inl hpE)
  have hE := Cache.everLinked_mono hev.trace
  cases hp with
  | unlink => exact absurd ha id
  | touch => exact absurd ha id
  | link => exact absurd ha id
  | drop => exact absurd ha id
  | @grant s s' g g' it size id hg =>
    have hrest := hg.rest
    refine ⟨hE, by rw [hrest], by rw [hrest], hg.buckets, fun p hpE => ?_, hkey⟩
    obtain ⟨⟨j, hj⟩, hfree⟩ := hs.used p (.inl hpE)
    exact (hg.alloc.used j p hj (hfree j)).1.hNext
  | fill hit hn hpv hhn => exact ⟨hE, rfl, rfl, rfl, fun p _ => congrFun hhn p, hkey⟩
  | _ => exact ⟨hE, rfl, rfl, rfl, fun _ _ => rfl, hkey⟩

theorem Steps.unmoved {s s' : Cache} {g g' : Shape} {acts : List Act}
    (hsteps : Steps s g acts s' g') (ha : ∀ a ∈ acts, a.calm) (hs : Sound s g) :
    Unmoved (s, g) (s', g') := by
  refine Path.rel (I := fun x => Sound x.1 x.2) (R := Unmoved)
    (fun x => ⟨fun _ hp => hp, rfl, rfl, rfl, fun _ _ => rfl, fun _ _ => rfl⟩) (fun x y z h₁ h₂ => ?_)
    (fun x a y hI hC hp => ⟨hp.sound hI, hp.unmoved hC hI⟩) hsteps ha hs
  exact ⟨fun p hp => h₂.linked (h₁.linked hp), h₂.lru.trans h₁.lru, h₂.hashtable.trans h₁.hashtable,
    h₂.buckets.trans h₁.buckets, fun p hp => (h₂.hNext p (h₁.linked hp)).trans (h₁.hNext p hp),
    fun p hp => (h₂.key p (h₁.linked hp)).trans (h₁.key p hp)⟩

/-- A path with at most one step that needs a condition, which holds where it starts. -/
inductive Moves (s : Cache) (g : Shape) : List Act → Prop
  | steady {acts : List Act} (h : ∀ a ∈ acts, a.steady) : Moves s g acts
  | unlink {u v : List Act} {p : Ptr} (hpre : ∀ a ∈ u, a.calm) (hpost : ∀ a ∈ v, a.steady)
      (hp : p ∈ g.table) (hsafe : SafeUnlink s p) : Moves s g (u ++ .unlink p :: v)
  | touch {u v : List Act} {p : Ptr} (hpre : ∀ a ∈ u, a.calm) (hpost : ∀ a ∈ v, a.steady)
      (hp : p ∈ g.table) (hsafe : SafeTouch s p) : Moves s g (u ++ .touch p :: v)

/-- Such a path keeps the three views. -/
theorem Viewed.moves {s s' : Cache} {g g' : Shape} {acts : List Act} (h : Viewed (s, g))
    (hsteps : Steps s g acts s' g') (hm : Moves s g acts) : Viewed (s', g') := by
  have hs : Sound s g := h.sound
  cases hm with
  | steady ha => exact h.steps hsteps ha
  | @unlink pre post p hpre hpost hp hsafe =>
    obtain ⟨⟨s₁, g₁⟩, hsteps₁, hrest⟩ := Path.append_iff.mp hsteps
    have h₁ := h.steps hsteps₁ fun a ha => (hpre a ha).steady
    have hun := Steps.unmoved hsteps₁ hpre hs
    have hpE := (hs.linked p hp).1
    have hsafe₁ : SafeUnlink s₁ p := by
      have hlru : s₁.lru = s.lru := hun.lru
      have htab : s₁.hashtable = s.hashtable := hun.hashtable
      have hkey : s₁.items.key p = s.items.key p := hun.key p hpE
      have hnext : s₁.items.hNext p = s.items.hNext p := hun.hNext p hpE
      rw [SafeUnlink, hlru, htab, hkey, hnext]
      exact hsafe
    cases hrest with
    | cons hstep hrest =>
      have hsound := hstep.sound h₁.sound
      cases hstep with
      | unlink hpE hf hB => exact (h₁.unlink hpE hf hsafe₁ hsound).steps hrest hpost
  | @touch pre post p hpre hpost hp hsafe =>
    obtain ⟨⟨s₁, g₁⟩, hsteps₁, hrest⟩ := Path.append_iff.mp hsteps
    have h₁ := h.steps hsteps₁ fun a ha => (hpre a ha).steady
    have hun := Steps.unmoved hsteps₁ hpre hs
    have hsafe₁ : SafeTouch s₁ p := by
      have hlru : s₁.lru = s.lru := hun.lru
      rw [SafeTouch, hlru]
      exact hsafe
    have hp₁ : p ∈ g₁.table := by
      have hbuckets : g₁.buckets = g.buckets := hun.buckets
      rw [Shape.table, hbuckets]
      exact hp
    cases hrest with
    | cons hstep hrest =>
      cases hstep with
      | touch hpE hsound => exact (h₁.touch hp₁ hsafe₁ hsound).steps hrest hpost

section

variable {s : Cache} {g : Shape} {k : List UInt8} {acts post : List Act} {r : Option Ptr} {p : Ptr}

theorem Moves.append (h : Moves s g acts) (hpost : ∀ a ∈ post, a.steady) : Moves s g (acts ++ post) := by
  cases h with
  | steady ha => exact .steady (List.forall_mem_append.mpr ⟨ha, hpost⟩)
  | unlink hpre hpost' hp hsafe =>
    rw [List.append_assoc]
    exact .unlink hpre (List.forall_mem_append.mpr ⟨hpost', hpost⟩) hp hsafe
  | touch hpre hpost' hp hsafe =>
    rw [List.append_assoc]
    exact .touch hpre (List.forall_mem_append.mpr ⟨hpost', hpost⟩) hp hsafe

theorem Moves.unlink_after {u : List Act} (hget : ∀ a ∈ acts, a.calm) (hpre : ∀ a ∈ u, a.calm)
    (hpost : ∀ a ∈ post, a.steady) (hp : p ∈ g.table) (hsafe : SafeUnlink s p) :
    Moves s g (acts ++ (u ++ .unlink p :: post)) := by
  rw [← List.append_assoc]
  exact .unlink (List.forall_mem_append.mpr ⟨hget, hpre⟩) hpost hp hsafe

theorem Moves.cons {a : Act} (ha : a.calm) (h : Moves s g acts) : Moves s g (a :: acts) := by
  cases h with
  | steady h => exact .steady (List.forall_mem_cons.mpr ⟨ha.steady, h⟩)
  | unlink hpre hpost hp hsafe =>
    exact .unlink (List.forall_mem_cons.mpr ⟨ha, hpre⟩) hpost hp hsafe
  | touch hpre hpost hp hsafe => exact .touch (List.forall_mem_cons.mpr ⟨ha, hpre⟩) hpost hp hsafe

theorem GetActs.moves (h : GetActs s g k acts r)
    (hsafe : ∀ p ∈ g.table, s.items.key p = k → s.expired p → SafeUnlink s p) : Moves s g acts := by
  cases h with
  | miss => exact .steady (by simp)
  | live p => exact .steady (by simp [Act.steady])
  | expired p hp hk he =>
    exact .unlink (u := [.ref p, .quiet]) (v := [.quiet, .unref p]) (by simp [Act.calm])
      (by simp [Act.steady]) hp (hsafe p hp hk he)

theorem GetActs.calm_of_some (h : GetActs s g k acts (some p)) : ∀ a ∈ acts, a.calm := by
  cases h
  simp [Act.calm]

theorem RemoveActs.moves {b : Bool} (h : RemoveActs s g k acts b)
    (hsafe : ∀ p ∈ g.table, s.items.key p = k → SafeUnlink s p) : Moves s g acts := by
  cases h with
  | miss acts hget =>
    exact ((hget.moves fun p hp hk _ => hsafe p hp hk).cons (by trivial)).append (by simp [Act.steady])
  | hit p hp hk =>
    exact .unlink (u := [.quiet, .ref p, .fetch p, .quiet, .quiet, .quiet])
      (v := [.quiet, .quiet, .quiet, .unref p, .quiet]) (by simp [Act.calm]) (by simp [Act.steady])
      hp (hsafe p hp hk)

end

namespace Service

/-- What a storage command does to the item bound to its key is safe. -/
def SafeStore (s : Cache) (P : Pending) (p : Ptr) : Prop :=
  match P.line.cmd with
  | .add => s.items.realtime p < s.clock - LruList.ITEM_UPDATE_INTERVAL → SafeTouch s p
  | .cas => P.line.casId = s.items.cas p → SafeUnlink s p
  | .append | .prepend => P.line.casId = s.items.cas p →
    s.slab.allocOk P.line.key.length (toInt (P.line.vlen + s.items.nbytes p - 2)) → SafeUnlink s p
  | .set | .replace | .error => SafeUnlink s p

instance (s : Cache) (P : Pending) (p : Ptr) : Decidable (SafeStore s P p) := by
  unfold SafeStore
  split <;> infer_instance

theorem steady_linkAct (s : Cache) (it old : Ptr) :
    ∀ a ∈ [Act.quiet, linkAct s it, .unref old], a.steady := by
  unfold linkAct
  split_ifs <;> simp [Act.steady]

theorem StoreActs.moves {s : Cache} {g : Shape} {P : Pending} {acts : List Act} {stat : StoreStat}
    (h : StoreActs s g P.it P.line.cmd acts stat) (hs : Sound s g) (hfill : Filled s P.it P.line)
    (hC : ∀ p ∈ s.found P.line.key,
      if s.expired p then P.line.cmd = .cas ∨ SafeUnlink s p else SafeStore s P p) : Moves s g acts := by
  have hlink := steady_linkAct s P.it
  have hfound : ∀ p ∈ g.table, s.items.key p = s.items.key P.it → p ∈ s.found P.line.key :=
    fun p hp hk => (hs.mem_found_iff _ p).mpr ⟨hp, hk.trans hfill.key⟩
  -- without a live item the lookup may have dropped an expired one
  have hmiss : ∀ {acts}, P.line.cmd ≠ .cas → GetActs s g (s.items.key P.it) acts none →
      Moves s g acts := fun hcmd hget => hget.moves fun p hp hk he => by
    have hp' := hC p (hfound p hp hk)
    rw [if_pos he] at hp'
    exact hp'.resolve_left hcmd
  have hlive : ∀ {old acts}, GetActs s g (s.items.key P.it) acts (some old) →
      old ∈ g.table ∧ SafeStore s P old := by
    intro old acts hget
    cases hget with
    | live _ hp hk hl =>
      have hp' := hC old (hfound old hp hk)
      rw [if_neg hl] at hp'
      exact ⟨hp, hp'⟩
  cases h with
  | noKey acts hget hcmd =>
    refine (hmiss ?_ hget).append (by simp [Act.steady])
    rcases hcmd with e | e | e <;> simp [e]
  | new acts hget hcmd =>
    have hpost : ∀ a ∈ [Act.bump P.it, linkAct s P.it], a.steady :=
      List.forall_mem_cons.mpr ⟨trivial, fun a ha => hlink P.it a (by simp_all)⟩
    refine (hmiss ?_ hget).append hpost
    rcases hcmd with e | e | e <;> simp [e]
  | taken old acts hget hcmd =>
    obtain ⟨hp, hsafe⟩ := hlive hget
    rw [SafeStore, hcmd] at hsafe
    unfold touchActs
    split_ifs with hold
    · rw [List.append_assoc]
      exact .touch hget.calm_of_some (by simp [Act.steady]) hp (hsafe hold)
    · exact .steady (List.forall_mem_append.mpr ⟨by
        simpa using fun b hb => (hget.calm_of_some b hb).steady, by simp [Act.steady]⟩)
  | replaced old acts hget hcmd =>
    obtain ⟨hp, hsafe⟩ := hlive hget
    have hsafe' : SafeUnlink s old := by
      rcases hcmd with e | e | e <;> rw [SafeStore, e] at hsafe <;> exact hsafe
    exact .unlink_after hget.calm_of_some (u := [.bump P.it, .quiet]) (by simp [Act.calm])
      (hlink old) hp hsafe'
  | swapped old acts hget hcmd hcas =>
    obtain ⟨hp, hsafe⟩ := hlive hget
    rw [SafeStore, hcmd] at hsafe
    exact .unlink_after hget.calm_of_some (u := [.quiet]) (by simp [Act.calm])
      (hlink old) hp (hsafe (hfill.cas.symm.trans hcas))
  | stale old acts hget =>
    exact .steady (List.forall_mem_append.mpr ⟨fun b hb => (hget.calm_of_some b hb).steady,
      by simp [Act.steady]⟩)
  | full old acts hget =>
    exact .steady (List.forall_mem_append.mpr ⟨fun b hb => (hget.calm_of_some b hb).steady,
      by simp [Act.steady]⟩)
  | joined old new acts hget hcmd hcas hok =>
    obtain ⟨hp, hsafe⟩ := hlive hget
    rw [joinBytes, hfill.nkey, hfill.nbytes] at hok
    have hsafe' : SafeUnlink s old := by
      rcases hcmd with e | e <;> rw [SafeStore, e] at hsafe <;>
        exact hsafe (hfill.cas.symm.trans hcas) hok
    exact .unlink_after hget.calm_of_some (u := [.grant new _ _, .fill new 0, .bump new, .quiet])
      (by simp [Act.calm]) (by simp [Act.steady]) hp hsafe'

/-- The action unlinks and touches items only where this is safe, and allocates none
whose client flags overlay `ITEM_LINKED`. -/
def KeepsViews (st : Service) (a : Action) : Prop :=
  match a.req, st.pending a.conn with
  | .get k, none =>
    k.length ≤ KEY_MAX_LENGTH → ∀ p ∈ st.cache.found k, (st.at_ a).expired p → SafeUnlink st.cache p
  | .delete k, none => ∀ p ∈ st.cache.found k, SafeUnlink st.cache p
  | .store L _, none =>
    if st.cache.slab.allocOk L.key.length L.vlen then L.flags.toUInt8 &&& Slab.ITEM_LINKED = 0
    else L.cmd = .set → ∀ p ∈ st.cache.found L.key, SafeUnlink st.cache p
  | .block bytes, some P =>
    (bytes.length : ℤ) = P.line.vlen → ∀ p ∈ st.cache.found P.line.key,
      if (st.at_ a).expired p then P.line.cmd = .cas ∨ SafeUnlink st.cache p
      else SafeStore (st.at_ a) P p
  | _, _ => True

instance (st : Service) (a : Action) : Decidable (st.KeepsViews a) := by
  delta KeepsViews
  exact match a.req, st.pending a.conn with
  | .get _, none | .get _, some _ => inferInstance
  | .delete _, none | .delete _, some _ => inferInstance
  | .store _ _, none | .store _ _, some _ => inferInstance
  | .block _, none | .block _, some _ => inferInstance

/-- The three views agree, and the LRU list is the same both ways. -/
structure ViewsAgree (s : Cache) : Prop where
  flags : ∀ p, s.items.itemFlag p &&& Slab.ITEM_LINKED ≠ 0 ↔
    ∃ b, Reach s.items.hNext (s.hashtable.primaryHashtable b) p
  heads : ∀ p, (∃ b, Reach s.items.hNext (s.hashtable.primaryHashtable b) p) ↔
    ∃ id, Reach s.items.next (s.lru.heads id) p
  tails : ∀ p, (∃ b, Reach s.items.hNext (s.hashtable.primaryHashtable b) p) ↔
    ∃ id, Reach s.items.prev (s.lru.tails id) p

theorem viewsAgree_of_viewed {s : Cache} {g : Shape} (h : Viewed (s, g)) : ViewsAgree s := by
  have hs : Sound s g := h.sound
  obtain ⟨L, hL, hmem⟩ := h.queue
  have htable : ∀ p, (∃ b, Reach s.items.hNext (s.hashtable.primaryHashtable b) p) ↔ p ∈ g.table :=
    fun p => exists_congr fun b => (hs.buckets.chain b).reach_iff p
  have hclass : ∀ {f : Ptr → Option Ptr} {slot : ℕ → Option Ptr} {l : List Ptr},
      Chain f (slot 0) l → (∀ id ≠ 0, slot id = none) → ∀ p, (∃ id, Reach f (slot id) p) ↔ p ∈ l := by
    intro f slot l hl hnone p
    constructor
    · rintro ⟨id, hr⟩
      by_cases hid : id = 0
      · subst hid
        exact (hl.reach_iff p).mp hr
      · rw [hnone id hid] at hr
        cases hr
    · exact fun hp => ⟨0, (hl.reach_iff p).mpr hp⟩
  refine ⟨fun p => (h.flags p).trans (htable p).symm, fun p => ?_, fun p => ?_⟩
  · rw [htable, hclass hL.forward fun id hid => (hs.lru.others id hid).1]
    exact (hmem p).symm
  · rw [htable, hclass hL.backward fun id hid => (hs.lru.others id hid).2, List.mem_reverse]
    exact (hmem p).symm

variable {st st' : Service} {g g' : Shape} {a : Action} {acts : List Act}

/-- An action that meets the condition moves at most one item, and safely. -/
theorem StepActs.moves (h : StepActs st g a acts st') (hinv : Inv st g)
    (hview : Viewed (st.at_ a, g)) (hC : st.KeepsViews a) : Moves (st.at_ a) g acts := by
  have hs := hinv.sound
  unfold KeepsViews at hC
  cases h with
  | ignored => exact .steady (by simp)
  | longKey => exact .steady (by simp)
  | get k hreq hfree hlen acts r hget =>
    rw [hreq, hfree] at hC
    refine ((hget.moves fun p hp hk he => ?_).cons (by trivial)).append (by simp [Act.steady])
    exact hC hlen p ((hs.mem_found_iff k p).mpr ⟨hp, hk⟩) he
  | delete k hreq hfree acts b hrem =>
    rw [hreq, hfree] at hC
    exact hrem.moves fun p hp hk => hC p ((hs.mem_found_iff k p).mpr ⟨hp, hk⟩)
  | accepted L hcmd hreq hfree it acts hline =>
    rw [hreq, hfree] at hC
    cases hline with
    | granted _ hok =>
      simp only at hC
      rw [if_pos (show st.cache.slab.allocOk L.key.length L.vlen from hok)] at hC
      exact .steady (by simp [Act.steady, hC])
  | refused L hcmd hreq hfree acts hline =>
    rw [hreq, hfree] at hC
    simp only at hC
    cases hline with
    | refused hno => exact .steady (by simp [Act.steady])
    | removed acts b hno hset hrem =>
      rw [if_neg (show ¬st.cache.slab.allocOk L.key.length L.vlen from hno)] at hC
      exact (hrem.moves fun p hp hk => hC hset p ((hs.mem_found_iff L.key p).mpr ⟨hp, hk⟩)).cons (by trivial)
  | block P bytes hreq hP hlen acts stat hstore =>
    rw [hreq, hP] at hC
    have hfill : Filled (st.at_ a) P.it P.line := by
      have := hinv.filled _ P hP
      exact ⟨this.key, this.nkey, this.itemFlag, this.nbytes, this.cas, this.refcount⟩
    have hflight := (hinv.flight P.it).mpr ⟨_, P, hP, rfl⟩
    have hclear : st.cache.items.itemFlag P.it &&& Slab.ITEM_LINKED = 0 :=
      not_not.mp ((hview.flags P.it).not.mpr fun hT => hs.unlinked _ hflight (hs.linked _ hT).1)
    have hmoves := StoreActs.moves hstore hview.sound hfill (hC hlen)
    have hcalm : (Act.fill P.it (st.cache.items.itemFlag P.it)).calm := hclear
    exact ((hmoves.cons (a := .quiet) (by trivial)).cons hcalm).append (by simp [Act.steady])

/-- In a run whose steps meet the condition the three views agree. -/
theorem viewsAgree_throughout {limit : ℕ} {set : Settings} {mallocOk : ℕ → Bool} {hashpower : ℕ}
    {s : Cache} (hinit : Cache.init limit set mallocOk hashpower = some s) {as : List Action}
    (hcond : EachStep step KeepsViews (start s) as) :
    Throughout step (fun st => ViewsAgree st.cache) (start s) as := by
  obtain ⟨F, hs, hfresh, -, -⟩ := Sound.init hinit
  refine throughout_of_eachStep (L := fun _ _ => True) (C := KeepsViews)
    (I := fun st _ => ∃ g, Inv st g ∧ Viewed (st.cache, g)) ?_ ?_ ?_
    (eachStep_of_forall (fun _ _ => trivial) _ as) hcond
  · rintro st a - st' ⟨g, hinv, hview⟩ - hC hstep
    rcases step_spec hinv a with ⟨herr, -⟩ | ⟨st'', g', acts, hok, hinv', hsteps, hacts⟩
    · rw [herr] at hstep
      cases hstep
    · rw [hok] at hstep
      cases hstep
      have hclock : Viewed (st.at_ a, g) := ⟨hview.sound.setClock a.now, hview.queue, hview.flags⟩
      exact ⟨g', hinv', hclock.moves hsteps (StepActs.moves hacts hinv hclock hC)⟩
  · rintro st - ⟨g, -, hview⟩
    exact viewsAgree_of_viewed hview
  · refine ⟨_, start_inv_fresh hs, hs, ⟨[], ?_, fun p => ?_⟩, fun p => ?_⟩
    · have hnone : ∀ {o : Option Ptr}, (∀ q, o = some q → q ∈ (∅ : Set Ptr)) → o = none := fun h =>
        Option.eq_none_iff_forall_ne_some.mpr fun q hq => Set.notMem_empty q (h q hq)
      exact ⟨hnone hs.lru.heads, hnone hs.lru.tails⟩
    · simp [Shape.notMem_table_fresh]
    · have hclear : s.items.itemFlag p &&& Slab.ITEM_LINKED = 0 := hfresh.unlinked p
      exact ⟨fun hf => absurd hclear hf, fun hp => absurd hp (Shape.notMem_table_fresh F p)⟩

/-- Three keys are stored, and the one in the middle is deleted. -/
def deleteMiddle : List Action :=
  storing 1 0 (shortLine .set 97 0 0 0) set_ne_error ++ storing 1 0 (shortLine .set 98 0 0 0) set_ne_error ++
    storing 1 0 (shortLine .set 99 0 0 0) set_ne_error ++ [⟨1, 0, .delete [98]⟩]

theorem viewsAgree_deleteMiddle : ∃ s, Cache.init 0 smallSettings (fun _ => true) 0 = some s ∧
    Throughout step (fun st => ViewsAgree st.cache) (start s) deleteMiddle := by
  have hcond : (Cache.init 0 smallSettings (fun _ => true) 0).any (fun s =>
      decide (EachStep step KeepsViews (start s) deleteMiddle)) = true := by decide +kernel
  obtain ⟨s, hinit, hs⟩ := exists_init hcond
  exact ⟨s, hinit, viewsAgree_throughout hinit (of_decide_eq_true hs)⟩

/-- A deleted item that was alone in the LRU list is still reached from its head. -/
theorem views_differ : ∃ s st, Cache.init 1 smallSettings (fun _ => true) 0 = some s ∧
    run step (start s) storeThenDelete = .ok st ∧ st.Quiescent ∧ ¬ViewsAgree st.cache := by
  have htrial : (trial 1 0 storeThenDelete).any (fun st => decide ((st.pending 0).isNone) &&
      decide (st.cache.lru.heads 0 = some ⟨1, 104⟩) &&
      decide (st.cache.hashtable.primaryHashtable (st.cache.hashtable.bucket
        (HashTable.hash (st.cache.items.key ⟨1, 104⟩))) = none)) = true := by decide +kernel
  obtain ⟨s, st, hinit, hrun, hp⟩ := exists_of_trial htrial
  simp only [Bool.and_eq_true, decide_eq_true_eq] at hp
  obtain ⟨⟨hpend, hhead⟩, hnone⟩ := hp
  have hq : st.Quiescent := quiescent_of_one (c := 0) (by decide) hrun (by simpa using hpend)
  refine ⟨s, st, hinit, hrun, hq, fun h => ?_⟩
  obtain ⟨b, hr⟩ := (h.heads ⟨1, 104⟩).mpr ⟨0, by rw [hhead]; exact .here _⟩
  have hhome := (tableWellFormed_of_run hinit hrun).home hr
  rw [hhome, hnone] at hr
  cases hr

end Service

end MiniMemcached
