import MiniMemcached.Cache.Commands
import MiniMemcached.Cache.Storing

/-! The commands as paths of primitive steps. -/

namespace MiniMemcached

open Runs

/-- The ways `delete` and the failed `set` can go. -/
inductive RemoveActs (s : Cache) (g : Shape) (k : List UInt8) : List Act → Bool → Prop
  | miss (acts : List Act) (hget : GetActs s g k acts none) :
      RemoveActs s g k (.quiet :: acts ++ [.quiet]) false
  | hit (p : Ptr) (hp : p ∈ g.table) (hk : s.items.key p = k) (hl : ¬s.expired p) :
      RemoveActs s g k [.quiet, .ref p, .fetch p, .quiet, .quiet, .quiet, .unlink p, .quiet, .quiet,
        .quiet, .unref p, .quiet] true

/-- The ways a storage line can go. -/
inductive LineActs (s : Cache) (g : Shape) (L : StoreLine) : List Act → Option Ptr → Prop
  | granted (it : Ptr) (hok : s.slab.allocOk L.key.length L.vlen) (hE : it ∉ s.everLinked)
      (hnew : it ∉ g.inFlight) :
      LineActs s g L [.grant it (ntotal L.key.length L.vlen)
        (s.slab.slabsClsid (ntotal L.key.length L.vlen)), .fill it L.flags.toUInt8] (some it)
  | refused (hno : ¬s.slab.allocOk L.key.length L.vlen) (hcmd : L.cmd ≠ .set) :
      LineActs s g L [.refuse] none
  | removed (acts : List Act) (b : Bool) (hno : ¬s.slab.allocOk L.key.length L.vlen)
      (hcmd : L.cmd = .set) (hrem : RemoveActs s g L.key acts b) :
      LineActs s g L (.refuse :: acts) none

theorem RemoveActs.writes {s : Cache} {g : Shape} {k : List UInt8} {acts : List Act} {b : Bool}
    (h : RemoveActs s g k acts b) : ∀ a ∈ acts, a.writes = none := by
  cases h with
  | miss acts hget => cases hget <;> simp [Act.writes]
  | hit p => simp [Act.writes]

/-- A removal unlinks an expired item with the key, and an item that it reports. -/
theorem RemoveActs.unlink_mem {s : Cache} {g : Shape} {k : List UInt8} {acts : List Act} {b : Bool}
    (h : RemoveActs s g k acts b) (hs : Sound s g)
    (hb : b = true ∨ ∃ p ∈ g.table, s.items.key p = k ∧ s.expired p) :
    ∃ p ∈ g.table, s.items.key p = k ∧ .unlink p ∈ acts := by
  cases h with
  | miss acts hget =>
    obtain hb | ⟨p, hp, hk, he⟩ := hb
    · cases hb
    · exact ⟨p, hp, hk, by simp [hget.unlink_mem hs hp hk he]⟩
  | hit p hp hk hl => exact ⟨p, hp, hk, by simp⟩

/-- A refused allocation does not matter for a removal. -/
theorem RemoveActs.refused {s : Cache} {g : Shape} {k : List UInt8} {acts : List Act} {b : Bool}
    {sl : Slab} {t : List Event} (h : RemoveActs { s with slab := sl, trace := t } g k acts b) :
    RemoveActs s g k acts b := by
  cases h with
  | miss acts hget =>
    refine .miss acts ?_
    cases hget with
    | miss hm => exact .miss hm
    | expired p hp hk he => exact .expired p hp hk he
  | hit p hp hk hl => exact .hit p hp hk hl

/-- The header of an item after a storage line. -/
structure Filled (s : Cache) (it : Ptr) (L : StoreLine) : Prop where
  key : s.items.key it = L.key
  nkey : (s.items.nkey it).toNat = L.key.length
  itemFlag : s.items.itemFlag it = L.flags.toUInt8
  nbytes : s.items.nbytes it = L.vlen
  cas : s.items.cas it = L.casId
  refcount : s.items.refcount it = 0

namespace Steps

variable {s : Cache} {g : Shape} {it : Ptr}

/-- `delete` returns, and the key is gone. -/
theorem removeKey (h : Sound s g) (k : List UInt8) :
    ∃ s' g' acts b, s.removeKey k = .ok (s', b) ∧ Steps s g acts s' g' ∧ RemoveActs s g k acts b ∧
      g'.Absent s'.items k := by
  obtain ⟨s₁, g₁, acts, r, heq, hsteps, hget, habs, hlive⟩ := itemGet h k
  unfold Cache.removeKey
  rw [heq]
  cases r with
  | none => exact ⟨s₁, g₁, _, false, rfl, hsteps, .miss acts hget, habs rfl⟩
  | some p =>
    obtain ⟨rfl, rfl⟩ := hlive p rfl
    cases hget with
    | live _ hp hk hl =>
      have hs₁ := hsteps.sound h
      have hE := (h.linked p hp).1
      set s₁ := ((s.hashLock (HashTable.hash k)).fetched p).hashUnlock (HashTable.hash k) with hs₁d
      have hE₁ : p ∈ s₁.everLinked := hE
      obtain ⟨s₂, g₂, heq₂, hsteps₂, habs₂⟩ := itemUnlink hs₁ hE₁
      have hlinked : s₁.items.itemFlag p &&& Slab.ITEM_LINKED ≠ 0 := (hs₁.linked p hp).2
      have hacts : unlinkActs s₁ p = [.quiet, .unlink p, .quiet] := if_pos hlinked
      rw [hacts] at hsteps₂
      have hs₂ := hsteps₂.sound hs₁
      have hE₂ : p ∈ s₂.everLinked := hsteps₂.everLinked_mono hs₁ hE₁
      have hpath := hsteps.append (hsteps₂.append (itemRemove hs₂ hE₂))
      refine ⟨s₂.itemRemove p, g₂, _, true, ?_, hpath, .hit p hp hk hl, ?_⟩
      · simp only [Result.ok_bind, heq₂, Result.pure_eq]
      · have hkey₁ : s₁.items.key p = k := hk
        have hrem : (s₂.itemRemove p).items.key = s₂.items.key := by
          funext q
          have hslab : (s₂.hashLock (HashTable.hash (s₂.items.key p))).items.itemFlag p &&&
            Slab.ITEM_SLABBED = 0 := hs₂.unslabbed p hE₂
          unfold Cache.itemRemove
          simp only [Cache.doItemRemove_eq hslab]
          rfl
        intro q hq
        rw [hrem, ← hkey₁]
        exact habs₂ hlinked q hq

/-- `fillItem` writes fields of the new item only. -/
theorem fillItem_form (s : Cache) (it : Ptr) (L : StoreLine) :
    s.fillItem it L = { s with items := { s.items with
      cas := Function.update s.items.cas it L.casId
      nkey := Function.update s.items.nkey it (UInt8.ofNat L.key.length)
      itemFlag := Function.update s.items.itemFlag it L.flags.toUInt8
      exptime := Function.update s.items.exptime it (realtime L.exptime s.clock)
      nbytes := Function.update s.items.nbytes it L.vlen
      data := Function.update s.items.data it (memcpy (s.items.data it) 0 L.key) } } := by
  simp only [Cache.fillItem, Items.setNkey, Items.setFlag, Items.setExptime, Items.setNbytes,
    Items.setData, Items.setCas]

/-- The header that a storage line leaves. -/
theorem fillItem (hit : it ∈ g.inFlight) (L : StoreLine) :
    Steps s g [.fill it L.flags.toUInt8] (s.fillItem it L) g := by
  rw [fillItem_form]
  refine .single (.fill hit rfl rfl rfl rfl rfl (by simp) fun p hp => ?_)
  constructor <;> simp [hp]

theorem filled_fillItem (L : StoreLine) (hr : s.items.refcount it = 0) :
    Filled (s.fillItem it L) it L := by
  have hlen : (UInt8.ofNat L.key.length).toNat = L.key.length := by
    have := L.key_le
    unfold KEY_MAX_LENGTH at this
    simp
    omega
  rw [fillItem_form]
  refine ⟨?_, ?_, ?_, ?_, ?_, hr⟩
  · simp only [Items.key, Function.update_self, hlen]
    rw [bytesAt_memcpy_self]
  all_goals simp [hlen]

/-- `item_alloc` for a storage line returns, and a new item gets its header. -/
theorem allocLine (h : Sound s g) (L : StoreLine) :
    (¬s.slab.allocOk L.key.length L.vlen ∧ ∃ b t, s.allocLine L =
        .ok ({ s with slab := b, trace := t ++ s.trace }, none) ∧ NothingCarved s.slab b ∧
        Event.links t = [] ∧ ∀ p v, Event.fetchSub p v ∉ t) ∨
      s.slab.allocOk L.key.length L.vlen ∧ ∃ s' g' it, s.allocLine L = .ok (s', some it) ∧
        it ∉ s.everLinked ∧ it ∉ g.inFlight ∧ Filled s' it L ∧
        Steps s g [.grant it (ntotal L.key.length L.vlen)
          (s.slab.slabsClsid (ntotal L.key.length L.vlen)), .fill it L.flags.toUInt8] s' g' := by
  obtain ⟨hno, hyes⟩ := h.doItemAlloc_spec L.key.length L.vlen
  unfold Cache.allocLine
  by_cases hok : s.slab.allocOk L.key.length L.vlen
  · obtain ⟨s₁, g₁, it, heq, hg⟩ := hyes hok
    obtain ⟨-, hE, hA, -⟩ := h.grant hg
    have hit : it ∈ g₁.inFlight := by rw [hg.inFlight]; exact .inl rfl
    exact .inr ⟨hok, s₁.fillItem it L, g₁, it, by rw [heq]; rfl, hE, hA,
      filled_fillItem L hg.alloc.refcount, .cons (.grant hg) (fillItem hit L)⟩
  · obtain ⟨b, t, heq, hb, hl, hf⟩ := hno hok
    exact .inl ⟨hok, b, t, by rw [heq]; rfl, hb, hl, hf⟩

/-- A storage line returns. -/
theorem commandStore (h : Sound s g) (L : StoreLine) :
    ∃ s' g' acts r, s.commandStore L = .ok (s', r) ∧ Steps s g acts s' g' ∧ LineActs s g L acts r ∧
      ∀ it, r = some it → Filled s' it L := by
  unfold Cache.commandStore
  rcases allocLine h L with ⟨hok, b, t, heq, hb, hl, hf⟩ | ⟨hok, s₁, g₁, it, heq, hE, hA, hfill, hsteps⟩
  · have hrefuse : Prim (s, g) .refuse ({ s with slab := b, trace := t ++ s.trace }, g) :=
      .refuse hb hl hf
    rw [heq]
    by_cases hcmd : L.cmd = .set
    · obtain ⟨s', g', acts, b', heq', hsteps, hrem, -⟩ := removeKey (h.refused hb hl) L.key
      refine ⟨s', g', _, none, ?_, .cons hrefuse hsteps, .removed acts b' hok hcmd hrem.refused, by simp⟩
      simp only [Result.ok_bind, Result.pure_eq, if_pos hcmd, heq']
    · exact ⟨_, g, _, none, by simp only [Result.ok_bind, Result.pure_eq, if_neg hcmd],
        .single hrefuse, .refused hok hcmd, by simp⟩
  · refine ⟨s₁, g₁, _, some it, by rw [heq]; rfl, hsteps, .granted it hok hE hA, ?_⟩
    rintro _ ⟨rfl⟩
    exact hfill

theorem writeValue (hit : it ∈ g.inFlight) (bytes : List UInt8) :
    Steps s g [.fill it (s.items.itemFlag it)] (s.writeValue it bytes) g := by
  refine .single (.fill hit rfl rfl rfl rfl rfl rfl fun p hp => ?_)
  constructor <;> simp [Items.setData, hp]

end Steps

end MiniMemcached
