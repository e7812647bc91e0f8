import MiniMemcached.Cache.Lookup

/-! `do_store_item` as a path of primitive steps. `StoreActs` lists the ways a storage
command can go, with the condition on the state before it under which each one
is taken. -/

namespace MiniMemcached

open Runs

/-- `do_item_link` takes the item, or leaves it to nobody. -/
def linkAct (s : Cache) (it : Ptr) : Act :=
  if s.items.itemFlag it &&& (Slab.ITEM_LINKED ||| Slab.ITEM_SLABBED) = 0 then .link it else .drop it

/-- `do_item_update` touches the item. -/
def touchActs (s : Cache) (p : Ptr) : List Act :=
  if s.items.realtime p < s.clock - LruList.ITEM_UPDATE_INTERVAL then [.touch p] else []

/-- The lengths of the joined item. -/
def joinBytes (s : Cache) (it old : Ptr) : ℤ := toInt (s.items.nbytes it + s.items.nbytes old - 2)

/-- The ways a storage command can go, for the item `it` of the client. -/
inductive StoreActs (s : Cache) (g : Shape) (it : Ptr) (cmd : Nread) :
    List Act → StoreStat → Prop
  | noKey (acts : List Act) (hget : GetActs s g (s.items.key it) acts none)
      (hcmd : cmd = .replace ∨ cmd = .append ∨ cmd = .prepend) :
      StoreActs s g it cmd (acts ++ [.drop it]) .NOT_STORED
  | new (acts : List Act) (hget : GetActs s g (s.items.key it) acts none)
      (hcmd : cmd = .add ∨ cmd = .set ∨ cmd = .error) :
      StoreActs s g it cmd (acts ++ [.bump it, linkAct s it]) .STORED
  | taken (old : Ptr) (acts : List Act) (hget : GetActs s g (s.items.key it) acts (some old))
      (hcmd : cmd = .add) :
      StoreActs s g it cmd (acts ++ touchActs s old ++ [.unref old, .drop it]) .NOT_STORED
  | replaced (old : Ptr) (acts : List Act) (hget : GetActs s g (s.items.key it) acts (some old))
      (hcmd : cmd = .set ∨ cmd = .replace ∨ cmd = .error) :
      StoreActs s g it cmd
        (acts ++ [.bump it, .quiet, .unlink old, .quiet, linkAct s it, .unref old]) .STORED
  | swapped (old : Ptr) (acts : List Act) (hget : GetActs s g (s.items.key it) acts (some old))
      (hcmd : cmd = .cas) (hcas : s.items.cas it = s.items.cas old) :
      StoreActs s g it cmd
        (acts ++ [.quiet, .unlink old, .quiet, linkAct s it, .unref old]) .STORED
  | stale (old : Ptr) (acts : List Act) (hget : GetActs s g (s.items.key it) acts (some old))
      (hcmd : cmd = .cas ∨ cmd = .append ∨ cmd = .prepend)
      (hcas : s.items.cas it ≠ s.items.cas old) :
      StoreActs s g it cmd (acts ++ [.unref old, .drop it]) .EXISTS
  | full (old : Ptr) (acts : List Act) (hget : GetActs s g (s.items.key it) acts (some old))
      (hcmd : cmd = .append ∨ cmd = .prepend) (hcas : s.items.cas it = s.items.cas old)
      (hno : ¬s.slab.allocOk (s.items.nkey it).toNat (joinBytes s it old)) :
      StoreActs s g it cmd (acts ++ [.refuse, .unref old, .drop it]) .NOT_STORED
  | joined (old new : Ptr) (acts : List Act) (hget : GetActs s g (s.items.key it) acts (some old))
      (hcmd : cmd = .append ∨ cmd = .prepend) (hcas : s.items.cas it = s.items.cas old)
      (hok : s.slab.allocOk (s.items.nkey it).toNat (joinBytes s it old))
      (hnew : new ∉ g.inFlight) :
      StoreActs s g it cmd
        (acts ++ [.grant new (ntotal (s.items.nkey it).toNat (joinBytes s it old))
            (s.slab.slabsClsid (ntotal (s.items.nkey it).toNat (joinBytes s it old))),
          .fill new 0, .bump new, .quiet, .unlink old, .quiet, .link new, .unref old, .unref new,
          .drop it]) .STORED

theorem StoreActs.hashLock {s : Cache} {g : Shape} {it : Ptr} {cmd : Nread} {hv : UInt32}
    {acts : List Act} {stat : StoreStat} (h : StoreActs (s.hashLock hv) g it cmd acts stat) :
    StoreActs s g it cmd acts stat := by
  cases h with
  | noKey acts hget hcmd => exact .noKey acts hget.hashLock hcmd
  | new acts hget hcmd => exact .new acts hget.hashLock hcmd
  | taken old acts hget hcmd => exact .taken old acts hget.hashLock hcmd
  | replaced old acts hget hcmd => exact .replaced old acts hget.hashLock hcmd
  | swapped old acts hget hcmd hcas => exact .swapped old acts hget.hashLock hcmd hcas
  | stale old acts hget hcmd hcas => exact .stale old acts hget.hashLock hcmd hcas
  | full old acts hget hcmd hcas hno => exact .full old acts hget.hashLock hcmd hcas hno
  | joined old new acts hget hcmd hcas hok hnew =>
    exact .joined old new acts hget.hashLock hcmd hcas hok hnew

theorem GetActs.noLink {s : Cache} {g : Shape} {k : List UInt8} {acts : List Act} {r : Option Ptr}
    (h : GetActs s g k acts r) (p : Ptr) :
    Act.link p ∉ acts ∧ (∀ f, Act.fill p f ∉ acts) ∧ Act.drop p ∉ acts := by
  cases h <;> simp

/-- An item other than the one of the client has its key when it is linked, and the
connection is left with the id of the linked item. -/
structure Joined (s : Cache) (it : Ptr) (acts : List Act) (s' : Cache) (c : Option UInt64) : Prop where
  key : ∀ p, .link p ∈ acts → p ≠ it → s'.items.key p = s.items.key it
  cas : ∀ p, .link p ∈ acts → c = some (s'.items.cas p)

namespace StoreActs

variable {s s' : Cache} {g : Shape} {it : Ptr} {cmd : Nread} {acts : List Act} {stat : StoreStat}

/-- Only append and prepend link an item other than the one of the client. -/
theorem eq_of_link (h : StoreActs s g it cmd acts stat)
    (hno : cmd ≠ .append ∧ cmd ≠ .prepend ∨ stat ≠ .STORED) {p : Ptr} (hp : .link p ∈ acts) :
    p = it := by
  by_contra hpi
  cases h with
  | joined old new acts hget hcmd => simp at hno; exact absurd hcmd (not_or.mpr hno)
  | taken old acts hget =>
    unfold touchActs at hp
    split_ifs at hp <;> simp [(hget.noLink p).1] at hp
  | noKey acts hget
  | stale old acts hget
  | full old acts hget => simp [(hget.noLink p).1] at hp
  | new acts hget
  | replaced old acts hget
  | swapped old acts hget =>
    unfold linkAct at hp
    split_ifs at hp <;> simp [(hget.noLink p).1, hpi] at hp

/-- A storage command that links an item answers `STORED`. -/
theorem stored_of_link (h : StoreActs s g it cmd acts stat) {p : Ptr} (hp : .link p ∈ acts) :
    stat = .STORED := by
  cases h with
  | noKey acts hget
  | stale old acts hget
  | full old acts hget => simp [(hget.noLink p).1] at hp
  | taken old acts hget =>
    unfold touchActs at hp
    split_ifs at hp <;> simp [(hget.noLink p).1] at hp
  | _ => rfl

/-- The item of the client is linked, or none. -/
theorem leaves (h : StoreActs s g it cmd acts stat) {c : Option UInt64}
    (hno : cmd ≠ .append ∧ cmd ≠ .prepend ∨ stat ≠ .STORED)
    (hc : stat = .STORED → c = some (s'.items.cas it)) : Joined s it acts s' c := by
  refine ⟨fun p hp hpi => absurd (h.eq_of_link hno hp) hpi, fun p hp => ?_⟩
  rw [h.eq_of_link hno hp]
  exact hc (h.stored_of_link hp)

/-- The lookup of a storage command. -/
theorem exists_get (h : StoreActs s g it cmd acts stat) :
    ∃ acts' r post, GetActs s g (s.items.key it) acts' r ∧ acts = acts' ++ post := by
  cases h with
  | taken old acts hget => exact ⟨acts, _, _, hget, List.append_assoc ..⟩
  | noKey acts hget
  | new acts hget
  | replaced old acts hget
  | swapped old acts hget
  | stale old acts hget
  | full old acts hget
  | joined old new acts hget => exact ⟨acts, _, _, hget, rfl⟩

/-- An item of the client that gets linked is neither rewritten nor given up. -/
theorem link_self (h : StoreActs s g it cmd acts stat) (hit : it ∈ g.inFlight)
    (hl : .link it ∈ acts) : (∀ f, .fill it f ∉ acts) ∧ .drop it ∉ acts := by
  cases h with
  | joined old new acts hget hcmd hcas hok hnew =>
    have hne : it ≠ new := fun e => hnew (e ▸ hit)
    simp [(hget.noLink it).1, hne] at hl
  | taken old acts hget =>
    unfold touchActs at hl
    split_ifs at hl <;> simp [(hget.noLink it).1] at hl
  | noKey acts hget
  | stale old acts hget
  | full old acts hget => simp [(hget.noLink it).1] at hl
  | new acts hget
  | replaced old acts hget
  | swapped old acts hget =>
    unfold linkAct at hl ⊢
    split_ifs at hl ⊢ <;> simp [hget.noLink it] at hl ⊢

end StoreActs

namespace Steps

variable {s : Cache} {g : Shape} {it old : Ptr}

/-- `do_item_link`. -/
theorem doItemLink (h : Sound s g) (hit : it ∈ g.inFlight)
    (habs : g.Absent s.items (s.items.key it)) :
    ∃ g', Steps s g [linkAct s it] (s.doItemLink it (HashTable.hash (s.items.key it))).1 g' := by
  unfold linkAct
  split_ifs with hf
  · obtain ⟨Q, hsound⟩ := h.link hit habs hf
    refine ⟨g.inserted s it Q, ?_⟩
    rw [Cache.doItemLink_eq _ hf]
    exact .single (.link hit habs hf hsound)
  · refine ⟨g.withoutItem it, ?_⟩
    rw [Cache.doItemLink_skip _ hf]
    exact .single (.drop it)

/-- `do_item_replace` of a linked item. -/
theorem doItemReplace (h : Sound s g) (hold : old ∈ g.table) (hit : it ∈ g.inFlight)
    (hkey : s.items.key old = s.items.key it) :
    ∃ s' g' b, s.doItemReplace old it (HashTable.hash (s.items.key it)) = .ok (s', b) ∧
      Steps s g [.quiet, .unlink old, .quiet, linkAct s it] s' g' := by
  obtain ⟨hE, hl⟩ := h.linked old hold
  obtain ⟨s₁, g₁, heq, hsteps, habs⟩ := doItemUnlink h hE
  have hacts : unlinkActs s old = [.quiet, .unlink old, .quiet] := if_pos hl
  rw [hacts] at hsteps
  rw [hkey] at heq habs
  have hs₁ := hsteps.sound h
  have hit₁ : it ∈ g₁.inFlight := hsteps.inFlight hit (by simp [Act.writes])
  have hev := hsteps.evolves h (K := {it}) (by simpa using hit) (by simp [Act.writes])
  have hkey₁ : s₁.items.key it = s.items.key it := hev.key (.inr rfl)
  have habs₁ : g₁.Absent s₁.items (s₁.items.key it) := by rw [hkey₁]; exact habs hl
  obtain ⟨g₂, hlink⟩ := doItemLink hs₁ hit₁ habs₁
  have hact : linkAct s₁ it = linkAct s it := by
    unfold linkAct
    rw [hev.itemFlag it rfl]
  rw [hact, hkey₁] at hlink
  refine ⟨_, g₂, (s₁.doItemLink it (HashTable.hash (s.items.key it))).2, ?_, hsteps.append hlink⟩
  unfold Cache.doItemReplace
  rw [if_neg (not_not.mpr (h.unslabbed old hE)), heq]
  rfl

/-- `do_item_replace` and the release of the old item. -/
theorem storeReplace (h : Sound s g) (hold : old ∈ g.table) (hit : it ∈ g.inFlight)
    (hkey : s.items.key old = s.items.key it) :
    ∃ s' g', s.storeReplace it old (HashTable.hash (s.items.key it)) =
        .ok (s', .STORED, some (s'.items.cas it)) ∧
      Steps s g [.quiet, .unlink old, .quiet, linkAct s it, .unref old] s' g' := by
  obtain ⟨s₁, g₁, b, heq, hsteps⟩ := doItemReplace h hold hit hkey
  have hs₁ := hsteps.sound h
  have hE : old ∈ s₁.everLinked := Cache.everLinked_mono
    (hsteps.evolves h (K := ∅) (by simp) (by simp)).trace (h.linked old hold).1
  refine ⟨s₁.doItemRemove old, g₁, ?_, hsteps.append (doItemRemove hs₁ hE)⟩
  unfold Cache.storeReplace
  rw [heq]
  rfl

/-- The joined item starts with the key of the old one. -/
theorem key_joinItem (s : Cache) {newIt old : Ptr} (it : Ptr) (append : Bool) (hne : old ≠ newIt) :
    (s.joinItem newIt it old append).items.key newIt = s.items.key old := by
  have hlen : (bytesAt (s.items.data old) 0 (s.items.nkey old).toNat).length =
      (s.items.nkey old).toNat := length_bytesAt _ _ _
  simp only [Cache.joinItem, Items.key, Items.setNkey, Items.setFlag, Items.setExptime,
    Items.setNbytes, Items.setData, Function.update_self, Function.update_of_ne hne,
    Items.realDataAddr]
  rw [bytesAt_memcpy_of_disjoint _ (.inl (by omega)), bytesAt_memcpy_of_disjoint _ (.inl (by omega)),
    bytesAt_memcpy_of_disjoint _ (.inl (by omega))]
  nth_rewrite 2 [← hlen]
  rw [bytesAt_memcpy_self]

/-- `joinItem` writes fields of the new item only. -/
theorem joinItem_form (s : Cache) (new it old : Ptr) (append : Bool) :
    ∃ d, s.joinItem new it old append = { s with items := { s.items with
      nkey := Function.update s.items.nkey new (s.items.nkey old)
      itemFlag := Function.update s.items.itemFlag new 0
      exptime := Function.update s.items.exptime new (s.items.exptime old)
      nbytes := Function.update s.items.nbytes new (joinBytes s it old)
      data := Function.update s.items.data new d } } := by
  simp only [Cache.joinItem, Items.setNkey, Items.setFlag, Items.setExptime, Items.setNbytes,
    Items.setData, joinBytes]
  exact ⟨_, rfl⟩

theorem joinItem {new : Ptr} (hnew : new ∈ g.inFlight) (it old : Ptr) (append : Bool) :
    Steps s g [.fill new 0] (s.joinItem new it old append) g := by
  obtain ⟨d, hform⟩ := joinItem_form s new it old append
  rw [hform]
  refine .single (.fill hnew rfl rfl rfl rfl rfl (by simp) fun p hp => ?_)
  constructor <;> simp [hp]

/-- The arms for a key that is not found. -/
theorem storeNew (h : Sound s g) (hit : it ∈ g.inFlight) (habs : g.Absent s.items (s.items.key it))
    (cmd : Nread) :
    (cmd = .cas ∧ s.storeNew it cmd (HashTable.hash (s.items.key it)) = .error .nullPointer) ∨
    ∃ s' g' stat c, s.storeNew it cmd (HashTable.hash (s.items.key it)) = .ok (s', stat, c) ∧
      ((cmd = .replace ∨ cmd = .append ∨ cmd = .prepend) ∧ stat = .NOT_STORED ∧
          Steps s g [.drop it] s' g' ∨
        (cmd = .add ∨ cmd = .set ∨ cmd = .error) ∧ stat = .STORED ∧ c = some (s'.items.cas it) ∧
          Steps s g [.bump it, linkAct s it] s' g') := by
  have hlink : ∃ g', Steps s g [.bump it, linkAct s it]
      ((s.incCas it).doItemLink it (HashTable.hash (s.items.key it))).1 g' := by
    have hb : Prim (s, g) (.bump it) (s.incCas it, g) := .bump hit
    obtain ⟨g', hsteps⟩ := doItemLink (s := s.incCas it) (hb.sound h) hit habs
    exact ⟨g', .cons hb hsteps⟩
  obtain ⟨g', hlink⟩ := hlink
  cases cmd with
  | cas => exact .inl ⟨rfl, rfl⟩
  | replace => exact .inr ⟨s, _, _, _, rfl, .inl ⟨by simp, rfl, .single (.drop it)⟩⟩
  | append => exact .inr ⟨s, _, _, _, rfl, .inl ⟨by simp, rfl, .single (.drop it)⟩⟩
  | prepend => exact .inr ⟨s, _, _, _, rfl, .inl ⟨by simp, rfl, .single (.drop it)⟩⟩
  | add => exact .inr ⟨_, g', _, _, rfl, .inr ⟨by simp, rfl, rfl, hlink⟩⟩
  | set => exact .inr ⟨_, g', _, _, rfl, .inr ⟨by simp, rfl, rfl, hlink⟩⟩
  | error => exact .inr ⟨_, g', _, _, rfl, .inr ⟨by simp, rfl, rfl, hlink⟩⟩

/-- `it` is given up after a reference to `old` was given back. -/
theorem removeDrop (h : Sound s g) (hold : old ∈ s.everLinked) (it : Ptr) :
    Steps s g [.unref old, .drop it] (s.doItemRemove old) (g.withoutItem it) :=
  (doItemRemove h hold).append (.single (.drop it))

/-- The joined item is filled in, and takes the place of the old one. -/
theorem replaceJoined (h : Sound s g) {new : Ptr} (hold : old ∈ g.table) (hnew : new ∈ g.inFlight)
    (hkey : s.items.key old = s.items.key it) (append : Bool) :
    ∃ s' g' b, ((s.joinItem new it old append).incCas new).doItemReplace old new
        (HashTable.hash (s.items.key it)) = .ok (s', b) ∧
      Steps s g [.fill new 0, .bump new] ((s.joinItem new it old append).incCas new) g ∧
      Steps ((s.joinItem new it old append).incCas new) g [.quiet, .unlink old, .quiet, .link new] s' g' := by
  have hE := (h.linked old hold).1
  have hne : old ≠ new := fun e => h.unlinked new hnew (e ▸ hE)
  have hfill := joinItem (s := s) hnew it old append
  have hbump : Prim (s.joinItem new it old append, g) (.bump new)
    ((s.joinItem new it old append).incCas new, g) := .bump hnew
  have hfirst := hfill.snoc hbump
  have hs := Steps.sound hfirst h
  have hknew : ((s.joinItem new it old append).incCas new).items.key new = s.items.key it := by
    rw [← hkey]
    exact key_joinItem s it append hne
  have hkold : ((s.joinItem new it old append).incCas new).items.key old = s.items.key it := by
    rw [← hkey]
    exact (Steps.evolves hfirst h (K := ∅) (by simp) (by simp)).key (.inl hE)
  obtain ⟨s', g', b, hrep, hsteps⟩ := doItemReplace hs hold hnew (hkold.trans hknew.symm)
  have hact : linkAct ((s.joinItem new it old append).incCas new) new = .link new := by
    obtain ⟨d, hform⟩ := joinItem_form s new it old append
    unfold linkAct
    rw [if_pos]
    simp [Cache.incCas, hform, Items.setCas]
  rw [hknew] at hrep
  rw [hact] at hsteps
  exact ⟨s', g', b, hrep, hfirst, hsteps⟩

/-- Append and prepend. -/
theorem storeJoin (h : Sound s g) (hold : old ∈ g.table) (hit : it ∈ g.inFlight)
    (hkey : s.items.key old = s.items.key it) (append : Bool) :
    ∃ s' g' stat c, s.storeJoin it old append (HashTable.hash (s.items.key it)) =
        .ok (s', stat, c) ∧
      (s.items.cas it ≠ s.items.cas old ∧ stat = .EXISTS ∧
          Steps s g [.unref old, .drop it] s' g' ∨
        s.items.cas it = s.items.cas old ∧
          ¬s.slab.allocOk (s.items.nkey it).toNat (joinBytes s it old) ∧ stat = .NOT_STORED ∧
          Steps s g [.refuse, .unref old, .drop it] s' g' ∨
        s.items.cas it = s.items.cas old ∧
          s.slab.allocOk (s.items.nkey it).toNat (joinBytes s it old) ∧ stat = .STORED ∧
          ∃ new ∉ g.inFlight, s'.items.key new = s.items.key it ∧ c = some (s'.items.cas new) ∧
            Steps s g [.grant new (ntotal (s.items.nkey it).toNat (joinBytes s it old))
              (s.slab.slabsClsid (ntotal (s.items.nkey it).toNat (joinBytes s it old))),
            .fill new 0, .bump new, .quiet, .unlink old, .quiet, .link new, .unref old, .unref new,
            .drop it] s' g') := by
  have hE := (h.linked old hold).1
  unfold Cache.storeJoin
  simp only [← joinBytes.eq_1]
  by_cases hcas : s.items.cas it ≠ s.items.cas old
  · rw [if_pos hcas]
    exact ⟨_, _, _, _, rfl, .inl ⟨hcas, rfl, removeDrop h hE it⟩⟩
  · rw [if_neg hcas]
    rw [not_not] at hcas
    obtain ⟨hno, hyes⟩ := h.doItemAlloc_spec (s.items.nkey it).toNat (joinBytes s it old)
    by_cases hok : s.slab.allocOk (s.items.nkey it).toNat (joinBytes s it old)
    · obtain ⟨s₁, g₁, new, heq, hg⟩ := hyes hok
      obtain ⟨hs₁, hnewE, hnewA, hev₁⟩ := h.grant hg
      have hnew₁ : new ∈ g₁.inFlight := by rw [hg.inFlight]; exact .inl rfl
      have hold₁ : old ∈ g₁.table := by simpa only [Shape.table, hg.buckets] using hold
      have hne : old ≠ new := fun e => hnewE (e ▸ hE)
      have hk := hev₁.key (.inl hE)
      have hkit : s₁.items.key it = s.items.key it := hev₁.key (.inr hit)
      obtain ⟨s₄, g₄, b, hrep, hfirst, hsteps⟩ := replaceJoined hs₁ hold₁ hnew₁
        ((hk.trans hkey).trans hkit.symm) append
      rw [hkit] at hrep
      have hs₃ := Steps.sound hfirst hs₁
      have hs₄ := hsteps.sound hs₃
      have hpath : Steps s₁ g₁ _ s₄ g₄ := hfirst.append hsteps
      have hE₄ : old ∈ s₄.everLinked :=
        hpath.everLinked_mono hs₁ (Cache.everLinked_mono hev₁.trace hE)
      have hnew₄ : new ∈ s₄.everLinked := hsteps.everLinked_of_link hs₃ (by simp)
      have hknew : ((s₁.joinItem new it old append).incCas new).items.key new = s.items.key it :=
        (key_joinItem s₁ it append hne).trans (hk.trans hkey)
      have hrem := doItemRemove hs₄ hE₄
      have hs₅ := hrem.sound hs₄
      have hrem' := removeDrop hs₅ (hrem.everLinked_mono hs₄ hnew₄) it
      have hend : Steps ((s₁.joinItem new it old append).incCas new) g₁ _ _ _ :=
        hsteps.append (hrem.append hrem')
      have hkept := hend.kept hs₃ (p := new) (.inr hnew₁) (by simp) (by
        have : new ≠ it := fun e => hnewA (e ▸ hit)
        simp [this])
      refine ⟨_, _, _, _, by rw [heq]; simp only [Result.ok_bind, hrep, Result.pure_eq],
        .inr (.inr ⟨hcas, hok, rfl, new, hnewA, hkept.key.trans hknew, rfl,
          .cons (.grant hg) ((hpath.append hrem).append hrem')⟩)⟩
    · obtain ⟨b, t, heq, hb, hl, hf⟩ := hno hok
      refine ⟨_, _, _, _, by rw [heq]; rfl, .inr (.inl ⟨hcas, hok, rfl, .cons (.refuse hb hl hf)
        (removeDrop (h.refused hb hl) ?_ it)⟩)⟩
      exact Cache.everLinked_mono ⟨t, rfl⟩ hE

theorem doItemUpdate (h : Sound s g) (hold : old ∈ g.table) :
    ∃ g', Steps s g (touchActs s old) (s.doItemUpdate old) g' := by
  obtain ⟨hE, hl⟩ := h.linked old hold
  rw [h.doItemUpdate_eq hE hl]
  unfold touchActs
  split_ifs
  · obtain ⟨Q, hsound⟩ := h.touch hE
    exact ⟨_, .single (.touch hE hsound)⟩
  · exact ⟨g, .nil _⟩

/-- The arms for a key that is bound to `old`, on the state behind the lookup. -/
theorem storeOver (h : Sound s g) (hit : it ∈ g.inFlight) {acts : List Act}
    (hget : GetActs s g (s.items.key it) acts (some old))
    (hpath : Steps s g acts (s.fetched old) g) (cmd : Nread) :
    ∃ s' g' acts stat c,
      (s.fetched old).storeOver it old cmd (HashTable.hash (s.items.key it)) = .ok (s', stat, c) ∧
      Steps s g acts s' g' ∧ StoreActs s g it cmd acts stat ∧ Joined s it acts s' c := by
  obtain ⟨hold, hkey⟩ : old ∈ g.table ∧ s.items.key old = s.items.key it := by
    cases hget with
    | live _ hp hk hl => exact ⟨hp, hk⟩
  have h₁ := hpath.sound h
  have hne : it ≠ old := fun e => h.unlinked it hit (e ▸ (h.linked old hold).1)
  have hlink : ∀ s' : Cache, s'.items.itemFlag = (s.fetched old).items.itemFlag →
      linkAct s' it = linkAct s it := by
    intro s' hs'
    unfold linkAct
    rw [hs']
    simp [Cache.fetched, Cache.setFlag, Items.setFlag, Cache.fetchAdd, Items.setRefcount, hne]
  have htouch : touchActs (s.fetched old) old = touchActs s old := rfl
  have hbump : Prim (s.fetched old, g) (.bump it) ((s.fetched old).incCas it, g) := .bump hit
  have hreplace : ∀ cmd, cmd = .set ∨ cmd = .replace ∨ cmd = .error → ∃ s' g' acts stat c,
      ((s.fetched old).incCas it).storeReplace it old (HashTable.hash (s.items.key it)) =
        .ok (s', stat, c) ∧ Steps s g acts s' g' ∧ StoreActs s g it cmd acts stat ∧
        Joined s it acts s' c := by
    intro cmd hcmd
    have h₂ : Sound ((s.fetched old).incCas it) g := hbump.sound h₁
    obtain ⟨s', g', heq, hsteps⟩ := storeReplace h₂ hold hit hkey
    rw [hlink ((s.fetched old).incCas it) rfl] at hsteps
    exact ⟨s', g', _, _, _, heq, hpath.append (.cons hbump hsteps),
      .replaced old acts hget hcmd, (StoreActs.replaced old acts hget hcmd).leaves
        (.inl (by rcases hcmd with h | h | h <;> simp [h])) fun _ => rfl⟩
  have hjoin : ∀ append cmd, cmd = .append ∨ cmd = .prepend → ∃ s' g' acts stat c,
      (s.fetched old).storeJoin it old append (HashTable.hash (s.items.key it)) =
        .ok (s', stat, c) ∧ Steps s g acts s' g' ∧ StoreActs s g it cmd acts stat ∧
        Joined s it acts s' c := by
    intro append cmd hcmd
    obtain ⟨s', g', stat, c, heq, hcase⟩ := storeJoin h₁ hold hit hkey append
    rcases hcase with ⟨hcas, rfl, hsteps⟩ | ⟨hcas, hno, rfl, hsteps⟩ | ⟨hcas, hok, rfl, new, hnew,
      hknew, hc, hsteps⟩
    · exact ⟨s', g', _, _, c, heq, hpath.append hsteps, .stale old acts hget (.inr hcmd) hcas,
        (StoreActs.stale old acts hget (.inr hcmd) hcas).leaves (.inr (by simp)) (by simp)⟩
    · exact ⟨s', g', _, _, c, heq, hpath.append hsteps, .full old acts hget hcmd hcas hno,
        (StoreActs.full old acts hget hcmd hcas hno).leaves (.inr (by simp)) (by simp)⟩
    · refine ⟨s', g', _, _, c, heq, hpath.append hsteps, .joined old new acts hget hcmd hcas hok
        hnew, ?_⟩
      refine ⟨fun p hp _ => ?_, fun p hp => ?_⟩
      · obtain rfl : p = new := by simpa [(hget.noLink p).1] using hp
        exact hknew
      · obtain rfl : p = new := by simpa [(hget.noLink p).1] using hp
        exact hc
  cases cmd with
  | add =>
    obtain ⟨g₂, hsteps⟩ := doItemUpdate h₁ hold
    rw [htouch] at hsteps
    have hrem := removeDrop (hsteps.sound h₁) (hsteps.everLinked_mono h₁ (h₁.linked old hold).1) it
    exact ⟨_, _, _, _, _, rfl, (hpath.append hsteps).append hrem, .taken old acts hget rfl,
      (StoreActs.taken old acts hget rfl).leaves (.inl (by simp)) (by simp)⟩
  | set => exact hreplace _ (by simp)
  | replace => exact hreplace _ (by simp)
  | error => exact hreplace _ (by simp)
  | append => exact hjoin true _ (by simp)
  | prepend => exact hjoin false _ (by simp)
  | cas =>
    unfold Cache.storeOver
    by_cases hcas : (s.fetched old).items.cas it = (s.fetched old).items.cas old
    · obtain ⟨s', g', heq, hsteps⟩ := storeReplace h₁ hold hit hkey
      rw [hlink _ rfl] at hsteps
      refine ⟨s', g', _, _, _, ?_, hpath.append hsteps, .swapped old acts hget rfl hcas,
        (StoreActs.swapped old acts hget rfl hcas).leaves (.inl (by simp)) fun _ => rfl⟩
      simp only [if_pos hcas]
      exact heq
    · refine ⟨_, _, _, _, none, ?_, hpath.append (removeDrop h₁ (h₁.linked old hold).1 it),
        .stale old acts hget (.inl rfl) hcas,
        (StoreActs.stale old acts hget (.inl rfl) hcas).leaves (.inr (by simp)) (by simp)⟩
      simp only [if_neg hcas]

/-- `do_store_item` returns, except that `cas` on a key without a live item reads
through a null pointer. -/
theorem doStoreItem (h : Sound s g) (hit : it ∈ g.inFlight) (cmd : Nread) :
    (cmd = .cas ∧ (∃ acts, GetActs s g (s.items.key it) acts none) ∧
      s.doStoreItem it cmd (HashTable.hash (s.items.key it)) = .error .nullPointer) ∨
    ∃ s' g' acts stat c, s.doStoreItem it cmd (HashTable.hash (s.items.key it)) =
        .ok (s', stat, c) ∧ Steps s g acts s' g' ∧ StoreActs s g it cmd acts stat ∧
        Joined s it acts s' c := by
  obtain ⟨s₁, g₁, acts, r, heq, hsteps, hget, habs, hlive⟩ := doItemGet h (s.items.key it)
  unfold Cache.doStoreItem
  rw [heq, Result.ok_bind]
  cases r with
  | some old =>
    obtain ⟨rfl, rfl⟩ := hlive old rfl
    exact .inr (storeOver h hit hget hsteps cmd)
  | none =>
    have hwrites : ∀ a ∈ acts, a.writes = none := by
      cases hget <;> simp [Act.writes]
    have hit₁ : it ∈ g₁.inFlight := hsteps.inFlight hit fun a ha => by simp [hwrites a ha]
    have hev := hsteps.evolves h (K := {it}) (by simpa using hit) fun a ha => by simp [hwrites a ha]
    have hkey : s₁.items.key it = s.items.key it := hev.key (.inr rfl)
    have hlink : linkAct s₁ it = linkAct s it := by
      unfold linkAct
      rw [hev.itemFlag it rfl]
    have habs := habs rfl
    rw [← hkey] at habs
    rcases storeNew (hsteps.sound h) hit₁ habs cmd with ⟨hcmd, herr⟩ |
      ⟨s', g', stat, c, heq', ⟨hcmd, rfl, hsteps'⟩ | ⟨hcmd, rfl, rfl, hsteps'⟩⟩
    · rw [hkey] at herr
      exact .inl ⟨hcmd, ⟨acts, hget⟩, herr⟩
    · rw [hkey] at heq'
      exact .inr ⟨s', g', _, _, c, heq', hsteps.append hsteps', .noKey acts hget hcmd,
        (StoreActs.noKey acts hget hcmd).leaves (.inr (by simp)) (by simp)⟩
    · rw [hkey] at heq'
      rw [hlink] at hsteps'
      exact .inr ⟨s', g', _, _, _, heq', hsteps.append hsteps', .new acts hget hcmd,
        (StoreActs.new acts hget hcmd).leaves (.inl (by rcases hcmd with h | h | h <;> simp [h]))
          fun _ => rfl⟩

/-- `store_item`, with the item lock of the key around it. -/
theorem storeItem (h : Sound s g) (hit : it ∈ g.inFlight) (cmd : Nread) :
    (cmd = .cas ∧ (∃ acts, GetActs s g (s.items.key it) acts none) ∧
      s.storeItem it cmd = .error .nullPointer) ∨
    ∃ s' g' acts stat c, s.storeItem it cmd = .ok (s', stat, c) ∧
      Steps s g (.quiet :: acts ++ [.quiet]) s' g' ∧ StoreActs s g it cmd acts stat ∧
      (∀ p, .link p ∈ acts → s'.items.key p = s.items.key it) ∧
      ∀ p, .link p ∈ acts → c = some (s'.items.cas p) := by
  unfold Cache.storeItem
  rcases doStoreItem (h.hashLock (HashTable.hash (s.items.key it))) hit cmd with
    ⟨hcmd, ⟨acts, hget⟩, herr⟩ | ⟨s', g', acts, stat, c, heq, hsteps, hacts, hjoin⟩
  · have herr' : (s.hashLock (HashTable.hash (s.items.key it))).doStoreItem it cmd
        (HashTable.hash (s.items.key it)) = .error .nullPointer := herr
    exact .inl ⟨hcmd, ⟨acts, hget.hashLock⟩, by simp only [herr', Result.error_bind]⟩
  · have heq' : (s.hashLock (HashTable.hash (s.items.key it))).doStoreItem it cmd
        (HashTable.hash (s.items.key it)) = .ok (s', stat, c) := heq
    refine .inr ⟨s'.hashUnlock (HashTable.hash (s.items.key it)), g', acts, stat, c,
      by simp only [heq', Result.ok_bind, Result.pure_eq],
      ((hashLock _).append hsteps).append (hashUnlock _), hacts.hashLock, fun p hp => ?_, hjoin.cas⟩
    by_cases hpi : p = it
    · subst hpi
      obtain ⟨hfill, hdrop⟩ := hacts.link_self hit hp
      exact (hsteps.kept (h.hashLock _) (.inr hit) hfill hdrop).key
    · exact hjoin.key p hp hpi

end Steps

end MiniMemcached
