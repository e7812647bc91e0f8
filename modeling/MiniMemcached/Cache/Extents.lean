import MiniMemcached.Cache.CommandPaths

/-! What is written into the chunk of an item. An item in use has a header that its
chunk has room for, and the size that `do_item_alloc` computes as an `int` has not
wrapped round, since no class is that large. So the copies of the storage commands
stay inside the chunk, and the two copies of append and prepend make up the
concatenation of the values. -/

namespace MiniMemcached

open Runs

/-- The item has a value with a line end, and stands in a chunk with room for the header,
the key, the separator and the value. -/
structure Cache.Fits (s : Cache) (p : Ptr) : Prop where
  nbytes_ge : 2 ≤ s.items.nbytes p
  room : ∃ id, p ∈ (s.slab.cls id).chunks ∧
    sizeofBaseItem + (s.items.nkey p).toNat + 1 + s.items.nbytes p ≤ (s.slab.cls id).size

/-- Every item that was ever linked or is in flight fits into its chunk. -/
structure Sized (s : Cache) (g : Shape) : Prop where
  fits : ∀ p, p ∈ s.everLinked ∨ p ∈ g.inFlight → s.Fits p
  small : ∀ id, (s.slab.cls id).size < 2 ^ 31

/-- The items that a step hands out or rewrites. -/
def Act.fresh : Act → Option Ptr
  | .grant it _ _ | .fill it _ => some it
  | _ => none

theorem Cache.Fits.congr {s s' : Cache} {p : Ptr} (h : s.Fits p) (hn : s'.items.nkey p = s.items.nkey p)
    (hb : s'.items.nbytes p = s.items.nbytes p)
    (hchunks : ∀ id, (s.slab.cls id).chunks ⊆ (s'.slab.cls id).chunks)
    (hsize : ∀ id, (s'.slab.cls id).size = (s.slab.cls id).size) : s'.Fits p := by
  obtain ⟨hge, id, hid, hroom⟩ := h
  refine ⟨by rw [hb]; exact hge, id, hchunks id hid, ?_⟩
  rw [hn, hb, hsize]
  exact hroom

/-- No chunk is given back to the system. -/
theorem Prim.chunks_subset {x y : Cache × Shape} {a : Act} (hp : Prim x a y) (id : ℕ) :
    (x.1.slab.cls id).chunks ⊆ (y.1.slab.cls id).chunks := by
  cases hp with
  | @refuse s g b t hb hl hf =>
    intro p hp
    rw [hb.chunks id]
    exact hp
  | grant hg => exact hg.alloc.chunks_subset id
  | _ => exact fun p hp => hp

theorem Steps.chunks_subset {s s' : Cache} {g g' : Shape} {acts : List Act} (hsteps : Steps s g acts s' g')
    (id : ℕ) : (s.slab.cls id).chunks ⊆ (s'.slab.cls id).chunks :=
  Path.rel (I := fun _ => True) (C := fun _ => True)
    (R := fun x y : Cache × Shape => (x.1.slab.cls id).chunks ⊆ (y.1.slab.cls id).chunks)
    (fun _ _ hp => hp) (fun _ _ _ h₁ h₂ _ hp => h₂ (h₁ hp))
      (fun _ _ _ _ _ hp => ⟨trivial, hp.chunks_subset id⟩)
    hsteps (fun _ _ => trivial) trivial

theorem Steps.link_of_everLinked {s s' : Cache} {g g' : Shape} {acts : List Act}
    (hsteps : Steps s g acts s' g') {p : Ptr} (h : p ∈ s'.everLinked) :
    p ∈ s.everLinked ∨ .link p ∈ acts := by
  have hor := Path.invariant (I := fun x : Cache × Shape => p ∈ x.1.everLinked → p ∈ s.everLinked ∨
    .link p ∈ acts)
    (C := fun a => a ∈ acts) (fun x a y hx ha hp hy => by
      rcases (hp.everLinked p).mp hy with rfl | hy
      · exact .inr ha
      · exact hx hy) hsteps (fun _ ha => ha) .inl
  exact hor h

theorem Sized.setClock {s : Cache} {g : Shape} (h : Sized s g) (now : UInt32) :
    Sized { s with clock := now } g :=
  ⟨fun p hp => ⟨(h.fits p hp).nbytes_ge, (h.fits p hp).room⟩, h.small⟩

/-- An item that a step neither hands out nor rewrites was there before. -/
theorem Prim.was_there {x y : Cache × Shape} {a : Act} (hp : Prim x a y) {p : Ptr}
    (hfresh : a.fresh ≠ some p) (h : p ∈ y.1.everLinked ∨ p ∈ y.2.inFlight) :
    p ∈ x.1.everLinked ∨ p ∈ x.2.inFlight := by
  rcases h with h | h
  · rcases (hp.everLinked p).mp h with rfl | h
    · cases hp with
      | link hit hkey hf hsound => exact .inr hit
    · exact .inl h
  · rw [hp.flight] at h
    cases a with
    | grant it size id => exact .inr (h.resolve_left fun e => hfresh (e ▸ rfl))
    | link it => exact .inr h.1
    | drop it => exact .inr h.1
    | _ => exact .inr h

theorem Prim.fits {x y : Cache × Shape} {a : Act} (hp : Prim x a y) (hs : Sound x.1 x.2) {p : Ptr}
    (hfresh : a.fresh ≠ some p) (hin : p ∈ x.1.everLinked ∨ p ∈ x.2.inFlight) (h : x.1.Fits p) :
    y.1.Fits p := by
  have hsize := (hp.evolves hs).sizes.size
  by_cases hdrop : a = .drop p
  · subst hdrop
    cases hp
    exact h
  · obtain ⟨hkept, -⟩ := hp.kept hs hin (fun f e => hfresh (e ▸ rfl)) hdrop
    exact h.congr hkept.nkey hkept.nbytes hp.chunks_subset hsize

/-- A path keeps the sizes in order when the items that it hands out or rewrites fit in
the end. -/
theorem Sized.steps {s s' : Cache} {g g' : Shape} {acts : List Act} (h : Sized s g) (hs : Sound s g)
    (hsteps : Steps s g acts s' g')
    (hnew : ∀ p, (∃ a ∈ acts, a.fresh = some p) → p ∈ s'.everLinked ∨ p ∈ g'.inFlight → s'.Fits p) :
    Sized s' g' := by
  have hold := Path.invariant
    (I := fun x : Cache × Shape => Sound x.1 x.2 ∧ ∀ p, p ∈ x.1.everLinked ∨ p ∈ x.2.inFlight →
      (∃ a ∈ acts, a.fresh = some p) ∨ x.1.Fits p)
    (C := fun a => a ∈ acts) (fun x a y ⟨hx, hfits⟩ ha hp => by
      refine ⟨hp.sound hx, fun p hin => ?_⟩
      by_cases hfresh : a.fresh = some p
      · exact .inl ⟨a, ha, hfresh⟩
      · have hwas := hp.was_there hfresh hin
        exact (hfits p hwas).imp_right (hp.fits hx hfresh hwas))
    hsteps (fun _ ha => ha) ⟨hs, fun p hin => .inr (h.fits p hin)⟩
  have hsizes := (hsteps.evolves hs (K := ∅) (by simp) (by simp)).sizes
  refine ⟨fun p hin => (hold.2 p hin).elim (fun hex => hnew p hex hin) id, fun id => ?_⟩
  rw [hsizes.size]
  exact h.small id

/-- The size that `do_item_alloc` computes for an item that it serves. -/
theorem ntotal_eq {b : Slab} (hsize : ∀ id, (b.cls id).size < 2 ^ 31) {nkey : ℕ} {nbytes : ℤ}
    (hn : nkey < 2 ^ 8) (h0 : 0 ≤ nbytes) (h1 : nbytes < 2 ^ 31)
    (hok : b.slabsClsid (ntotal nkey nbytes) ≠ 0) :
    ntotal nkey nbytes = toSizeT (sizeofBaseItem + nkey + 1 + nbytes) := by
  have hle := Slab.le_size_slabsClsid hok
  have hlt := hsize (b.slabsClsid (ntotal nkey nbytes))
  by_cases hx : (sizeofBaseItem : ℤ) + nkey + 1 + nbytes < 2 ^ 31
  · rw [ntotal, toInt_of_bounds (by unfold sizeofBaseItem; omega) hx]
  · -- the `int` has wrapped round, and no class is that large
    have hwrap : toInt (sizeofBaseItem + nkey + 1 + nbytes) =
        sizeofBaseItem + nkey + 1 + nbytes - 2 ^ 32 := by
      unfold toInt Int.bmod
      unfold sizeofBaseItem at hx ⊢
      norm_num
      omega
    have hbig : 2 ^ 31 ≤ ntotal nkey nbytes := by
      rw [ntotal, hwrap]
      unfold toSizeT
      unfold sizeofBaseItem at hx ⊢
      omega
    omega

/-- The class of an item that is served has room for its header, key and value. -/
theorem room_of_served {b : Slab} (hsize : ∀ id, (b.cls id).size < 2 ^ 31) {nkey : ℕ} {nbytes : ℤ}
    (hn : nkey < 2 ^ 8) (h0 : 0 ≤ nbytes) (h1 : nbytes < 2 ^ 31)
    (hok : b.slabsClsid (ntotal nkey nbytes) ≠ 0) :
    (sizeofBaseItem : ℤ) + nkey + 1 + nbytes ≤ (b.cls (b.slabsClsid (ntotal nkey nbytes))).size := by
  have hle := Slab.le_size_slabsClsid hok
  have heq := ntotal_eq hsize hn h0 h1 hok
  rw [toSizeT_of_bounds (by omega) (by unfold sizeofBaseItem; omega)] at heq
  omega

section Join

variable {s : Cache} {it old : Ptr}

/-- The length of a joined item that is served is the sum, which has not wrapped round. -/
theorem joinBytes_eq (hit : s.Fits it) (hold : s.Fits old) (hsize : ∀ id, (s.slab.cls id).size < 2 ^ 31)
    (hnkey : s.items.nkey it = s.items.nkey old)
    (hok : s.slab.allocOk (s.items.nkey it).toNat (joinBytes s it old)) :
    joinBytes s it old = s.items.nbytes it + s.items.nbytes old - 2 := by
  obtain ⟨hge, i, -, hroom⟩ := hit
  obtain ⟨hge', j, -, hroom'⟩ := hold
  have hlt := hsize i
  have hlt' := hsize j
  have hle := Slab.le_size_slabsClsid hok.1
  have hsmall := hsize (s.slab.slabsClsid (ntotal (s.items.nkey it).toNat (joinBytes s it old)))
  unfold joinBytes at hle hsmall ⊢
  rw [hnkey] at hroom hle hsmall
  by_cases hx : s.items.nbytes it + s.items.nbytes old - 2 < 2 ^ 31
  · exact toInt_of_bounds (by omega) hx
  · have hwrap : toInt (s.items.nbytes it + s.items.nbytes old - 2) =
        s.items.nbytes it + s.items.nbytes old - 2 - 2 ^ 32 := by
      unfold toInt Int.bmod
      norm_num
      omega
    have hbig : 2 ^ 31 ≤ ntotal (s.items.nkey old).toNat
      (toInt (s.items.nbytes it + s.items.nbytes old - 2)) := by
      unfold sizeofBaseItem at hroom hroom'
      rw [ntotal, hwrap, toInt_of_bounds (by unfold sizeofBaseItem; omega) (by unfold sizeofBaseItem; omega)]
      unfold toSizeT sizeofBaseItem
      omega
    omega

/-- The value of the joined item. -/
theorem value_joinItem {new : Ptr} (hne : new ≠ old) (hne' : new ≠ it) (append : Bool)
    (hge : 2 ≤ s.items.nbytes it) (hge' : 2 ≤ s.items.nbytes old)
    (hbytes : joinBytes s it old = s.items.nbytes it + s.items.nbytes old - 2) :
    (s.joinItem new it old append).items.value new =
      if append then (s.items.value old).take (s.items.nbytes old - 2).toNat ++ s.items.value it
      else (s.items.value it).take (s.items.nbytes it - 2).toNat ++ s.items.value old := by
  have hsplice : ∀ first second, (s.items.nbytes first - 2).toNat + (s.items.value second).length =
      (joinBytes s it old).toNat → ∀ d : ℕ → UInt8,
      bytesAt (memcpy (memcpy d ((s.items.nkey old).toNat + 1) (s.items.value first))
        ((s.items.nkey old).toNat + 1 + (s.items.nbytes first - 2).toNat) (s.items.value second))
        ((s.items.nkey old).toNat + 1) (joinBytes s it old).toNat =
      (s.items.value first).take (s.items.nbytes first - 2).toNat ++ s.items.value second := by
    intro first second hlen d
    rw [← hlen]
    refine bytesAt_splice _ _ _ _ ?_
    rw [Items.value, length_bytesAt]
    omega
  have hlength : ∀ p, (s.items.value p).length = (s.items.nbytes p).toNat := fun p => length_bytesAt _ _ _
  cases append with
  | true =>
    have hsum := hsplice old it (by rw [hlength]; omega)
    simp only [Items.value, Items.realDataAddr] at hsum
    simp only [Cache.joinItem, Items.value, Items.realDataAddr, Items.setNkey, Items.setFlag,
      Items.setExptime, Items.setNbytes, Items.setData, Function.update_self, Function.update_of_ne hne.symm,
      Function.update_of_ne hne'.symm, if_true, ← joinBytes.eq_1]
    exact hsum _
  | false =>
    have hsum := hsplice it old (by rw [hlength]; omega)
    simp only [Items.value, Items.realDataAddr] at hsum
    simp only [Cache.joinItem, Items.value, Items.realDataAddr, Items.setNkey, Items.setFlag,
      Items.setExptime, Items.setNbytes, Items.setData, Function.update_self, Function.update_of_ne hne.symm,
      Function.update_of_ne hne'.symm, Bool.false_eq_true, if_false, ← joinBytes.eq_1]
    exact hsum _

/-- What append and prepend leave: a new item stands under the key of the old one, with
its deadline, the two values, the line end of the first one cut off, and no flags of its own. -/
structure Spliced (s s' : Cache) (it old new : Ptr) (append : Bool) : Prop where
  found : new ∈ s'.found (s.items.key old)
  key : s'.items.key new = s.items.key old
  exptime : s'.items.exptime new = s.items.exptime old
  nkey : s'.items.nkey new = s.items.nkey old
  nbytes : s'.items.nbytes new = s.items.nbytes it + s.items.nbytes old - 2
  value : s'.items.value new =
    if append then (s.items.value old).take (s.items.nbytes old - 2).toNat ++ s.items.value it
    else (s.items.value it).take (s.items.nbytes it - 2).toNat ++ s.items.value old
  shown : s'.items.shown new = shownFlags 0
  keptIt : Kept s.items s'.items it
  keptOld : Kept s.items s'.items old

theorem Kept.value {m m' : Items} {p : Ptr} (h : Kept m m' p) : m'.value p = m.value p := by
  simp only [Items.value, Items.realDataAddr, h.data, h.nkey, h.nbytes]

theorem Kept.trans {m₁ m₂ m₃ : Items} {p : Ptr} (h : Kept m₁ m₂ p) (h' : Kept m₂ m₃ p) :
    Kept m₁ m₃ p :=
  ⟨h'.data.trans h.data, h'.nkey.trans h.nkey, h'.nbytes.trans h.nbytes, h'.exptime.trans h.exptime,
    h'.shown.trans h.shown⟩

/-- The header of a new item that has been filled from two. -/
theorem header_joinItem (s : Cache) (it old new : Ptr) (append : Bool) :
    ∃ m : Items, ((s.joinItem new it old append).incCas new).items = m ∧
      m.nkey new = s.items.nkey old ∧ m.exptime new = s.items.exptime old ∧
      m.nbytes new = joinBytes s it old ∧ m.shown new = shownFlags 0 := by
  obtain ⟨d, hform⟩ := Steps.joinItem_form s new it old append
  refine ⟨_, rfl, ?_⟩
  rw [hform]
  simp [Cache.incCas, Items.setCas, Items.shown]

/-- An append or a prepend that answers `STORED` has taken a new item, filled it from the
two others and put it in the place of the old one. -/
theorem storeJoin_stored {g : Shape} (h : Sound s g) (hold : old ∈ g.table) (hit : it ∈ g.inFlight)
    (hkey : s.items.key old = s.items.key it) (append : Bool) {s' : Cache} {c : Option UInt64}
    (heq : s.storeJoin it old append (HashTable.hash (s.items.key it)) = .ok (s', .STORED, c)) :
    s.slab.allocOk (s.items.nkey it).toNat (joinBytes s it old) ∧
    ∃ s₁ g₁ g' new,
      s.Grant g s₁ g₁ (ntotal (s.items.nkey it).toNat (joinBytes s it old))
        (s.slab.slabsClsid (ntotal (s.items.nkey it).toNat (joinBytes s it old))) new ∧
      Steps s₁ g₁ [.fill new 0, .bump new] ((s₁.joinItem new it old append).incCas new) g₁ ∧
      Steps ((s₁.joinItem new it old append).incCas new) g₁
        [.quiet, .unlink old, .quiet, .link new, .unref old, .unref new] s' g' ∧
      new ∈ g'.table := by
  have hE := (h.linked old hold).1
  unfold Cache.storeJoin at heq
  simp only [← joinBytes.eq_1] at heq
  split at heq
  · cases heq
  obtain ⟨hno, hyes⟩ := h.doItemAlloc_spec (s.items.nkey it).toNat (joinBytes s it old)
  by_cases hok : s.slab.allocOk (s.items.nkey it).toNat (joinBytes s it old)
  · obtain ⟨s₁, g₁, new, halloc, hg⟩ := hyes hok
    obtain ⟨hs₁, hnewE, hnewA, hev₁⟩ := h.grant hg
    have hnew₁ : new ∈ g₁.inFlight := by
      rw [hg.inFlight]
      exact .inl rfl
    have hold₁ : old ∈ g₁.table := by simpa only [Shape.table, hg.buckets] using hold
    have hkit : s₁.items.key it = s.items.key it := hev₁.key (.inr hit)
    obtain ⟨s₂, g₂, b, hrep, hfirst, hsteps⟩ := Steps.replaceJoined hs₁ hold₁ hnew₁
      (((hev₁.key (.inl hE)).trans hkey).trans hkit.symm) append
    rw [halloc, Result.ok_bind] at heq
    rw [hkit] at hrep
    simp only [hrep, Result.ok_bind, Result.pure_eq, Except.ok.injEq, Prod.mk.injEq] at heq
    obtain ⟨rfl, -, -⟩ := heq
    have hs₃ := Steps.sound hfirst hs₁
    have hs₂ := hsteps.sound hs₃
    have hnew₂ : new ∈ g₂.table :=
      @Steps.mem_table_of_link _ _ _ _ [.quiet, .unlink old, .quiet] [] new hsteps (by simp)
    have hE₁ : old ∈ s₁.everLinked := Cache.everLinked_mono hev₁.trace hE
    have hE₂ : old ∈ s₂.everLinked :=
      Steps.everLinked_mono hsteps hs₃ (Steps.everLinked_mono hfirst hs₁ hE₁)
    have hrem := Steps.doItemRemove hs₂ hE₂
    have hrem' := Steps.doItemRemove (hrem.sound hs₂) (hrem.everLinked_mono hs₂ (hs₂.linked new hnew₂).1)
    exact ⟨hok, s₁, g₁, g₂, new, hg, hfirst, hsteps.append (hrem.append hrem'), hnew₂⟩
  · obtain ⟨b, t, halloc, -⟩ := hno hok
    rw [halloc] at heq
    cases heq

/-- An append or a prepend that answers `STORED` has put a new item in the place of the
old one. -/
theorem storeJoin_spliced {g : Shape} (h : Sound s g) (hsized : Sized s g) (hold : old ∈ g.table)
    (hit : it ∈ g.inFlight) (hkey : s.items.key old = s.items.key it) (append : Bool) {s' : Cache}
    {c : Option UInt64}
    (heq : s.storeJoin it old append (HashTable.hash (s.items.key it)) = .ok (s', .STORED, c)) :
    ∃ new, new ∉ s.everLinked ∧ new ∉ g.inFlight ∧ Spliced s s' it old new append ∧ s'.Fits new := by
  obtain ⟨hok, s₁, g₁, g', new, hg, hfirst, hrest, htable⟩ :=
    storeJoin_stored h hold hit hkey append heq
  have hE := (h.linked old hold).1
  obtain ⟨hs₁, hnewE, hnewA, hev₁⟩ := h.grant hg
  have hnew₁ : new ∈ g₁.inFlight := by
    rw [hg.inFlight]
    exact .inl rfl
  have hs₃ := Steps.sound hfirst hs₁
  have hs' := hrest.sound hs₃
  have hall : Steps s₁ g₁ _ s' g' := hfirst.append hrest
  have hne : new ≠ old := fun e => hnewE (e ▸ hE)
  have hne' : new ≠ it := fun e => hnewA (e ▸ hit)
  have hin₁ : ∀ p, p ∈ s.everLinked ∨ p ∈ g.inFlight → p ∈ s₁.everLinked ∨ p ∈ g₁.inFlight :=
    fun p hin => hin.imp (fun hpE => Cache.everLinked_mono hev₁.trace hpE)
      fun hpA => by rw [hg.inFlight]; exact .inr hpA
  have hkept₁ : ∀ p, p ∈ s.everLinked ∨ p ∈ g.inFlight → Kept s.items s₁.items p := fun p hin =>
    (Prim.kept (.grant hg) h hin (by simp) (by simp)).1
  -- the old item and the one of the client are as they were
  have hkept : ∀ p, p ≠ new → p ∈ s.everLinked ∨ p ∈ g.inFlight → Kept s.items s'.items p :=
    fun p hp hin => (hkept₁ p hin).trans (hall.kept hs₁ (hin₁ p hin) (by simp [hp]) (by simp))
  have hkold := hkept₁ old (.inl hE)
  have hkit := hkept₁ it (.inr hit)
  have hfits := hsized.fits it (.inr hit)
  have hfits' := hsized.fits old (.inl hE)
  have hnkey : s.items.nkey it = s.items.nkey old := by
    have hlen := congrArg List.length hkey
    simp only [Items.key, length_bytesAt] at hlen
    exact UInt8.toNat_inj.mp hlen.symm
  have hbytes := joinBytes_eq hfits hfits' hsized.small hnkey hok
  have hsame : joinBytes s₁ it old = joinBytes s it old := by
    simp only [joinBytes, hkit.nbytes, hkold.nbytes]
  have hvalue := value_joinItem (s := s₁) hne hne' append (by rw [hkit.nbytes]; exact hfits.nbytes_ge)
    (by rw [hkold.nbytes]; exact hfits'.nbytes_ge) (by rw [hsame, hkit.nbytes, hkold.nbytes, hbytes])
  -- and so is the new one since it was filled in
  have hknew := hrest.kept hs₃ (p := new) (.inr hnew₁) (by simp) (by simp)
  obtain ⟨m, rfl, hmkey, hmtime, hmbytes, hmshown⟩ := header_joinItem s₁ it old new append
  have hnbytes : s'.items.nbytes new = s.items.nbytes it + s.items.nbytes old - 2 := by
    rw [hknew.nbytes, hmbytes, hsame, hbytes]
  have hnkey' : s'.items.nkey new = s.items.nkey old := by rw [hknew.nkey, hmkey, hkold.nkey]
  have hkey' : s'.items.key new = s.items.key old := by
    rw [hknew.key, ← hkold.key]
    exact Steps.key_joinItem s₁ it append hne.symm
  have hvalue' : s'.items.value new =
      if append then (s.items.value old).take (s.items.nbytes old - 2).toNat ++ s.items.value it
      else (s.items.value it).take (s.items.nbytes it - 2).toNat ++ s.items.value old := by
    rw [hknew.value]
    refine hvalue.trans ?_
    rw [hkit.value, hkold.value, hkit.nbytes, hkold.nbytes]
  have hge := hfits.nbytes_ge
  have hge' := hfits'.nbytes_ge
  have hspliced : Spliced s s' it old new append := {
    found := (hs'.mem_found_iff _ _).mpr ⟨htable, hkey'⟩
    key := hkey'
    exptime := by rw [hknew.exptime, hmtime, hkold.exptime]
    nkey := hnkey'
    nbytes := hnbytes
    value := hvalue'
    shown := hknew.shown.trans hmshown
    keptIt := hkept it hne'.symm (.inr hit)
    keptOld := hkept old hne.symm (.inl hE) }
  refine ⟨new, hnewE, hnewA, hspliced, by omega, ?_⟩
  have hpos : 0 ≤ joinBytes s it old := by omega
  have hroom := room_of_served hsized.small (s.items.nkey it).toNat_lt hpos (toInt_lt _) hok.1
  have hsize := (hall.evolves hs₁ (K := ∅) (by simp) (by simp)).sizes.size
  refine ⟨_, hall.chunks_subset _ hg.alloc.mem_chunks, ?_⟩
  rw [hsize, hev₁.sizes.size, hnkey', hnbytes, ← hnkey, ← hbytes]
  exact hroom

end Join

section Store

variable {s s' : Cache} {g g' : Shape} {it : Ptr} {cmd : Nread} {c : Option UInt64}

theorem GetActs.fresh {k : List UInt8} {acts : List Act} {r : Option Ptr} (h : GetActs s g k acts r) :
    ∀ a ∈ acts, a.fresh = none := by
  cases h <;> simp [Act.fresh]

theorem RemoveActs.fresh {k : List UInt8} {acts : List Act} {b : Bool} (h : RemoveActs s g k acts b) :
    ∀ a ∈ acts, a.fresh = none := by
  cases h with
  | miss acts hget => cases hget <;> simp [Act.fresh]
  | hit p => simp [Act.fresh]

/-- A path that hands out and rewrites no item. -/
theorem Sized.unfresh {acts : List Act} (h : Sized s g) (hs : Sound s g) (hsteps : Steps s g acts s' g')
    (hnone : ∀ a ∈ acts, a.fresh = none) : Sized s' g' :=
  h.steps hs hsteps fun p ⟨a, ha, hp⟩ _ => by
    rw [hnone a ha] at hp
    cases hp

/-- What `do_store_item` does when it answers `STORED` to append or prepend. -/
theorem doStoreItem_spliced (h : Sound s g) (hsized : Sized s g) (hit : it ∈ g.inFlight)
    (hcmd : cmd = .append ∨ cmd = .prepend)
    (heq : s.doStoreItem it cmd (HashTable.hash (s.items.key it)) = .ok (s', .STORED, c)) :
    ∃ old new, old ∈ g.table ∧ s.items.key old = s.items.key it ∧ new ∉ s.everLinked ∧
      new ∉ g.inFlight ∧ Spliced s s' it old new (decide (cmd = .append)) ∧ s'.Fits new := by
  obtain ⟨s₁, g₁, acts, r, hget, hsteps, hacts, -, hlive⟩ := Steps.doItemGet h (s.items.key it)
  unfold Cache.doStoreItem at heq
  rw [hget, Result.ok_bind] at heq
  cases r with
  | none =>
    rcases hcmd with rfl | rfl <;> cases heq
  | some old =>
    obtain ⟨rfl, rfl⟩ := hlive old rfl
    obtain ⟨hold, hkey⟩ : old ∈ g₁.table ∧ s.items.key old = s.items.key it := by
      cases hacts with
      | live _ hp hk hl => exact ⟨hp, hk⟩
    have hs₁ := hsteps.sound h
    have hjoin : (s.fetched old).storeJoin it old (decide (cmd = .append))
        (HashTable.hash ((s.fetched old).items.key it)) = .ok (s', .STORED, c) := by
      rcases hcmd with rfl | rfl
      · exact heq
      · exact heq
    obtain ⟨new, hE, hA, hspliced, hfits⟩ := storeJoin_spliced hs₁ (hsized.unfresh h hsteps hacts.fresh)
      hold hit hkey _ hjoin
    -- the lookup only counts a reference and sets a flag that is shown anyway
    have hfetched : ∀ p, Kept s.items (s.fetched old).items p := fun p =>
      ⟨rfl, rfl, rfl, rfl, s.shown_fetched old p⟩
    refine ⟨old, new, hold, hkey, hE, hA, ?_, hfits⟩
    exact ⟨hspliced.found, hspliced.key, hspliced.exptime, hspliced.nkey, hspliced.nbytes, hspliced.value,
      hspliced.shown, (hfetched it).trans hspliced.keptIt, (hfetched old).trans hspliced.keptOld⟩

theorem touchActs_fresh (s : Cache) (p : Ptr) : ∀ a ∈ touchActs s p, a.fresh = none := by
  unfold touchActs
  split_ifs <;> simp [Act.fresh]

/-- Of the storage commands only append and prepend hand out an item, which they link. -/
theorem StoreActs.fresh {acts : List Act} {stat : StoreStat} (h : StoreActs s g it cmd acts stat) {a : Act}
    {p : Ptr} (ha : a ∈ acts) (hp : a.fresh = some p) :
    (cmd = .append ∨ cmd = .prepend) ∧ stat = .STORED ∧ p ∉ g.inFlight ∧
      ∃ as bs, acts = as ++ .link p :: bs ∧ ∀ q, .unlink q ∉ bs := by
  have hno : (∀ b ∈ acts, b.fresh = none) → False := fun hnone => by
    rw [hnone a ha] at hp
    cases hp
  cases h with
  | joined old new acts hget hcmd hcas hok hnew =>
    obtain rfl : p = new := by
      simp only [List.mem_append, List.mem_cons, List.not_mem_nil, or_false] at ha
      rcases ha with ha | rfl | rfl | rfl | rfl | rfl | rfl | rfl | rfl | rfl | rfl
      · rw [hget.fresh a ha] at hp
        cases hp
      all_goals simp_all [Act.fresh]
    refine ⟨hcmd, rfl, hnew, acts ++ [.grant p (ntotal (s.items.nkey it).toNat (joinBytes s it old))
        (s.slab.slabsClsid (ntotal (s.items.nkey it).toNat (joinBytes s it old))),
      .fill p 0, .bump p, .quiet, .unlink old, .quiet], [.unref old, .unref p, .drop it], ?_, by simp⟩
    rw [List.append_assoc]
    rfl
  | taken old acts hget hcmd =>
    refine (hno ?_).elim
    exact List.forall_mem_append.mpr ⟨List.forall_mem_append.mpr ⟨hget.fresh, touchActs_fresh s old⟩,
      by simp [Act.fresh]⟩
  | noKey acts hget
  | stale old acts hget
  | full old acts hget =>
    exact (hno (List.forall_mem_append.mpr ⟨hget.fresh, by simp [Act.fresh]⟩)).elim
  | new acts hget
  | replaced old acts hget
  | swapped old acts hget =>
    refine (hno (List.forall_mem_append.mpr ⟨hget.fresh, ?_⟩)).elim
    unfold linkAct
    split_ifs <;> simp [Act.fresh]

/-- `store_item` when it answers `STORED` to append or prepend. -/
theorem storeItem_spliced (h : Sound s g) (hsized : Sized s g) (hit : it ∈ g.inFlight)
    (hcmd : cmd = .append ∨ cmd = .prepend) (heq : s.storeItem it cmd = .ok (s', .STORED, c)) :
    ∃ old new, old ∈ g.table ∧ s.items.key old = s.items.key it ∧ new ∉ s.everLinked ∧
      new ∉ g.inFlight ∧ Spliced s s' it old new (decide (cmd = .append)) ∧ s'.Fits new := by
  obtain ⟨⟨s₁, stat, c₁⟩, hstore, heq⟩ := Result.bind_eq_ok.mp heq
  cases heq
  obtain ⟨old, new, hold, hkey, hE, hA, hspliced, hfits⟩ :=
    doStoreItem_spliced (h.hashLock (HashTable.hash (s.items.key it)))
      (hsized.unfresh h (Steps.hashLock _) (by simp [Act.fresh])) hit hcmd hstore
  exact ⟨old, new, hold, hkey, hE, hA, ⟨hspliced.found, hspliced.key, hspliced.exptime, hspliced.nkey,
    hspliced.nbytes, hspliced.value, hspliced.shown, hspliced.keptIt, hspliced.keptOld⟩, hfits.nbytes_ge,
    hfits.room⟩

/-- The item that the key is bound to after a join is the spliced one. -/
theorem storeItem_joined (h : Sound s g) (hsized : Sized s g) (hit : it ∈ g.inFlight)
    (hcmd : cmd = .append ∨ cmd = .prepend) (heq : s.storeItem it cmd = .ok (s', .STORED, c)) {p : Ptr}
    (hp : p ∈ s'.found (s.items.key it)) :
    ∃ old ∈ g.table, s.items.key old = s.items.key it ∧ Spliced s s' it old p (decide (cmd = .append)) ∧
      s'.Fits p := by
  obtain ⟨old, new, hold, hkey, -, -, hspliced, hfits⟩ := storeItem_spliced h hsized hit hcmd heq
  have hnew : new ∈ s'.found (s.items.key it) := hkey ▸ hspliced.found
  obtain rfl : p = new := Option.some.inj (hp.symm.trans hnew)
  exact ⟨old, hold, hkey, hspliced, hfits⟩

theorem Sized.storeItem {acts : List Act} {stat : StoreStat} (hsized : Sized s g) (h : Sound s g)
    (hit : it ∈ g.inFlight) (heq : s.storeItem it cmd = .ok (s', stat, c))
    (hsteps : Steps s g (.quiet :: acts ++ [.quiet]) s' g') (hacts : StoreActs s g it cmd acts stat)
    (hlinked : ∀ p, .link p ∈ acts → s'.items.key p = s.items.key it) : Sized s' g' := by
  refine hsized.steps h hsteps fun p ⟨a, ha, hp⟩ _ => ?_
  have ha : a ∈ acts := by
    simp only [List.cons_append, List.mem_cons, List.mem_append, List.not_mem_nil, or_false] at ha
    rcases ha with rfl | ha | rfl
    · cases hp
    · exact ha
    · cases hp
  obtain ⟨hcmd, rfl, -, as, bs, rfl, hbs⟩ := hacts.fresh ha hp
  have hfound : p ∈ s'.found (s.items.key it) := by
    refine ((hsteps.sound h).mem_found_iff _ _).mpr ⟨?_, hlinked p (by simp)⟩
    have hlink : Steps s g ((.quiet :: as) ++ .link p :: (bs ++ [.quiet])) s' g' := by simpa using hsteps
    exact hlink.mem_table_of_link (by simp [hbs])
  obtain ⟨-, -, -, -, hfits⟩ := storeItem_joined h hsized hit hcmd heq hfound
  exact hfits

/-- The header of a new item. -/
theorem fits_of_filled {L : StoreLine} (id : ℕ) (hf : Filled s it L) (hchunk : it ∈ (s.slab.cls id).chunks)
    (hsize : (sizeofBaseItem : ℤ) + L.key.length + 1 + L.vlen ≤ (s.slab.cls id).size) : s.Fits it := by
  refine ⟨by rw [hf.nbytes]; exact L.vlen_ge, id, hchunk, ?_⟩
  rw [hf.nkey, hf.nbytes]
  exact hsize

/-- A storage line that gets an item. -/
theorem Sized.granted {L : StoreLine} (hsized : Sized s g) (h : Sound s g)
    (hok : s.slab.allocOk L.key.length L.vlen) (hfill : Filled s' it L)
    (hsteps : Steps s g [.grant it (ntotal L.key.length L.vlen)
      (s.slab.slabsClsid (ntotal L.key.length L.vlen)), .fill it L.flags.toUInt8] s' g') :
    Sized s' g' := by
  have hge := L.vlen_ge
  have hroom := room_of_served hsized.small (L.key_le.trans_lt (by decide)) (by omega) L.vlen_lt hok.1
  have hsize := (hsteps.evolves h (K := ∅) (by simp) (by simp)).sizes.size
  refine hsized.steps h hsteps fun p ⟨a, ha, hp⟩ _ => ?_
  obtain rfl : it = p := by
    simp only [List.mem_cons, List.not_mem_nil, or_false] at ha
    rcases ha with rfl | rfl <;> exact Option.some.inj hp
  refine fits_of_filled (s.slab.slabsClsid (ntotal L.key.length L.vlen)) hfill ?_ (by rw [hsize]; exact hroom)
  cases hsteps with
  | @cons _ m _ _ _ hgrant hrest =>
    cases hgrant with
    | grant hg => exact Steps.chunks_subset hrest _ hg.alloc.mem_chunks

/-- A storage line keeps the sizes in order. -/
theorem Sized.commandStore {L : StoreLine} {acts : List Act} {r : Option Ptr} (hsized : Sized s g)
    (h : Sound s g) (hsteps : Steps s g acts s' g') (hline : LineActs s g L acts r)
    (hfill : ∀ it, r = some it → Filled s' it L) : Sized s' g' := by
  cases hline with
  | granted it hok hE hnew => exact hsized.granted h hok (hfill it rfl) hsteps
  | refused hno hcmd => exact hsized.unfresh h hsteps (by simp [Act.fresh])
  | removed acts b hno hcmd hrem =>
    exact hsized.unfresh h hsteps (List.forall_mem_cons.mpr ⟨rfl, hrem.fresh⟩)

/-- The value of an item in flight has no bearing on the sizes. -/
theorem Sized.writeValue (hsized : Sized s g) (h : Sound s g) (hit : it ∈ g.inFlight) (bytes : List UInt8) :
    Sized (s.writeValue it bytes) g := by
  refine hsized.steps h (Steps.writeValue hit bytes) fun p ⟨a, ha, hp⟩ hin => ?_
  have hfits := hsized.fits p hin
  exact ⟨hfits.nbytes_ge, hfits.room⟩

end Store

end MiniMemcached
