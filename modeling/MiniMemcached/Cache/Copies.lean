import MiniMemcached.Cache.Extents

/-! The ranges that the storage commands write in an item. `data` starts behind the
fields of the header, five bytes before the size that the header counts for, so that
the class that was chosen for key, separator and value has room for all of them. -/

namespace MiniMemcached

open Runs

/-- The offset of `data` in an item. -/
def dataOffset : ℕ := 51

/-- The chunk of an item is one of a class, and `len` bytes of `data` from an offset on
lie inside of it. -/
def Cache.InClass (s : Cache) (id : ℕ) (p : Ptr) (off len : ℤ) : Prop :=
  p ∈ (s.slab.cls id).chunks ∧ 0 ≤ off ∧ 0 ≤ len ∧ dataOffset + off + len ≤ (s.slab.cls id).size

/-- The copies into an item that joins two others: the key, the separator, and the two
values, the second one over the line end of the first. -/
structure Cache.JoinsInside (s : Cache) (id : ℕ) (new it old : Ptr) (append : Bool) : Prop where
  key : s.InClass id new 0 (s.items.nkey old).toNat
  separator : s.InClass id new (s.items.nkey old).toNat 1
  first : s.InClass id new ((s.items.nkey old).toNat + 1) (s.items.nbytes (if append then old else it))
  second : s.InClass id new ((s.items.nkey old).toNat + 1 + (s.items.nbytes (if append then old else it) - 2))
    (s.items.nbytes (if append then it else old))
  ge : 2 ≤ s.items.nbytes (if append then old else it)

section Allocating

variable {s s' : Cache} {g : Shape} {it old new : Ptr}

/-- The item that `do_item_alloc` hands out is a chunk of the class that was chosen, which has
room for what was asked for. -/
theorem inClass_of_alloc (h : Sound s g) (hsmall : ∀ id, (s.slab.cls id).size < 2 ^ 31) {nkey : ℕ}
    {nbytes : ℤ}
    (hn : nkey < 2 ^ 8) (h0 : 0 ≤ nbytes) (h1 : nbytes < 2 ^ 31)
    (halloc : s.doItemAlloc nkey nbytes = .ok (s', some new)) {off len : ℤ} (hoff : 0 ≤ off) (hlen : 0 ≤ len)
    (hle : off + len ≤ nkey + 1 + nbytes) :
    s'.InClass (s.slab.slabsClsid (ntotal nkey nbytes)) new off len := by
  obtain ⟨hno, hyes⟩ := h.doItemAlloc_spec nkey nbytes
  by_cases hok : s.slab.allocOk nkey nbytes
  · obtain ⟨s₁, g₁, it, heq, hg⟩ := hyes hok
    cases heq.symm.trans halloc
    have hroom := room_of_served hsmall hn h0 h1 hok.1
    refine ⟨hg.alloc.mem_chunks, hoff, hlen, ?_⟩
    rw [(h.grant hg).2.2.2.sizes.size]
    unfold sizeofBaseItem at hroom
    unfold dataOffset
    omega
  · obtain ⟨b, t, heq, -⟩ := hno hok
    cases heq.symm.trans halloc

/-- The key of a storage line stays inside the chunk of its item. -/
theorem key_inClass (h : Sound s g) (hsized : Sized s g) (L : StoreLine)
    (halloc : s.doItemAlloc L.key.length L.vlen = .ok (s', some new)) :
    s'.InClass (s.slab.slabsClsid (ntotal L.key.length L.vlen)) new 0 L.key.length := by
  have hge := L.vlen_ge
  exact inClass_of_alloc h hsized.small (L.key_le.trans_lt (by decide)) (by omega) L.vlen_lt halloc le_rfl
    (by omega) (by omega)

/-- So do the separator and the value of any item in use. -/
theorem Cache.Fits.inClass (h : s.Fits it) :
    ∃ id, s.InClass id it (s.items.nkey it).toNat 1 ∧
      s.InClass id it ((s.items.nkey it).toNat + 1) (s.items.nbytes it) := by
  obtain ⟨hge, id, hid, hroom⟩ := h
  unfold sizeofBaseItem at hroom
  refine ⟨id, ⟨hid, by omega, by omega, ?_⟩, hid, by omega, by omega, ?_⟩
  · unfold dataOffset
    omega
  · unfold dataOffset
    omega

/-- And so do the copies of an append or a prepend that gets its memory. -/
theorem joinsInside_of_alloc (h : Sound s g) (hsized : Sized s g) (hit : it ∈ g.inFlight)
    (hold : old ∈ g.table)
    (hkey : s.items.key old = s.items.key it)
    (halloc : s.doItemAlloc (s.items.nkey it).toNat (joinBytes s it old) = .ok (s', some new))
    (append : Bool) :
    s'.JoinsInside (s.slab.slabsClsid (ntotal (s.items.nkey it).toNat (joinBytes s it old)))
      new it old append := by
  have hE := (h.linked old hold).1
  obtain ⟨hno, hyes⟩ := h.doItemAlloc_spec (s.items.nkey it).toNat (joinBytes s it old)
  by_cases hok : s.slab.allocOk (s.items.nkey it).toNat (joinBytes s it old)
  · obtain ⟨s₁, g₁, q, heq, hg⟩ := hyes hok
    cases heq.symm.trans halloc
    have hev := (h.grant hg).2.2.2
    have hfits := hsized.fits it (.inr hit)
    have hfits' := hsized.fits old (.inl hE)
    have hnkey : s.items.nkey it = s.items.nkey old := by
      have hlen := congrArg List.length hkey
      simp only [Items.key, length_bytesAt] at hlen
      exact UInt8.toNat_inj.mp hlen.symm
    have hbytes := joinBytes_eq hfits hfits' hsized.small hnkey hok
    have hge := hfits.nbytes_ge
    have hge' := hfits'.nbytes_ge
    have hpos : 0 ≤ joinBytes s it old := by omega
    have hin : ∀ off len : ℤ, 0 ≤ off → 0 ≤ len →
      off + len ≤ (s.items.nkey it).toNat + 1 + joinBytes s it old →
        s'.InClass (s.slab.slabsClsid (ntotal (s.items.nkey it).toNat (joinBytes s it old))) new off len :=
      fun off len => inClass_of_alloc h hsized.small (s.items.nkey it).toNat_lt hpos (toInt_lt _) halloc
    rw [hbytes, hnkey] at hin
    have hkit : s'.items.nbytes it = s.items.nbytes it := hev.nbytes it (.inr hit)
    have hkold : s'.items.nbytes old = s.items.nbytes old := hev.nbytes old (.inl hE)
    have hkn : s'.items.nkey old = s.items.nkey old := hev.nkey old (.inl hE)
    rw [hbytes, hnkey]
    cases append
    all_goals
      constructor
      all_goals simp only [hkn, hkit, hkold, if_true, Bool.false_eq_true, if_false]
    case false.ge => exact hge
    case true.ge => exact hge'
    all_goals
      apply hin
      all_goals omega
  · obtain ⟨b, t, heq, -⟩ := hno hok
    cases heq.symm.trans halloc

end Allocating

end MiniMemcached
