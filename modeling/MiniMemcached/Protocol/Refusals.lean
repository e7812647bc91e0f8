import MiniMemcached.Cache.SizeClasses
import MiniMemcached.Protocol.Grammar

/-! Storage lines that are answered with an error. The size check, which sums in
`size_t`, and the allocator, which goes through an `int`, agree although their sums
differ from `2 ^ 31` on: both lie above the largest class. A refused line leaves the
cache as it was, but for a `set` that got no memory, which takes the key away. -/

namespace MiniMemcached

open Memory Runs

/-! ### The size check -/

/-- The sum of the lengths is in range, or out of reach for every class. -/
theorem itemSize_cases {nkey : ℕ} {nbytes : ℤ} (hkey : nkey ≤ KEY_MAX_LENGTH) (h0 : 0 ≤ nbytes)
    (h1 : nbytes < 2 ^ 31) : toSizeT (sizeofBaseItem + nkey + 1 + nbytes) = ntotal nkey nbytes ∨
      2 ^ 31 ≤ toSizeT (sizeofBaseItem + nkey + 1 + nbytes) ∧ 2 ^ 31 ≤ ntotal nkey nbytes := by
  unfold KEY_MAX_LENGTH at hkey
  unfold ntotal sizeofBaseItem
  by_cases hfit : (56 : ℕ) + (nkey : ℤ) + 1 + nbytes < 2 ^ 31
  · left
    rw [toInt_of_bounds (by omega) hfit]
  · right
    -- the `int` has wrapped, and its conversion to `size_t` extends the sign
    have hwrap : toInt ((56 : ℕ) + (nkey : ℤ) + 1 + nbytes) =
      (56 : ℕ) + (nkey : ℤ) + 1 + nbytes - 2 ^ 32 := by
      unfold toInt Int.bmod
      dsimp only
      split <;> omega
    rw [hwrap]
    unfold toSizeT
    omega

theorem cmd_of_parseStoreLine {tokens : List (List UInt8)} {cas : Bool} {L : StoreLine}
    (h : parseStoreLine tokens cas = some L) : L.cmd = nreadStatSet (tokens.getD 0 []) := by
  unfold parseStoreLine at h
  dsimp only at h
  split at h
  · split at h
    · rw [← Option.some.inj h]
    · cases h
  · cases h

/-- A line without memory queues its text, and what it does to the cache is the removal
of the key. -/
theorem World.refuseLine_form {w w' : World} {L : StoreLine} (h : w.refuseLine L = .ok w') :
    ∃ item, w' = (w.queued (if w.cache.itemSizeOk L.key.length L.vlen then
        bytes "SERVER_ERROR out of memory storing object"
        else bytes "SERVER_ERROR object too large for cache")).setItem w'.cache item ∧
      if L.cmd = .set then ∃ b, w.cache.removeKey L.key = .ok (w'.cache, b) else w'.cache = w.cache := by
  unfold World.refuseLine at h
  obtain ⟨w₁, hout, h⟩ := Result.bind_eq_ok.mp h
  obtain ⟨-, rfl⟩ := World.outString_eq_ok.mp hout
  split at h
  · rename_i hset
    rw [if_pos hset]
    obtain ⟨⟨s, o⟩, hget, h⟩ := Result.bind_eq_ok.mp h
    have hget : w.cache.itemGet L.key = .ok (s, o) := hget
    unfold Cache.removeKey
    rw [hget]
    cases o with
    | none =>
      cases h
      exact ⟨none, rfl, false, rfl⟩
    | some it =>
      obtain ⟨s', hunlink, h⟩ := Result.bind_eq_ok.mp h
      cases h
      refine ⟨some it, rfl, true, ?_⟩
      simp only [Result.ok_bind, hunlink, Result.pure_eq]
  · rename_i hset
    rw [if_neg hset]
    cases h
    exact ⟨none, rfl, rfl⟩

/-- The text that fits the reason of the refusal. -/
def refusalText (s : Cache) (L : StoreLine) : List UInt8 :=
  if s.slab.slabsClsid (ntotal L.key.length L.vlen) = 0 then
    bytes "SERVER_ERROR object too large for cache"
  else bytes "SERVER_ERROR out of memory storing object"

/-- What is to hold of the size check for these lengths. -/
structure SizeCheckAgrees (s : Cache) (nkey : ℕ) (nbytes : ℤ) : Prop where
  rejects : s.itemSizeOk nkey nbytes = false ↔ s.slab.slabsClsid (ntotal nkey nbytes) = 0
  none : s.itemSizeOk nkey nbytes = false → s.doItemAlloc nkey nbytes = .ok (s, none)
  sameClass : s.itemSizeOk nkey nbytes = true →
    s.slab.slabsClsid (toSizeT (sizeofBaseItem + nkey + 1 + nbytes)) = s.slab.slabsClsid (ntotal nkey nbytes)
  itemTotal : s.itemSizeOk nkey nbytes = true → ∀ (m : Items) (it : Ptr), m.nkey it = UInt8.ofNat nkey →
    m.nbytes it = nbytes → s.slab.slabsClsid (m.itemTotal it) = s.slab.slabsClsid (ntotal nkey nbytes)
  text : ∀ (w w' : World) (L : StoreLine), w.cache = s → L.key.length = nkey → L.vlen = nbytes →
    w.refuseLine L = .ok w' → ∃ s' item, w' = (w.queued (refusalText s L)).setItem s' item

/-- For every class table the size check and the allocator agree. -/
theorem sizeCheck_agrees (limit : ℕ) (set : Settings) (mallocOk : ℕ → Bool) (s : Cache)
    (htable : (Slab.build limit set mallocOk).SameTable s.slab) (nkey : ℕ) (hkey : nkey ≤ KEY_MAX_LENGTH)
    (nbytes : ℤ) (h0 : 0 ≤ nbytes) (h1 : nbytes < 2 ^ 31) : SizeCheckAgrees s nkey nbytes := by
  have hlarge : ∀ size, 2 ^ 31 ≤ size → s.slab.slabsClsid size = 0 := by
    intro size hsize
    by_contra hne
    have hle := Slab.le_size_slabsClsid hne
    have hlt := Slab.build_size_lt limit set mallocOk (s.slab.slabsClsid size)
    rw [← htable.size] at hlt
    omega
  have hclass : s.slab.slabsClsid (toSizeT (sizeofBaseItem + nkey + 1 + nbytes)) =
      s.slab.slabsClsid (ntotal nkey nbytes) := by
    rcases itemSize_cases hkey h0 h1 with heq | ⟨hge, hge'⟩
    · rw [heq]
    · rw [hlarge _ hge, hlarge _ hge']
  have hrejects : s.itemSizeOk nkey nbytes = false ↔ s.slab.slabsClsid (ntotal nkey nbytes) = 0 := by
    unfold Cache.itemSizeOk
    rw [hclass]
    simp
  refine ⟨hrejects, fun hfalse => ?_, fun _ => hclass, fun _ m it hm hn => ?_, fun w w' L hw hk hv h => ?_⟩
  · have hzero := hrejects.mp hfalse
    unfold ntotal at hzero
    unfold Cache.doItemAlloc
    simp only [hzero, if_true, Result.pure_eq]
  · have hlen : (m.nkey it).toNat = nkey := by
      unfold KEY_MAX_LENGTH at hkey
      rw [hm]
      simp
      omega
    rw [← hclass, Items.itemTotal, hlen, hn]
  · subst hw hk hv
    have htext : (if w.cache.itemSizeOk L.key.length L.vlen
        then bytes "SERVER_ERROR out of memory storing object"
        else bytes "SERVER_ERROR object too large for cache") = refusalText w.cache L := by
      unfold refusalText
      by_cases hok : w.cache.itemSizeOk L.key.length L.vlen = true
      · rw [if_pos hok, if_neg fun hz => by rw [hrejects.mpr hz] at hok; cases hok]
      · rw [if_neg hok, if_pos (hrejects.mp (Bool.eq_false_iff.mpr hok))]
    obtain ⟨item, hw', -⟩ := World.refuseLine_form h
    rw [htext] at hw'
    exact ⟨_, _, hw'⟩

theorem sizeCheck_agrees_wrapped : ∃ s, Cache.init 1 Service.smallSettings (fun _ => true) 0 = some s ∧
    SizeCheckAgrees s 1 (2 ^ 31 - 1) := by
  obtain ⟨s, hinit⟩ := Serving.init_small
  obtain ⟨F, -, -, -, htable⟩ := Sound.init hinit
  exact ⟨s, hinit, sizeCheck_agrees _ _ _ s htable 1 (by decide) (2 ^ 31 - 1) (by decide) (by decide)⟩

/-! ### What a refused line does to the cache -/

/-- The items, the table and the lists are the same, and no chunk was taken. -/
structure Cache.Unharmed (s s' : Cache) : Prop where
  items : s'.items = s.items
  hashtable : s'.hashtable = s.hashtable
  lru : s'.lru = s.lru
  slab : NothingCarved s.slab s'.slab

theorem Cache.Unharmed.refl (s : Cache) : s.Unharmed s := ⟨rfl, rfl, rfl, .refl _⟩

namespace World

variable {w w' : World} {tokens : List (List UInt8)} {cas : Bool} {g : Shape}

/-- An error for the format, or for a command that is no `set`, leaves the cache as it was. -/
theorem unharmed_of_refused (h : Sound w.cache g) (heq : w.commandFiveSixPara tokens cas = .ok w')
    (herr : w'.conn.state = .connWrite)
    (hno : parseStoreLine tokens cas = none ∨ nreadStatSet (tokens.getD 0 []) ≠ .set) :
    w.cache.Unharmed w'.cache := by
  cases hparse : parseStoreLine tokens cas with
  | none =>
    rw [commandFiveSixPara_bad hparse] at heq
    obtain ⟨-, rfl⟩ := outString_eq_ok.mp heq
    exact .refl _
  | some L =>
    have hset : L.cmd ≠ .set := by
      rw [cmd_of_parseStoreLine hparse]
      exact hno.resolve_left (by simp [hparse])
    rcases Steps.allocLine h L with ⟨-, b, t, halloc, hb, -⟩ | ⟨-, s, g', it, halloc, -⟩
    · rw [commandFiveSixPara_refused hparse halloc] at heq
      obtain ⟨item, -, hcache⟩ := refuseLine_form heq
      rw [if_neg hset] at hcache
      rw [hcache]
      exact ⟨rfl, rfl, rfl, hb⟩
    · rw [commandFiveSixPara_accepted hparse halloc] at heq
      cases heq
      cases herr

/-- After a `set` without memory no lookup finds the key. -/
theorem found_none_of_refused (h : Sound w.cache g) (heq : w.commandFiveSixPara tokens cas = .ok w')
    (herr : w'.conn.state = .connWrite) {L : StoreLine} (hparse : parseStoreLine tokens cas = some L)
    (hset : L.cmd = .set) : w'.cache.found L.key = none := by
  rcases Steps.allocLine h L with ⟨-, b, t, halloc, hb, hl, -⟩ | ⟨-, s, g', it, halloc, -⟩
  · rw [commandFiveSixPara_refused hparse halloc] at heq
    obtain ⟨item, -, hcache⟩ := refuseLine_form heq
    rw [if_pos hset] at hcache
    obtain ⟨b', hrem⟩ := hcache
    have hs := h.refused hb hl
    obtain ⟨s', g', acts, b'', hrem', hsteps, -, habs⟩ := Steps.removeKey hs L.key
    cases hrem'.symm.trans hrem
    exact ((hsteps.sound hs).found_none_iff _).mpr habs
  · rw [commandFiveSixPara_accepted hparse halloc] at heq
    cases heq
    cases herr

/-- In every state that is reached, a storage line that is answered with an error leaves
the cache as it was, or has taken the key away. -/
theorem erroneousLine_clean (w w' : World) (hreached : w.cache.Reached) (tokens : List (List UInt8))
    (cas : Bool)
    (heq : w.commandFiveSixPara tokens cas = .ok w') (herr : w'.conn.state = .connWrite) :
    (parseStoreLine tokens cas = none ∨ nreadStatSet (tokens.getD 0 []) ≠ .set → w.cache.Unharmed w'.cache) ∧
      ∀ L, parseStoreLine tokens cas = some L → L.cmd = .set → w'.cache.found L.key = none := by
  obtain ⟨g, h, -⟩ := hreached.sound
  exact ⟨unharmed_of_refused h heq herr, fun L => found_none_of_refused h heq herr⟩

/-- A `set` of the key `a` with more bytes than a page holds. -/
def largeSet : List (List UInt8) := [bytes "set", [97], bytes "0", bytes "0", bytes "9000"]

/-- The old value of the key is not there any more when a `set` was too large. -/
theorem erroneousLine_clean_large : ∃ s st w' p,
    Cache.init 1 Service.smallSettings (fun _ => true) 0 = some s ∧
    run Service.step (Service.start s)
      (Service.storing 1 0 (shortLine .set 97 0 0 0) Service.set_ne_error) = .ok st ∧
    st.cache.found [97] = some p ∧
    (Serving.fresh { st.cache with clock := 1 }).commandFiveSixPara largeSet false = .ok w' ∧
    w'.cache.found [97] = none := by
  have htrial : (Service.trial 1 0
      (Service.storing 1 0 (shortLine .set 97 0 0 0) Service.set_ne_error)).any (fun st =>
        (st.cache.found [97]).isSome &&
        (parseStoreLine largeSet false).any (fun L => decide (L.cmd = .set ∧ L.key = [97])) &&
        ((Serving.fresh { st.cache with clock := 1 }).commandFiveSixPara largeSet
          false).toOption.any fun w' => decide (w'.conn.state = .connWrite)) = true := by decide +kernel
  obtain ⟨s, st, hinit, hrun, hp⟩ := Service.exists_of_trial htrial
  simp only [Bool.and_eq_true] at hp
  obtain ⟨⟨hsome, hparse⟩, hret⟩ := hp
  obtain ⟨p, hfound⟩ := Option.isSome_iff_exists.mp hsome
  obtain ⟨L, hL, hline⟩ := (Option.any_eq_true _ _).mp hparse
  obtain ⟨hset, hkey⟩ := of_decide_eq_true hline
  cases heq : (Serving.fresh { st.cache with clock := 1 }).commandFiveSixPara largeSet false with
  | error e => simp [heq, Except.toOption] at hret
  | ok w' =>
    have herr : w'.conn.state = .connWrite := by simpa [heq, Except.toOption] using hret
    obtain ⟨-, hgone⟩ := erroneousLine_clean _ w' (.requests hinit _ st hrun 1 rfl) largeSet false heq herr
    exact ⟨s, st, w', p, hinit, hrun, hfound, heq, hkey ▸ hgone L hL hset⟩

end World

end MiniMemcached
