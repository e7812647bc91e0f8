import MiniMemcached.Cache.Extents
import MiniMemcached.Service.Outcomes

/-! Append and prepend in service. In every state that a run reaches the items fit into
their chunks, so that a joined item has room for both values, and `do_store_item`
puts an item with the concatenation in the place of the old one. -/

namespace MiniMemcached

open Runs

namespace Service

variable {st st' : Service} {g g' : Shape} {a : Action} {acts : List Act}

/-- A data block is stored or refused. -/
theorem commandBlock_of_step (hstep : st.step a = .ok st') {P : Pending} {bytes : List UInt8}
    (hreq : a.req = .block bytes) (hP : st.pending a.conn = some P)
    (hlen : (bytes.length : ℤ) = P.line.vlen) {stat : StoreStat} (hreply : st'.reply = .stored stat) :
    ∃ c, (st.at_ a).commandBlock P.it P.line.cmd bytes = .ok (st'.cache, stat, c) := by
  unfold step at hstep
  simp only [hreq, hP, if_pos hlen] at hstep
  obtain ⟨⟨s', stat', c⟩, hr, hstep⟩ := Result.bind_eq_ok.mp hstep
  cases hstep
  cases hreply
  exact ⟨c, hr⟩

/-- A data block keeps the sizes in order. -/
theorem sized_block (h : Inv st g) (hsized : Sized st.cache g) (hstep : st.step a = .ok st')
    {P : Pending} {bytes : List UInt8} (hreq : a.req = .block bytes) (hP : st.pending a.conn = some P)
    (hlen : (bytes.length : ℤ) = P.line.vlen) (hinv : Inv st' g')
    (hsteps : Steps (st.at_ a) g (.fill P.it (st.cache.items.itemFlag P.it) :: .quiet :: acts ++ [.quiet])
      st'.cache g') {stat : StoreStat} (hstore : StoreActs (st.at_ a) g P.it P.line.cmd acts stat)
    (hlinked : ∀ p, .link p ∈ acts → st'.cache.items.key p = P.line.key)
    (hkept : .link P.it ∈ acts → Kept ((st.at_ a).writeValue P.it bytes).items st'.cache.items P.it)
    (hreply : st'.reply = .stored stat) : Sized st'.cache g' := by
  have hs : Sound (st.at_ a) g := h.sound.setClock a.now
  have hsized' := hsized.setClock a.now
  have hit : P.it ∈ g.inFlight := (h.flight _).mpr ⟨a.conn, P, hP, rfl⟩
  have hfits := hsized'.fits P.it (.inr hit)
  obtain ⟨c, hblock⟩ := commandBlock_of_step hstep hreq hP hlen hreply
  refine hsized'.steps hs hsteps fun p ⟨b, hb, hp⟩ hin => ?_
  have hcases : p = P.it ∨ b ∈ acts := by
    simp only [List.cons_append, List.mem_cons, List.mem_append, List.not_mem_nil, or_false] at hb
    rcases hb with rfl | rfl | hb | rfl
    · exact .inl (Option.some.inj hp).symm
    · cases hp
    · exact .inr hb
    · cases hp
  rcases hcases with rfl | hb
  · -- the item of the client is only seen again when it is linked
    have hlink : .link P.it ∈ acts := by
      rcases hin with hin | hin
      · have hl := (hsteps.link_of_everLinked hin).resolve_left (hs.unlinked _ hit)
        simpa using hl
      · rw [hsteps.flight] at hin
        simp only [List.cons_append, List.foldl_cons, List.foldl_append, List.foldl_nil, Act.flight,
          hstore.flight] at hin
        exact absurd rfl hin.2
    have hk := hkept hlink
    exact hfits.congr hk.nkey hk.nbytes hsteps.chunks_subset
      (hsteps.evolves hs (K := ∅) (by simp) (by simp)).sizes.size
  · obtain ⟨hcmd, rfl, -, as, bs, rfl, hbs⟩ := hstore.fresh hb hp
    have hwrite := (Steps.writeValue (s := st.at_ a) hit bytes).sound hs
    have hkey : ((st.at_ a).writeValue P.it bytes).items.key P.it = P.line.key := by
      rw [key_writeValue]
      exact (h.filled _ P hP).key
    have hfound : p ∈ st'.cache.found (((st.at_ a).writeValue P.it bytes).items.key P.it) := by
      rw [hkey]
      refine (hinv.sound.mem_found_iff _ _).mpr ⟨?_, hlinked p (by simp)⟩
      have hlink : Steps (st.at_ a) g ((.fill P.it (st.cache.items.itemFlag P.it) :: .quiet :: as) ++
          .link p :: (bs ++ [.quiet])) st'.cache g' := by simpa using hsteps
      exact hlink.mem_table_of_link (by simp [hbs])
    obtain ⟨-, -, -, -, hnew⟩ := storeItem_joined hwrite
      (hsized'.writeValue hs hit bytes) hit hcmd hblock hfound
    exact hnew

theorem StepActs.sized (h : Inv st g) (hsized : Sized st.cache g) (hstep : st.step a = .ok st')
    (hinv : Inv st' g') (hsteps : Steps (st.at_ a) g acts st'.cache g') (hacts : StepActs st g a acts st') :
    Sized st'.cache g' := by
  have hs : Sound (st.at_ a) g := h.sound.setClock a.now
  have hsized' := hsized.setClock a.now
  cases hacts with
  | ignored hno hst => exact hsized'.unfresh hs hsteps (by simp)
  | longKey k hreq hk hst => exact hsized'.unfresh hs hsteps (by simp)
  | get k hreq hfree hlen acts r hget =>
    exact hsized'.unfresh hs hsteps (by simpa [or_imp, forall_and, Act.fresh] using hget.fresh)
  | delete k hreq hfree acts b hrem => exact hsized'.unfresh hs hsteps hrem.fresh
  | accepted L hcmd hreq hfree it acts hline hpend =>
    refine hsized'.commandStore hs hsteps hline fun _ hit => ?_
    cases hit
    exact hinv.filled a.conn ⟨it, L⟩ (by rw [hpend, Function.update_self])
  | refused L hcmd hreq hfree acts hline =>
    refine hsized'.commandStore hs hsteps hline fun _ hit => ?_
    cases hit
  | block P bytes hreq hP hlen acts stat hstore hlinked hkept hpend hreply =>
    exact sized_block h hsized hstep hreq hP hlen hinv hsteps hstore hlinked hkept hreply

/-- One action keeps the sizes in order. -/
theorem sized_step (h : ∃ g, Inv st g ∧ Sized st.cache g) (hstep : st.step a = .ok st') :
    ∃ g, Inv st' g ∧ Sized st'.cache g := by
  obtain ⟨g, h, hsized⟩ := h
  rcases step_spec h a with ⟨herr, -⟩ | ⟨st'', g', acts, hok, hinv, hsteps, hacts⟩
  · rw [herr] at hstep
    cases hstep
  · obtain rfl : st'' = st' := Except.ok.inj (hok.symm.trans hstep)
    exact ⟨g', hinv, hacts.sized h hsized hstep hinv hsteps⟩

theorem sized_start {limit : ℕ} {set : Settings} {mallocOk : ℕ → Bool} {hashpower : ℕ} {s : Cache}
    (hinit : Cache.init limit set mallocOk hashpower = some s) :
    ∃ g, Inv (start s) g ∧ Sized (start s).cache g := by
  obtain ⟨F, hs, -, htrace, htable⟩ := Sound.init hinit
  refine ⟨_, start_inv_fresh hs, fun p hp => ?_, fun id => ?_⟩
  · rcases hp with ⟨id, hid⟩ | hp
    · simp [start, Cache.links, htrace, Event.links] at hid
    · exact absurd hp (Set.notMem_empty p)
  · show (s.slab.cls id).size < 2 ^ 31
    rw [htable.size]
    exact Slab.build_size_lt limit set mallocOk id

/-- The sizes are in order in every state that a run reaches. -/
theorem sized_of_run {limit : ℕ} {set : Settings} {mallocOk : ℕ → Bool} {hashpower : ℕ} {s : Cache}
    (hinit : Cache.init limit set mallocOk hashpower = some s) {as : List Action}
    (hrun : run step (start s) as = .ok st) : ∃ g, Inv st g ∧ Sized st.cache g :=
  invariant_run (I := fun st => ∃ g, Inv st g ∧ Sized st.cache g) (fun _ _ _ hI hstep => sized_step hI hstep)
    (sized_start hinit) hrun

/-- A value without its line end. -/
theorem take_value {m : Items} {p : Ptr} {x : List UInt8} (h : m.value p = x ++ [13, 10]) :
    (x ++ [13, 10]).take (m.nbytes p - 2).toNat = x := by
  have hlen := congrArg List.length h
  simp only [Items.value, length_bytesAt, List.length_append, List.length_cons, List.length_nil] at hlen
  exact List.take_left' (by omega)

/-- The cache at the call of `do_store_item` for the item of a client whose block is there. -/
def atStore (st : Service) (a : Action) (P : Pending) (bytes : List UInt8) : Cache :=
  ((st.at_ a).writeValue P.it bytes).hashLock (HashTable.hash P.line.key)

/-- An append or a prepend that answers `STORED` binds the key to a new item, with the
deadline of the old one and both values before one line end. -/
theorem splice_exact {limit : ℕ} {set : Settings} {mallocOk : ℕ → Bool} {hashpower : ℕ} {s₀ : Cache}
    (hinit : Cache.init limit set mallocOk hashpower = some s₀) {as : List Action}
    (hrun : run step (start s₀) as = .ok st) {P : Pending} (hP : st.pending a.conn = some P)
    (bytes : List UInt8) {cmd : Nread} (hcmd : cmd = .append ∨ cmd = .prepend) {old : Ptr}
    (hold : old ∈ st.cache.found P.line.key) {x y : List UInt8}
    (hx : (st.atStore a P bytes).items.value old = x ++ [13, 10])
    (hy : (st.atStore a P bytes).items.value P.it = y ++ [13, 10]) {s' : Cache} {c : Option UInt64}
    (hstored : (st.atStore a P bytes).doStoreItem P.it cmd (HashTable.hash P.line.key) =
      .ok (s', .STORED, c)) :
    ∃ new, new ∉ st.cache.everLinked ∧ (∀ d Q, st.pending d = some Q → Q.it ≠ new) ∧
      s'.found P.line.key = some new ∧ s'.items.key new = st.cache.items.key old ∧
      s'.items.exptime new = st.cache.items.exptime old ∧
      s'.items.nbytes new = st.cache.items.nbytes old + st.cache.items.nbytes P.it - 2 ∧
      s'.items.value new = (if cmd = .append then x ++ y else y ++ x) ++ [13, 10] ∧
      s'.items.value P.it = y ++ [13, 10] ∧ s'.items.value old = x ++ [13, 10] := by
  obtain ⟨g, h, hsized⟩ := sized_of_run hinit hrun
  have hs : Sound (st.at_ a) g := h.sound.setClock a.now
  have hit : P.it ∈ g.inFlight := (h.flight _).mpr ⟨a.conn, P, hP, rfl⟩
  have hwrite := (Steps.writeValue (s := st.at_ a) hit bytes).sound hs
  have hlock := Steps.hashLock (s := (st.at_ a).writeValue P.it bytes) (g := g) (HashTable.hash P.line.key)
  have hs₁ : Sound (st.atStore a P bytes) g := hlock.sound hwrite
  have hsized₁ : Sized (st.atStore a P bytes) g :=
    ((hsized.setClock a.now).writeValue hs hit bytes).unfresh hwrite hlock (by simp [Act.fresh])
  have hkey : (st.atStore a P bytes).items.key P.it = P.line.key :=
    (key_writeValue _ _ _ _).trans (h.filled _ P hP).key
  rw [← hkey] at hstored
  obtain ⟨old', new, hold', hkey', hE, hA, hspliced, -⟩ := doStoreItem_spliced hs₁ hsized₁ hit hcmd hstored
  obtain ⟨holdT, holdk⟩ := (h.sound.mem_found_iff _ _).mp hold
  have hkold : (st.atStore a P bytes).items.key old = P.line.key := (key_writeValue _ _ _ _).trans holdk
  obtain rfl : old' = old := by
    have hfound := (hs₁.mem_found_iff P.line.key old').mpr ⟨hold', hkey'.trans hkey⟩
    have hfound' := (hs₁.mem_found_iff P.line.key old).mpr ⟨holdT, hkold⟩
    exact Option.some.inj (hfound.symm.trans hfound')
  have hvalue := hspliced.value
  rw [hx, hy, take_value hx, take_value hy] at hvalue
  refine ⟨new, hE, fun d Q hQ e => hA (e ▸ (h.flight _).mpr ⟨d, Q, hQ, rfl⟩), ?_, ?_,
    hspliced.exptime, ?_, ?_,
    hspliced.keptIt.value.trans hy, hspliced.keptOld.value.trans hx⟩
  · rw [← hkold]
    exact hspliced.found
  · exact hspliced.key.trans (hkold.trans holdk.symm)
  · rw [hspliced.nbytes, add_comm]
    rfl
  · rw [hvalue]
    rcases hcmd with rfl | rfl <;> simp

/-- A key is set, and an `append` with the id of its item waits for its block. -/
def appendWithId : List Action :=
  storing 1 0 (shortLine .set 97 0 0 0) set_ne_error ++
    [⟨1, 0, .store (shortLine .append 97 0 0 1) (by simp [shortLine])⟩]

theorem splice_exact_appendWithId : ∃ s₀ st P old s' c new,
    Cache.init 0 smallSettings (fun _ => true) 0 = some s₀ ∧ run step (start s₀) appendWithId = .ok st ∧
    st.pending 0 = some P ∧ old ∈ st.cache.found P.line.key ∧
    (st.atStore shortBlock P [121, 13, 10]).doStoreItem P.it .append (HashTable.hash P.line.key) =
      .ok (s', .STORED, c) ∧
    s'.found P.line.key = some new ∧ s'.items.value new = [120] ++ [121] ++ [13, 10] := by
  have htrial : (trial 0 0 appendWithId).any (fun st => (st.pending 0).any fun P =>
      (st.cache.found P.line.key).any fun old =>
        decide ((st.atStore shortBlock P [121, 13, 10]).items.value old = [120] ++ [13, 10]) &&
        decide ((st.atStore shortBlock P [121, 13, 10]).items.value P.it = [121] ++ [13, 10]) &&
        ((st.atStore shortBlock P [121, 13, 10]).doStoreItem P.it .append
          (HashTable.hash P.line.key)).toOption.any fun r => decide (r.2.1 = .STORED)) = true := by
    decide +kernel
  obtain ⟨s₀, st, hinit, hrun, hp⟩ := exists_of_trial htrial
  obtain ⟨P, hP, hp⟩ := (Option.any_eq_true _ _).mp hp
  obtain ⟨old, hold, hp⟩ := (Option.any_eq_true _ _).mp hp
  simp only [Bool.and_eq_true, decide_eq_true_eq] at hp
  obtain ⟨⟨hx, hy⟩, hp⟩ := hp
  obtain ⟨⟨s', stat, c⟩, hret, hstat⟩ := (Option.any_eq_true _ _).mp hp
  obtain rfl : stat = .STORED := of_decide_eq_true hstat
  have hstored : (st.atStore shortBlock P [121, 13, 10]).doStoreItem P.it .append
      (HashTable.hash P.line.key) = .ok (s', .STORED, c) := by
    cases hst : (st.atStore shortBlock P [121, 13, 10]).doStoreItem P.it .append
      (HashTable.hash P.line.key) with
    | error e => rw [hst] at hret; cases hret
    | ok r => rw [hst] at hret; cases hret; rfl
  obtain ⟨new, -, -, hfound, -, -, -, hvalue, -⟩ := splice_exact (a := shortBlock) hinit hrun hP [121, 13, 10]
    (.inl rfl) hold hx hy hstored
  exact ⟨s₀, st, P, old, s', c, new, hinit, hrun, hP, hold, hstored, hfound, hvalue⟩

end Service

end MiniMemcached
