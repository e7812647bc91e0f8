import MiniMemcached.Cache.Extents
import MiniMemcached.Service.UniqueKeys

/-! The chunks of the slab pages. `slabs_clsid` of an item is 0 at all times, so that
`item_free` never names a class and no chunk comes back. The chunks stay accounted
for as long as no item is unlinked and every item of a storage command is linked. -/

namespace MiniMemcached

open MiniMemcached.Lists Runs

/-- The items of the table and those that are not stored yet. -/
def Shape.inUse (g : Shape) : Set Ptr := {p | p ∈ g.table ∨ p ∈ g.inFlight}

/-- A step that does not lose sight of an item. -/
def Act.keeps : Act → Prop
  | .unlink _ | .drop _ => False
  | _ => True

/-- The bytes for which a chunk was handed out. -/
def Act.charge (c : Ptr → ℕ) : Act → Ptr → ℕ
  | .grant it size _ => Function.update c it size
  | _ => c

/-- Every chunk is free or in use, and `requested` is what the chunks in use were
charged. -/
structure Charged (x : Cache × Shape) (c : Ptr → ℕ) : Prop where
  sound : Sound x.1 x.2
  accounted : ∀ id, ∀ p ∈ (x.1.slab.cls id).chunks, p ∈ x.2.free id ∨ p ∈ x.2.inUse
  requested : ∀ id, ∃ l : List Ptr, l.Nodup ∧
    (∀ p, p ∈ l ↔ p ∈ x.2.inUse ∧ p ∈ (x.1.slab.cls id).chunks) ∧
    (x.1.slab.cls id).requested = UInt64.ofNat (l.map c).sum

/-- A chunk is handed out. -/
theorem Charged.grant {s s' : Cache} {g g' : Shape} {c : Ptr → ℕ} {size id : ℕ} {it : Ptr}
    (h : Charged (s, g) c) (hg : s.Grant g s' g' size id it) :
    Charged (s', g') (Function.update c it size) := by
  have hs : Sound s g := h.sound
  obtain ⟨hs', hE, hA, -⟩ := hs.grant hg
  have hnot : it ∉ g.inUse := fun hit => hit.elim (fun ht => hE (hs.linked it ht).1) hA
  have huse : ∀ p, p ∈ g'.inUse ↔ p = it ∨ p ∈ g.inUse := fun p => by
    simp only [Shape.inUse, Shape.table, hg.buckets, hg.inFlight, Set.mem_ofPred_eq,
      Set.mem_insert_iff]
    tauto
  -- an item in use stays in its class
  have hchunk : ∀ p ∈ g.inUse, ∀ j, p ∈ (s'.slab.cls j).chunks ↔ p ∈ (s.slab.cls j).chunks := by
    intro p hp j
    obtain ⟨⟨i, hi⟩, -⟩ := hs.used p (hp.imp_left fun ht => (hs.linked p ht).1)
    refine ⟨fun hj => ?_, fun hj => hg.alloc.chunks_subset j hj⟩
    rwa [hg.alloc.rep.class_unique hj (hg.alloc.chunks_subset i hi)]
  refine ⟨hs', fun j p hp => ?_, fun j => ?_⟩
  · rcases hg.alloc.free_or_used j p hp with hp | rfl | ⟨hp, hpF⟩
    · exact .inl hp
    · exact .inr ((huse p).mpr (.inl rfl))
    · exact .inr ((huse p).mpr (.inr ((h.accounted j p hp).resolve_left hpF)))
  · obtain ⟨l, hnodup, hl, hreq⟩ := h.requested j
    have hitl : it ∉ l := fun hit => hnot ((hl it).mp hit).1
    have hsame : l.map (Function.update c it size) = l.map c :=
      List.map_congr_left fun p hp => Function.update_of_ne (ne_of_mem_of_not_mem hp hitl) _ _
    by_cases hj : j = id
    · subst hj
      refine ⟨it :: l, List.nodup_cons.mpr ⟨hitl, hnodup⟩, fun p => ?_, ?_⟩
      · rw [List.mem_cons, hl, huse]
        constructor
        · rintro (rfl | ⟨hp, hpc⟩)
          · exact ⟨.inl rfl, hg.alloc.mem_chunks⟩
          · exact ⟨.inr hp, (hchunk p hp j).mpr hpc⟩
        · rintro ⟨rfl | hp, hpc⟩
          · exact .inl rfl
          · exact .inr ⟨hp, (hchunk p hp j).mp hpc⟩
      · have hreq' : (s.slab.cls j).requested = UInt64.ofNat (l.map c).sum := hreq
        rw [hg.alloc.requested, if_pos rfl, hreq', List.map_cons, List.sum_cons, hsame,
          Function.update_self, Nat.add_comm, UInt64.ofNat_add]
    · refine ⟨l, hnodup, fun p => ?_, ?_⟩
      · rw [hl, huse]
        constructor
        · rintro ⟨hp, hpc⟩
          exact ⟨.inr hp, (hchunk p hp j).mpr hpc⟩
        · rintro ⟨rfl | hp, hpc⟩
          · exact absurd (hg.alloc.rep.class_unique hpc hg.alloc.mem_chunks) hj
          · exact ⟨hp, (hchunk p hp j).mp hpc⟩
      · rw [hg.alloc.requested, if_neg hj, hsame]
        exact hreq

/-- One primitive step that keeps the items in sight. -/
theorem Charged.step {x y : Cache × Shape} {c : Ptr → ℕ} {a : Act} (h : Charged x c)
    (hp : Prim x a y) (hk : a.keeps) : Charged y (a.charge c) := by
  have hs := h.sound
  have hsound := hp.sound hs
  cases hp with
  | unlink => exact absurd hk id
  | drop => exact absurd hk id
  | grant hg => exact h.grant hg
  | @refuse s g b t hb hl hf =>
    refine ⟨hsound, fun id p hp => h.accounted id p (by rwa [← hb.chunks id]), fun id => ?_⟩
    obtain ⟨l, hnodup, hl, hreq⟩ := h.requested id
    refine ⟨l, hnodup, fun p => by rw [hl, ← hb.chunks id], ?_⟩
    have hsame : (b.cls id).requested = (s.slab.cls id).requested := by rw [hb.cls id]
    exact hsame.trans hreq
  | @link s g it Q hit hkey hf hsound' =>
    have huse : ∀ p, p ∈ (g.inserted s it Q).inUse ↔ p ∈ g.inUse := by
      intro p
      simp only [Shape.inUse, Set.mem_ofPred_eq, Shape.table_inserted]
      constructor
      · rintro ((rfl | hp) | hp)
        · exact .inr hit
        · exact .inl hp
        · exact .inr hp.1
      · rintro (hp | hp)
        · exact .inl (.inr hp)
        · by_cases hpi : p = it
          · exact .inl (.inl hpi)
          · exact .inr ⟨hp, hpi⟩
    refine ⟨hsound, fun id p hp => ?_, fun id => ?_⟩
    · exact (h.accounted id p hp).imp_right (huse p).mpr
    · obtain ⟨l, hnodup, hl, hreq⟩ := h.requested id
      exact ⟨l, hnodup, fun p => by rw [huse p]; exact hl p, hreq⟩
  | _ => exact ⟨hsound, h.accounted, h.requested⟩

theorem Charged.steps {s s' : Cache} {g g' : Shape} {acts : List Act} {c : Ptr → ℕ}
    (hsteps : Steps s g acts s' g') (hk : ∀ a ∈ acts, a.keeps) (h : Charged (s, g) c) :
    Charged (s', g') (acts.foldl Act.charge c) := by
  have haux : ∀ {x y : Cache × Shape} {as : List Act} {c : Ptr → ℕ}, Path Prim x as y →
      (∀ a ∈ as, a.keeps) → Charged x c → Charged y (as.foldl Act.charge c) := by
    intro x y as c hpath
    induction hpath generalizing c with
    | nil => exact fun _ h => h
    | cons hab _ ih =>
      intro hk h
      exact ih (fun b hb => hk b (List.mem_cons_of_mem _ hb)) (h.step hab (hk _ (List.mem_cons_self ..)))
  exact haux hsteps hk h

section

variable {s : Cache} {g : Shape} {k : List UInt8} {acts : List Act}

theorem GetActs.keeps {r : Option Ptr} (h : GetActs s g k acts r)
    (hno : ∀ p ∈ g.table, s.items.key p = k → ¬s.expired p) : ∀ b ∈ acts, b.keeps := by
  cases h with
  | miss => simp
  | live p => simp [Act.keeps]
  | expired p hp hk he => exact absurd he (hno p hp hk)

theorem GetActs.eq_nil {r : Option Ptr} (h : GetActs s g k acts r)
    (habs : g.Absent s.items k) : acts = [] ∧ r = none := by
  cases h with
  | miss => exact ⟨rfl, rfl⟩
  | live p hp hk | expired p hp hk => exact absurd hk (habs p hp)

theorem RemoveActs.eq_quiet {b : Bool} (h : RemoveActs s g k acts b)
    (habs : g.Absent s.items k) : acts = [.quiet, .quiet] := by
  cases h with
  | miss acts hget => rw [(hget.eq_nil habs).1]; rfl
  | hit p hp hk => exact absurd hk (habs p hp)

end

namespace Service

/-- The action finds no expired item, removes no key and, when it stores, binds its
item to a key that is free. A `cas` on a key without a live item does not return. -/
def KeepsChunks (st : Service) (a : Action) : Prop :=
  match a.req, st.pending a.conn with
  | .get k, none => k.length ≤ KEY_MAX_LENGTH → ∀ p ∈ st.cache.found k, ¬(st.at_ a).expired p
  | .delete k, none => st.cache.found k = none
  | .store L _, none =>
    ¬st.cache.slab.allocOk L.key.length L.vlen → L.cmd = .set → st.cache.found L.key = none
  | .block bytes, some P =>
    (bytes.length : ℤ) = P.line.vlen →
      (P.line.cmd = .set ∨ P.line.cmd = .add) ∧ st.cache.found P.line.key = none ∧
          P.line.flags.toUInt8 &&& (Slab.ITEM_LINKED ||| Slab.ITEM_SLABBED) = 0 ∨
        P.line.cmd = .cas ∧ ∀ p ∈ st.cache.found P.line.key, (st.at_ a).expired p
  | _, _ => True

instance (st : Service) (a : Action) : Decidable (st.KeepsChunks a) := by
  delta KeepsChunks
  exact match a.req, st.pending a.conn with
  | .get _, none | .get _, some _ => inferInstance
  | .delete _, none | .delete _, some _ => inferInstance
  | .store _ _, none | .store _ _, some _ => inferInstance
  | .block _, none | .block _, some _ => inferInstance

/-- Every chunk is on the freelist of its class or linked, and `requested` is the sum
of the sizes of the linked items. -/
structure NoLeak (s : Cache) : Prop where
  chunks : ∀ id, ∀ p ∈ (s.slab.cls id).chunks, Reach s.items.next (s.slab.cls id).slots p ∨
    ∃ b, Reach s.items.hNext (s.hashtable.primaryHashtable b) p
  requested : ∀ id, ∃ l : List Ptr, l.Nodup ∧
    (∀ p, p ∈ l ↔ (∃ b, Reach s.items.hNext (s.hashtable.primaryHashtable b) p) ∧
      p ∈ (s.slab.cls id).chunks) ∧
    (s.slab.cls id).requested = UInt64.ofNat (l.map s.items.itemTotal).sum

/-- The charges are the sizes of the items. -/
structure Measured (st : Service) (g : Shape) (c : Ptr → ℕ) : Prop where
  inv : Inv st g
  charged : Charged (st.cache, g) c
  size : ∀ id, (st.cache.slab.cls id).size < 2 ^ 31
  table : ∀ p ∈ g.table, c p = st.cache.items.itemTotal p
  pending : ∀ conn P, st.pending conn = some P →
    c P.it = toSizeT (sizeofBaseItem + P.line.key.length + 1 + P.line.vlen)

variable {st st' : Service} {g g' : Shape} {a : Action} {acts : List Act} {c : Ptr → ℕ}

/-- What an action that meets the condition does. -/
theorem StepActs.kept (h : StepActs st g a acts st') (hinv : Inv st g) (hC : st.KeepsChunks a) :
    (∀ b ∈ acts, b.keeps) ∧
      ((∀ c, acts.foldl Act.charge c = c) ∧ (∀ p, .link p ∉ acts) ∧ st'.pending = st.pending ∨
        (∃ L it id, acts = [.grant it (ntotal L.key.length L.vlen) id, .fill it L.flags.toUInt8] ∧
          st.cache.slab.slabsClsid (ntotal L.key.length L.vlen) ≠ 0 ∧ it ∉ g.inFlight ∧
          it ∉ st.cache.everLinked ∧
          st'.pending = Function.update st.pending a.conn (some ⟨it, L⟩)) ∨
        ∃ P bytes, st.pending a.conn = some P ∧
          acts = [.fill P.it (st.cache.items.itemFlag P.it), .quiet, .bump P.it, .link P.it, .quiet] ∧
          Kept ((st.at_ a).writeValue P.it bytes).items st'.cache.items P.it ∧
          st'.pending = Function.update st.pending a.conn none) := by
  have hs := hinv.sound
  unfold KeepsChunks at hC
  cases h with
  | ignored hno hst => subst hst; exact ⟨by simp, .inl ⟨fun _ => rfl, by simp, rfl⟩⟩
  | longKey k hreq hk hst => subst hst; exact ⟨by simp, .inl ⟨fun _ => rfl, by simp, rfl⟩⟩
  | get k hreq hfree hlen acts r hget hpend =>
    rw [hreq, hfree] at hC
    have hno : ∀ p ∈ g.table, (st.at_ a).items.key p = k → ¬(st.at_ a).expired p := fun p hp hk =>
      hC hlen p ((hs.mem_found_iff k p).mpr ⟨hp, hk⟩)
    refine ⟨?_, .inl ⟨?_, fun p => by simp [(hget.noLink p).1], hpend⟩⟩
    · simpa [or_imp, forall_and, Act.keeps] using hget.keeps hno
    · cases hget <;> exact fun _ => rfl
  | delete k hreq hfree acts b hrem hpend =>
    rw [hreq, hfree] at hC
    rw [hrem.eq_quiet ((hs.found_none_iff k).mp hC)]
    exact ⟨by simp [Act.keeps], .inl ⟨fun _ => rfl, by simp, hpend⟩⟩
  | accepted L hcmd hreq hfree it acts hline hpend =>
    cases hline with
    | granted _ hok hE hnew =>
      exact ⟨by simp [Act.keeps], .inr (.inl ⟨L, it, _, rfl, hok.1, hnew, hE, hpend⟩)⟩
  | refused L hcmd hreq hfree acts hline hpend =>
    cases hline with
    | refused hno hset => exact ⟨by simp [Act.keeps], .inl ⟨fun _ => rfl, by simp, hpend⟩⟩
    | removed acts b hno hset hrem =>
      rw [hreq, hfree] at hC
      rw [hrem.eq_quiet ((hs.found_none_iff L.key).mp (hC hno hset))]
      exact ⟨by simp [Act.keeps], .inl ⟨fun _ => rfl, by simp, hpend⟩⟩
  | block P bytes hreq hP hlen acts stat hstore hlinked hkept hpend =>
    have hfill := hinv.filled _ P hP
    have hkey : (st.at_ a).items.key P.it = P.line.key := hfill.key
    rw [hreq, hP] at hC
    rcases hC hlen with ⟨hcmd, hnf, hflags⟩ | ⟨hcmd, hexp⟩
    · have habs : g.Absent (st.at_ a).items ((st.at_ a).items.key P.it) := by
        rw [hkey]
        exact (hs.found_none_iff P.line.key).mp hnf
      obtain rfl : acts = [.bump P.it, .link P.it] := by
        have hact : linkAct (st.at_ a) P.it = .link P.it := if_pos (by
          rw [← hflags, ← hfill.itemFlag]; rfl)
        cases hstore with
        | noKey acts hget hcmd' => rcases hcmd with e | e <;> simp [e] at hcmd'
        | new acts hget => rw [(hget.eq_nil habs).1, hact]; rfl
        | taken old acts hget
        | replaced old acts hget
        | swapped old acts hget
        | stale old acts hget
        | full old acts hget
        | joined old new acts hget => exact absurd (hget.eq_nil habs).2 (by simp)
      exact ⟨by simp [Act.keeps], .inr (.inr ⟨P, bytes, hP, rfl, hkept (by simp), hpend⟩)⟩
    · have hlive : ∀ old acts, ¬GetActs (st.at_ a) g ((st.at_ a).items.key P.it) acts (some old) := by
        intro old acts hget
        cases hget with
        | live _ hp hk hl =>
          exact hl (hexp old ((hs.mem_found_iff _ old).mpr ⟨hp, hk.trans hkey⟩))
      rw [hcmd] at hstore
      cases hstore with
      | noKey acts hget hcmd'
      | new acts hget hcmd' => simp at hcmd'
      | swapped old acts hget
      | stale old acts hget => exact absurd hget (hlive old acts)
      | taken old acts hget hcmd'
      | replaced old acts hget hcmd'
      | full old acts hget hcmd'
      | joined old new acts hget hcmd' => exact absurd hget (hlive old acts)

theorem itemTotal_congr {m m' : Items} {p : Ptr} (hn : m'.nkey p = m.nkey p)
    (hb : m'.nbytes p = m.nbytes p) : m'.itemTotal p = m.itemTotal p := by
  simp only [Items.itemTotal, hn, hb]

/-- One action keeps the account. -/
theorem Measured.step (h : Measured st g c) (hC : st.KeepsChunks a) (hstep : st.step a = .ok st') :
    ∃ g' c', Measured st' g' c' := by
  rcases step_spec h.inv a with ⟨herr, -⟩ | ⟨st'', g', acts, hok, hinv, hsteps, hacts⟩
  · rw [herr] at hstep
    cases hstep
  rw [hok] at hstep
  cases hstep
  have hs : Sound (st.at_ a) g := h.inv.sound.setClock a.now
  have hev := hsteps.evolves hs (K := ∅) (by simp) (by simp)
  obtain ⟨hkeeps, hform⟩ := StepActs.kept hacts h.inv hC
  have hcharged := Charged.steps hsteps hkeeps ⟨hs, h.charged.accounted, h.charged.requested⟩
  have hsize : ∀ id, (st'.cache.slab.cls id).size < 2 ^ 31 := fun id => by
    rw [hev.sizes.size]
    exact h.size id
  have hsame : ∀ p ∈ g.table, st'.cache.items.itemTotal p = st.cache.items.itemTotal p := fun p hp =>
    itemTotal_congr (hev.nkey p (.inl (hs.linked p hp).1)) (hev.nbytes p (.inl (hs.linked p hp).1))
  refine ⟨g', acts.foldl Act.charge c, hinv, hcharged, hsize, fun p hp => ?_, fun conn P hP => ?_⟩
  · rcases hform with ⟨hch, hnl, -⟩ | ⟨L, it, id, rfl, -, -, hE, -⟩ | ⟨P, bytes, hP, rfl, hkept, -⟩
    · have hpT := (hsteps.table_of_link hp).resolve_right (hnl p)
      rw [hch, hsame p hpT, h.table p hpT]
    · have hpT := (hsteps.table_of_link hp).resolve_right (by simp)
      have hne : p ≠ it := fun e => hE (e ▸ (hs.linked p hpT).1)
      rw [hsame p hpT, ← h.table p hpT]
      exact Function.update_of_ne hne _ _
    · rcases hsteps.table_of_link hp with hpT | hl
      · rw [hsame p hpT]
        exact h.table p hpT
      · obtain rfl : p = P.it := by simpa using hl
        have hfill := h.inv.filled _ P hP
        refine (h.pending _ P hP).trans ?_
        rw [itemTotal_congr hkept.nkey hkept.nbytes, Items.itemTotal, ← hfill.nkey, ← hfill.nbytes]
        rfl
  · rcases hform with ⟨hch, -, hpend⟩ | ⟨L, it, id, rfl, hok, hnew, -, hpend⟩ |
      ⟨P', bytes, hP', rfl, -, hpend⟩
    · rw [hch]
      exact h.pending conn P (by rwa [← hpend])
    · rw [hpend, Function.update_apply] at hP
      split_ifs at hP with hconn
      · cases hP
        have hself : Function.update c it (ntotal L.key.length L.vlen) it = ntotal L.key.length L.vlen :=
          Function.update_self ..
        refine hself.trans ?_
        have hge := L.vlen_ge
        exact ntotal_eq h.size (L.key_le.trans_lt (by decide)) (by omega) L.vlen_lt hok
      · have hne : P.it ≠ it := fun e => hnew ((h.inv.flight it).mpr ⟨conn, P, hP, e⟩)
        exact (Function.update_of_ne hne _ _).trans (h.pending conn P hP)
    · rw [hpend, Function.update_apply] at hP
      split_ifs at hP with hconn
      exact h.pending conn P hP

theorem noLeak_of_measured (h : Measured st g c) (hq : st.Quiescent) : NoLeak st.cache := by
  have hs := h.inv.sound
  have hempty : ∀ p, p ∉ g.inFlight := fun p hp => by
    obtain ⟨conn, P, hP, -⟩ := (h.inv.flight p).mp hp
    rw [hq conn] at hP
    cases hP
  have htable : ∀ p, p ∈ g.inUse ↔ ∃ b, Reach st.cache.items.hNext
      (st.cache.hashtable.primaryHashtable b) p := fun p => by
    constructor
    · rintro (⟨b, hp⟩ | hp)
      · exact ⟨b, ((hs.buckets.chain b).reach_iff p).mpr hp⟩
      · exact absurd hp (hempty p)
    · rintro ⟨b, hp⟩
      exact .inl ⟨b, ((hs.buckets.chain b).reach_iff p).mp hp⟩
  refine ⟨fun id p hp => ?_, fun id => ?_⟩
  · exact (h.charged.accounted id p hp).imp ((hs.slab.chain id).reach_iff p).mpr (htable p).mp
  · obtain ⟨l, hnodup, hl, hreq⟩ := h.charged.requested id
    refine ⟨l, hnodup, fun p => by rw [hl, htable], ?_⟩
    rw [← List.map_congr_left fun p hp => h.table p (((hl p).mp hp).1.resolve_right (hempty p))]
    exact hreq

/-- In a run whose steps meet the condition no chunk is lost. -/
theorem noLeak_throughout {limit : ℕ} {set : Settings} {mallocOk : ℕ → Bool} {hashpower : ℕ}
    {s : Cache} (hinit : Cache.init limit set mallocOk hashpower = some s) {as : List Action}
    (hcond : EachStep step KeepsChunks (start s) as) :
    Throughout step (fun st => st.Quiescent → NoLeak st.cache) (start s) as := by
  obtain ⟨F, hs, hfresh, -, htable⟩ := Sound.init hinit
  refine throughout_of_eachStep (L := fun _ _ => True) (C := KeepsChunks)
    (I := fun st _ => ∃ g c, Measured st g c) ?_ ?_ ?_ (eachStep_of_forall (fun _ _ => trivial) _ as) hcond
  · rintro st a - st' ⟨g, c, h⟩ - hC hstep
    exact h.step hC hstep
  · rintro st - ⟨g, c, h⟩ hq
    exact noLeak_of_measured h hq
  · have hnot : ∀ p, p ∉ (Shape.fresh F).inUse := by
      rintro p (hp | hp)
      · exact Shape.notMem_table_fresh F p hp
      · exact hp
    refine ⟨_, fun _ => 0, start_inv_fresh hs, ⟨hs, fun id p hp => .inl (hfresh.allFree id p hp),
      fun id => ⟨[], List.nodup_nil, fun p => ?_, hfresh.requested id⟩⟩, fun id => ?_, fun p hp => ?_,
      fun conn P hP => ?_⟩
    · simp [hnot p]
    · change (s.slab.cls id).size < 2 ^ 31
      rw [htable.size]
      exact Slab.build_size_lt limit set mallocOk id
    · exact absurd hp (Shape.notMem_table_fresh F p)
    · cases hP

/-- A key is stored and looked up, and another one is deleted in vain. -/
def storeAndFind : List Action :=
  storing 1 0 (shortLine .set 97 0 0 0) set_ne_error ++ [⟨1, 0, .get [97]⟩, ⟨1, 0, .delete [98]⟩]

theorem noLeak_storeAndFind : ∃ s, Cache.init 1 smallSettings (fun _ => true) 0 = some s ∧
    Throughout step (fun st => st.Quiescent → NoLeak st.cache) (start s) storeAndFind := by
  have hcond : (Cache.init 1 smallSettings (fun _ => true) 0).any (fun s =>
      decide (EachStep step KeepsChunks (start s) storeAndFind)) = true := by decide +kernel
  obtain ⟨s, hinit, hs⟩ := exists_init hcond
  exact ⟨s, hinit, noLeak_throughout hinit (of_decide_eq_true hs)⟩

/-- After a `delete` that answers `DELETED` the chunk of the item is neither free nor
linked. -/
theorem chunk_leaked : ∃ s st, Cache.init 1 smallSettings (fun _ => true) 0 = some s ∧
    run step (start s) storeThenDelete = .ok st ∧ st.Quiescent ∧ st.reply = .deleted ∧
    ¬NoLeak st.cache := by
  have htrial : (trial 1 0 storeThenDelete).any (fun st => decide ((st.pending 0).isNone) &&
      decide (st.reply = .deleted) && decide ((⟨1, 104⟩ : Ptr) ∈ (st.cache.slab.cls 1).chunks) &&
      decide ((walk st.cache.items.next 5 (st.cache.slab.cls 1).slots).length < 5) &&
      decide ((⟨1, 104⟩ : Ptr) ∉ walk st.cache.items.next 5 (st.cache.slab.cls 1).slots) &&
      decide (st.cache.hashtable.primaryHashtable (st.cache.hashtable.bucket
        (HashTable.hash (st.cache.items.key ⟨1, 104⟩))) = none)) = true := by decide +kernel
  obtain ⟨s, st, hinit, hrun, hp⟩ := exists_of_trial htrial
  simp only [Bool.and_eq_true, decide_eq_true_eq] at hp
  obtain ⟨⟨⟨⟨⟨hpend, hreply⟩, hchunk⟩, hlen⟩, hfree⟩, hnone⟩ := hp
  have hq : st.Quiescent := quiescent_of_one (c := 0) (by decide) hrun (by simpa using hpend)
  refine ⟨s, st, hinit, hrun, hq, hreply, fun h => ?_⟩
  rcases h.chunks 1 ⟨1, 104⟩ hchunk with hr | ⟨b, hr⟩
  · exact hfree ((reach_iff_mem_walk hlen _).mp hr)
  · have hhome := (tableWellFormed_of_run hinit hrun).home hr
    rw [hhome, hnone] at hr
    cases hr

end Service

end MiniMemcached
