import MiniMemcached.Service.Requests

/-! The table of a server in service. In every reachable state each bucket is an
acyclic chain of items that hash there and carry `ITEM_LINKED`, and no key occurs
twice. A key that was deleted, or whose item was found expired, stays out of the
table until a storage command for it answers `STORED`. -/

namespace MiniMemcached.Service

open MiniMemcached.Lists Runs

/-- The table as the pointers have it. -/
structure TableWellFormed (s : Cache) : Prop where
  chains : ∀ b, ∃ l, Chain s.items.hNext (s.hashtable.primaryHashtable b) l ∧
    ∀ p ∈ l, s.hashtable.bucket (HashTable.hash (s.items.key p)) = b ∧
      s.items.itemFlag p &&& Slab.ITEM_LINKED ≠ 0
  unique : ∀ b b' p q, Reach s.items.hNext (s.hashtable.primaryHashtable b) p →
    Reach s.items.hNext (s.hashtable.primaryHashtable b') q → s.items.key p = s.items.key q → p = q

/-- `hash_find` of the key returns null. -/
def NotFound (k : List UInt8) (st : Service) : Prop :=
  st.cache.hashFind k (HashTable.hash k) = .ok none

/-- The action is the block of a storage command for `k`, and it answers `STORED`. -/
def StoresKey (k : List UInt8) (st : Service) (a : Action) (st' : Service) : Prop :=
  ∃ P bytes, a.req = .block bytes ∧ st.pending a.conn = some P ∧ P.line.key = k ∧
    st'.reply = .stored .STORED

/-- The action calls `do_item_get` for `k`. -/
def LooksUp (k : List UInt8) (st : Service) (a : Action) (st' : Service) : Prop :=
  match a.req, st.pending a.conn with
  | .get key, none => key = k ∧ key.length ≤ KEY_MAX_LENGTH
  | .delete key, none => key = k
  | .store L _, none => L.key = k ∧ L.cmd = .set ∧ st'.reply = .noMemory
  | .block bytes, some P => P.line.key = k ∧ (bytes.length : ℤ) = P.line.vlen
  | _, _ => False

/-- The key leaves the table: a `delete` that answers `DELETED`, or a lookup that
finds an expired item. -/
def Drops (k : List UInt8) (st : Service) (a : Action) (st' : Service) : Prop :=
  (a.req = .delete k ∧ st.pending a.conn = none ∧ st'.reply = .deleted) ∨
    ∃ p, (st.at_ a).hashFind k (HashTable.hash k) = .ok (some p) ∧ (st.at_ a).expired p ∧
      LooksUp k st a st'

theorem tableWellFormed {s : Cache} {g : Shape} (h : Sound s g) : TableWellFormed s := by
  refine ⟨fun b => ⟨g.buckets b, h.buckets.chain b, fun p hp => ?_⟩, fun b b' p q hp hq hk => ?_⟩
  · exact ⟨h.buckets.home b p hp, (h.linked p ⟨b, hp⟩).2⟩
  · exact h.buckets.key_inj (((h.buckets.chain b).reach_iff p).mp hp)
      (((h.buckets.chain b').reach_iff q).mp hq) hk

theorem start_inv_fresh {F : ℕ → List Ptr} {s : Cache} (hs : Sound s (.fresh F)) :
    Inv (start s) (.fresh F) := by
  refine ⟨hs, fun p => ⟨fun hp => absurd hp (Set.notMem_empty p), ?_⟩, ?_, ?_⟩
  · rintro ⟨c, P, hP, -⟩
    cases hP
  · intro c c' P P' hP
    cases hP
  · intro c P hP
    cases hP

theorem start_inv {limit : ℕ} {set : Settings} {mallocOk : ℕ → Bool} {hashpower : ℕ} {s : Cache}
    (h : Cache.init limit set mallocOk hashpower = some s) : ∃ g, Inv (start s) g := by
  obtain ⟨F, hs, -⟩ := Sound.init h
  exact ⟨_, start_inv_fresh hs⟩

/-- One action keeps the invariant. -/
theorem inv_step {st st' : Service} {a : Action} (h : ∃ g, Inv st g) (hstep : st.step a = .ok st') :
    ∃ g, Inv st' g := by
  obtain ⟨g, h⟩ := h
  rcases step_spec h a with ⟨herr, -⟩ | ⟨st'', g', acts, hok, hinv, -⟩
  · rw [herr] at hstep
    cases hstep
  · rw [hok] at hstep
    cases hstep
    exact ⟨g', hinv⟩

/-- Every state that a run reaches has a shape. -/
theorem inv_of_run {limit : ℕ} {set : Settings} {mallocOk : ℕ → Bool} {hashpower : ℕ} {s : Cache}
    (hinit : Cache.init limit set mallocOk hashpower = some s) {as : List Action} {st : Service}
    (hrun : run step (start s) as = .ok st) : ∃ g, Inv st g :=
  invariant_run (I := fun st => ∃ g, Inv st g) (fun _ _ _ hI hstep => inv_step hI hstep)
    (start_inv hinit) hrun

variable {st st' : Service} {g g' : Shape} {a : Action} {k : List UInt8} {acts : List Act}

theorem Inv.notFound_iff (h : Inv st g) : NotFound k st ↔ g.Absent st.cache.items k :=
  h.sound.find_none_iff k

/-- An action links an item with the key only when it is a storage command for the
key that answers `STORED`. -/
theorem StepActs.storesKey (h : StepActs st g a acts st') {p : Ptr} (hp : .link p ∈ acts) :
    StoresKey (st'.cache.items.key p) st a st' := by
  cases h with
  | ignored
  | longKey => cases hp
  | get k hreq hfree hlen acts r hget => simp [(hget.noLink p).1] at hp
  | delete k hreq hfree acts b hrem => exact absurd (hrem.writes _ hp) (by simp [Act.writes])
  | accepted L hcmd hreq hfree it acts hline =>
    cases hline
    simp at hp
  | refused L hcmd hreq hfree acts hline => exact absurd ((hline.quiet ∅).1 _ hp) (by simp [Act.writes])
  | block P bytes hreq hP hlen acts stat hstore hlinked hkept hpend hreply =>
    have hp' : .link p ∈ acts := by simpa using hp
    refine ⟨P, bytes, hreq, hP, (hlinked p hp').symm, ?_⟩
    rw [hreply, hstore.stored_of_link hp']

/-- An action that drops the key unlinks an item with it. -/
theorem StepActs.unlink_mem (h : StepActs st g a acts st') (hinv : Inv st g)
    (hd : Drops k st a st') : ∃ p ∈ g.table, (st.at_ a).items.key p = k ∧ .unlink p ∈ acts := by
  have hs : Sound (st.at_ a) g := hinv.sound.setClock a.now
  rcases hd with ⟨hreq, hpend, hreply⟩ | ⟨p, hp, he, hl⟩
  · cases h with
    | delete k' hreq' hfree acts b hrem hpend' hreply' =>
      obtain rfl : k' = k := by rw [hreq] at hreq'; cases hreq'; rfl
      refine hrem.unlink_mem hs (.inl ?_)
      cases b
      · rw [hreply'] at hreply; cases hreply
      · rfl
    | ignored hno hst => subst hst; cases hreply
    | longKey k' hreq'
    | get k' hreq'
    | accepted L hcmd hreq'
    | refused L hcmd hreq'
    | block P bytes hreq' => rw [hreq] at hreq'; cases hreq'
  · obtain ⟨hpT, hk⟩ := (hs.find_some_iff k p).mp hp
    unfold LooksUp at hl
    cases h with
    | ignored hno hst =>
      refine absurd ?_ hno
      unfold Allowed
      split at hl <;> simp_all
    | longKey k' hreq hlong =>
      rw [hreq] at hl
      cases hP : st.pending a.conn <;> simp [hP] at hl
      omega
    | get k' hreq hfree hlen acts r hget =>
      rw [hreq] at hl
      cases hP : st.pending a.conn <;> simp [hP] at hl
      obtain ⟨rfl, -⟩ := hl
      exact ⟨p, hpT, hk, by simp [hget.unlink_mem hs hpT hk he]⟩
    | delete k' hreq hfree acts b hrem =>
      rw [hreq] at hl
      cases hP : st.pending a.conn <;> simp [hP] at hl
      obtain rfl := hl
      exact hrem.unlink_mem hs (.inr ⟨p, hpT, hk, he⟩)
    | accepted L hcmd hreq hfree it acts hline hpend hreply =>
      rw [hreq, hfree] at hl
      simp [hreply] at hl
    | refused L hcmd hreq hfree acts hline hpend hreply =>
      rw [hreq] at hl
      cases hP : st.pending a.conn <;> simp [hP] at hl
      obtain ⟨rfl, hset, -⟩ := hl
      cases hline with
      | refused hno hcmd' => exact absurd hset hcmd'
      | removed acts b hno hcmd' hrem =>
        obtain ⟨q, hq, hkq, hu⟩ := hrem.unlink_mem hs (.inr ⟨p, hpT, hk, he⟩)
        exact ⟨q, hq, hkq, by simp [hu]⟩
    | block P bytes hreq hP hlen acts stat hstore =>
      rw [hreq, hP] at hl
      obtain ⟨rfl, -⟩ := hl
      have hkey := (hinv.filled _ P hP).key
      obtain ⟨pre, r, post, hget, rfl⟩ := hstore.exists_get
      exact ⟨p, hpT, hk, by simp [hget.unlink_mem hs hpT (hk.trans hkey.symm) he]⟩

/-- A key outside the table comes in by a successful storage command only. -/
theorem notFound_step (h : Inv st g) (hstep : st.step a = .ok st')
    (hno : NotFound k st ∨ Drops k st a st') (hstore : ¬StoresKey k st a st') : NotFound k st' := by
  rcases step_spec h a with ⟨herr, -⟩ | ⟨st'', g', acts, hok, hinv, hsteps, hacts⟩
  · rw [herr] at hstep
    cases hstep
  rw [hok] at hstep
  cases hstep
  have hs : Sound (st.at_ a) g := h.sound.setClock a.now
  have hlink : ∀ q, .link q ∈ acts → st'.cache.items.key q ≠ k := by
    intro q hq hk
    exact hstore (hk ▸ hacts.storesKey hq)
  rw [hinv.notFound_iff]
  rcases hno with hno | hd
  · exact hsteps.absent hs (h.notFound_iff.mp hno) hlink
  · obtain ⟨p, hp, rfl, hu⟩ := hacts.unlink_mem h hd
    exact hsteps.absent_of_unlink hs (hs.linked p hp).1 hu hlink

/-- A linked item stands in the bucket of its key. -/
theorem TableWellFormed.home {s : Cache} (h : TableWellFormed s) {b : ℕ} {p : Ptr}
    (hp : Reach s.items.hNext (s.hashtable.primaryHashtable b) p) :
    b = s.hashtable.bucket (HashTable.hash (s.items.key p)) := by
  obtain ⟨l, hl, hall⟩ := h.chains b
  exact (hall p ((hl.reach_iff p).mp hp)).1.symm

theorem tableWellFormed_of_run {limit : ℕ} {set : Settings} {mallocOk : ℕ → Bool} {hashpower : ℕ}
    {s : Cache} (hinit : Cache.init limit set mallocOk hashpower = some s) {as : List Action}
    (hrun : run step (start s) as = .ok st) : TableWellFormed st.cache := by
  obtain ⟨g, hg⟩ := inv_of_run hinit hrun
  exact tableWellFormed hg.sound

/-- No action of the run is a storage command for `k` that answers `STORED`. -/
def NoStore (k : List UInt8) : Service → List Action → Prop :=
  EachStep step fun st a => ∀ st', st.step a = .ok st' → ¬StoresKey k st a st'

theorem notFound_throughout (h : ∃ g, Inv st g) {as : List Action} (hno : NotFound k st)
    (hstore : NoStore k st as) : Throughout step (NotFound k) st as :=
  throughout_of_eachStep (I := fun st _ => (∃ g, Inv st g) ∧ NotFound k st) (L := fun _ _ => True)
    (fun _ _ _ _ hI _ hC hstep => ⟨inv_step hI.1 hstep, hI.1.elim fun _ h =>
      notFound_step h hstep (.inl hI.2) (hC _ hstep)⟩)
    (fun _ _ hI => hI.2) ⟨h, hno⟩ (eachStep_of_forall (fun _ _ => trivial) st as) hstore

/-- In every run of the server the table stays well formed, and a key that was
dropped is not found until the next successful storage command for it. -/
theorem table_unique {limit : ℕ} {set : Settings} {mallocOk : ℕ → Bool} {hashpower : ℕ} {s : Cache}
    (hinit : Cache.init limit set mallocOk hashpower = some s) (as : List Action) :
    Throughout step (fun st => TableWellFormed st.cache) (start s) as ∧
      ∀ pre a post st st' k, as = pre ++ a :: post → run step (start s) pre = .ok st →
        st.step a = .ok st' → Drops k st a st' → ¬StoresKey k st a st' → NoStore k st' post →
        Throughout step (NotFound k) st' post := by
  constructor
  · rw [throughout_iff]
    intro pre _ t ht
    exact tableWellFormed_of_run hinit ht
  · rintro pre a post st st' k - hpre hstep hd hns hstore
    have hI := inv_of_run hinit hpre
    refine notFound_throughout (inv_step hI hstep) ?_ hstore
    exact hI.elim fun g h => notFound_step h hstep (.inr hd) hns

/-- A key is stored and deleted. -/
def storeThenDelete : List Action :=
  storing 1 0 (shortLine .set 97 0 0 0) set_ne_error ++ [⟨1, 0, .delete [97]⟩]

theorem table_unique_storeThenDelete : ∃ s st st', Cache.init 1 smallSettings (fun _ => true) 0 = some s ∧
    run step (start s) (storing 1 0 (shortLine .set 97 0 0 0) set_ne_error) = .ok st ∧
    st.step ⟨1, 0, .delete [97]⟩ = .ok st' ∧ st'.reply = .deleted ∧ TableWellFormed st'.cache ∧
    Throughout step (NotFound [97]) st' [⟨2, 0, .get [97]⟩] := by
  have htrial : (trial 1 0 storeThenDelete).any (fun st' => decide (st'.reply = .deleted)) = true := by
    decide +kernel
  have htrial₀ : (trial 1 0 (storing 1 0 (shortLine .set 97 0 0 0) set_ne_error)).any
      (fun st => decide ((st.pending 0).isNone)) = true := by decide +kernel
  obtain ⟨s, st', hinit, hrun, hreply⟩ := exists_of_trial htrial
  obtain ⟨s₀, st₀, hinit₀, hrun₀, hpend⟩ := exists_of_trial htrial₀
  obtain rfl : s = s₀ := by rw [hinit] at hinit₀; cases hinit₀; rfl
  obtain ⟨st, hst, hstep⟩ := (run_append_eq_ok step).mp hrun
  obtain rfl : st = st₀ := by rw [hst] at hrun₀; cases hrun₀; rfl
  obtain ⟨st₁, hstep, hend⟩ := (run_cons_eq_ok step).mp hstep
  cases hend
  have hno : ∀ st st', ¬StoresKey [97] st ⟨2, 0, .get [97]⟩ st' := by
    rintro st st' ⟨P, bytes, hreq, -⟩
    cases hreq
  obtain ⟨hwell, hgone⟩ := table_unique hinit (storeThenDelete ++ [⟨2, 0, .get [97]⟩])
  have hreply' : st'.reply = .deleted := of_decide_eq_true hreply
  refine ⟨s, st, st', hinit, hst, hstep, hreply', tableWellFormed_of_run hinit hrun, ?_⟩
  refine hgone _ _ [_] st st' [97] rfl hst hstep (.inl ⟨rfl, by simpa using hpend, hreply'⟩) ?_
    ⟨fun _ _ => hno _ _, fun _ _ => trivial⟩
  rintro ⟨P, bytes, hreq, -⟩
  cases hreq

end MiniMemcached.Service
