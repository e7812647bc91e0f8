import MiniMemcached.Cache.Spending
import MiniMemcached.Service.Eviction
import MiniMemcached.Service.Lending

/-! Memory is spent for good. No chunk returns to the slab allocator, so that a
class without memory stays without it, and the number of items that
a server hands out in its life is bounded by its memory limit. -/

namespace MiniMemcached

open Runs

/-! ### The allocator along a run -/

namespace Service

variable {st st' : Service} {g : Shape} {a : Action}

/-- An action calls the slab allocator at most once. -/
theorem Inv.spent (h : Inv st g) (hstep : st.step a = .ok st') : st.cache.slab.Spent st'.cache.slab := by
  have hs : Sound (st.at_ a) g := h.sound.setClock a.now
  have hsame : st.cache.slab.Spent st.cache.slab := .inl rfl
  unfold step at hstep
  split at hstep
  · -- a storage line
    obtain ⟨⟨s', r⟩, hline, hstep⟩ := Result.bind_eq_ok.mp hstep
    have hspent := Cache.commandStore_spent hs hline
    cases r
    all_goals
      cases hstep
      exact hspent
  · -- a data block
    rename_i P _ hP
    split_ifs at hstep
    · obtain ⟨⟨s', stat, c⟩, hblock, hstep⟩ := Result.bind_eq_ok.mp hstep
      have hspent := Cache.commandBlock_spent hs ((h.flight _).mpr ⟨a.conn, P, hP, rfl⟩) hblock
      cases hstep
      exact hspent
    · cases hstep
      exact .inl rfl
  · -- a retrieval
    split_ifs at hstep
    · cases hstep
      exact .inl rfl
    · obtain ⟨⟨s', r⟩, hget, hstep⟩ := Result.bind_eq_ok.mp hstep
      have hslab := Cache.commandGet_slab hget
      cases r
      all_goals
        cases hstep
        exact .inl hslab
  · -- a removal
    obtain ⟨⟨s', b⟩, hremove, hstep⟩ := Result.bind_eq_ok.mp hstep
    have hslab := Cache.removeKey_slab hremove
    cases b
    all_goals
      cases hstep
      exact .inl hslab
  · cases hstep
    exact .inl rfl

/-- A free connection is told `noMemory` just when `do_item_alloc` has nothing for its line. -/
theorem reply_noMemory_iff (h : Inv st g) (hstep : st.step a = .ok st') {L : StoreLine}
    {hcmd : L.cmd ≠ .error} (hreq : a.req = .store L hcmd) (hfree : st.pending a.conn = none) :
    st'.reply = .noMemory ↔ ¬st.cache.slab.allocOk L.key.length L.vlen := by
  rcases step_spec h a with ⟨herr, -⟩ | ⟨st'', g', acts, hok, -, -, hacts⟩
  · rw [herr] at hstep
    cases hstep
  rw [hok] at hstep
  cases hstep
  cases hacts with
  | ignored hno hst => exact absurd (by simp [Allowed, hreq, hfree]) hno
  | accepted L' hcmd' hreq' hfree' it acts hline hpend hreply =>
    obtain rfl : L' = L := by
      rw [hreq] at hreq'
      cases hreq'
      rfl
    cases hline with
    | granted it hok => exact iff_of_false (by simp [hreply]) (not_not_intro hok)
  | refused L' hcmd' hreq' hfree' acts hline hpend hreply =>
    obtain rfl : L' = L := by
      rw [hreq] at hreq'
      cases hreq'
      rfl
    cases hline with
    | refused hno => exact iff_of_true hreply hno
    | removed acts b hno => exact iff_of_true hreply hno
  | longKey k hreq' | get k hreq' | delete k hreq' | block P bytes hreq' =>
    rw [hreq] at hreq'
    cases hreq'

/-- The class has no memory: items of no size have a class 0. -/
def Depleted (id : ℕ) (b : Slab) : Prop := id = 0 ∨ b.Exhausted id

theorem Depleted.not_allocOk {b : Slab} {nkey : ℕ} {nbytes : ℤ}
    (h : Depleted (b.slabsClsid (ntotal nkey nbytes)) b) : ¬b.allocOk nkey nbytes := fun hok =>
  h.elim hok.1 fun hex => hex.not_grants hok.2

theorem depleted_of_not_allocOk {b : Slab} (hlisted : ∀ id, (b.cls id).Listed)
    (hmalloc : ∀ n, b.mallocOk n = true)
    {nkey : ℕ} {nbytes : ℤ} (h : ¬b.allocOk nkey nbytes) :
    Depleted (b.slabsClsid (ntotal nkey nbytes)) b := by
  rcases not_and_or.mp h with hzero | hgrants
  · exact .inl (not_not.mp hzero)
  · exact .inr (Slab.exhausted_of_not_grants (hlisted _) hmalloc hgrants)

/-- What holds of the allocator along a run that began with `b`. -/
structure Spending (b : Slab) (st : Service) : Prop where
  shape : ∃ g, Inv st g
  table : b.SameTable st.cache.slab
  kept : ∀ id, Depleted id b → Depleted id st.cache.slab
  accounted : b.Accounted → st.cache.slab.Accounted

theorem Spending.refl (h : ∃ g, Inv st g) : Spending st.cache.slab st :=
    ⟨h, .refl _, fun _ hid => hid, fun hb => hb⟩

theorem Spending.step {b : Slab} (h : Spending b st) (hstep : st.step a = .ok st') : Spending b st' := by
  obtain ⟨g, hinv⟩ := h.shape
  have hspent := hinv.spent hstep
  exact ⟨inv_step h.shape hstep, h.table.trans hspent.table,
    fun id hid => (h.kept id hid).imp_right hspent.exhausted, fun hb => hspent.accounted (h.accounted hb)⟩

theorem spending_of_run (hinv : ∃ g, Inv st g) {as : List Action} (hrun : run step st as = .ok st') :
    Spending st.cache.slab st' :=
  invariant_run (I := Spending st.cache.slab) (fun _ _ _ h hstep => h.step hstep)
    (.refl hinv) hrun

/-- No item of this class is handed out: neither to `do_item_alloc`, nor to a storage line. -/
structure Refuses (id : ℕ) (st : Service) : Prop where
  alloc : ∀ nkey nbytes, st.cache.slab.slabsClsid (ntotal nkey nbytes) = id → ¬Allocates st.cache nkey nbytes
  lines : ∀ b M hM st', b.req = .store M hM → st.cache.slab.slabsClsid (ntotal M.key.length M.vlen) = id →
    st.step b = .ok st' → st.pending b.conn = none → st'.reply = .noMemory

theorem Spending.refuses {b : Slab} (h : Spending b st) {id : ℕ} (hid : Depleted id b) : Refuses id st := by
  obtain ⟨g, hinv⟩ := h.shape
  have hdepleted := h.kept id hid
  refine ⟨fun nkey nbytes hclass => ?_, fun c M hM st' hreq hclass hstep hfree => ?_⟩
  · rintro ⟨s', it, halloc⟩
    obtain ⟨b', t, hnone, -⟩ := (hinv.sound.doItemAlloc_spec nkey nbytes).1
      (Depleted.not_allocOk (hclass ▸ hdepleted))
    rw [halloc] at hnone
    cases hnone
  · exact (reply_noMemory_iff hinv hstep hreq hfree).mpr (Depleted.not_allocOk (hclass ▸ hdepleted))

/-- Where `malloc` does not fail, a storage line that is once refused for want of memory
is refused for good: whatever is removed or expires in the meantime, no item of its class
is handed out again. -/
theorem refused_for_good {limit : ℕ} {set : Settings} {mallocOk : ℕ → Bool} {hashpower : ℕ}
    {s : Cache}
    (hinit : Cache.init limit set mallocOk hashpower = some s) (hmalloc : ∀ n, mallocOk n = true)
    {as bs : List Action} {st₁ st₂ : Service} (hrun : run step (start s) as = .ok st) {L : StoreLine}
    {hcmd : L.cmd ≠ .error} (hreq : a.req = .store L hcmd) (hstep : st.step a = .ok st₁)
    (hno : st₁.reply = .noMemory) (hafter : run step st₁ bs = .ok st₂) :
    Refuses (s.slab.slabsClsid (ntotal L.key.length L.vlen)) st₂ := by
  obtain ⟨F, -, -, -, htable⟩ := Sound.init hinit
  have hbefore : Spending s.slab st := spending_of_run (start_inv hinit) hrun
  obtain ⟨g, hinv⟩ := hbefore.shape
  have hfree : st.pending a.conn = none := by
    cases hP : st.pending a.conn with
    | none => rfl
    | some P =>
      simp only [step, hreq, hP] at hstep
      cases hstep
      cases hno
  have hmallocOk : ∀ n, st.cache.slab.mallocOk n = true := by
    rw [hbefore.table.mallocOk, htable.mallocOk]
    exact hmalloc
  have hdepleted := depleted_of_not_allocOk hinv.sound.slab.listed hmallocOk
    ((reply_noMemory_iff hinv hstep hreq hfree).mp hno)
  rw [hbefore.table.slabsClsid] at hdepleted
  have hmid : Spending st.cache.slab st₁ := (Spending.refl ⟨g, hinv⟩).step hstep
  exact (spending_of_run hmid.shape hafter).refuses (hmid.kept _ hdepleted)

/-- A third key for the class that `fillClass` has filled. -/
def thirdKey : Action := ⟨1, 0, .store (shortLine .set 99 0 0 0) set_ne_error⟩

/-- The two items of the class are removed, and asked for memory again. -/
def emptyClass : List Action := [⟨2, 0, .delete [97]⟩, ⟨2, 0, .delete [98]⟩, ⟨2, 1, .get [97]⟩]

theorem refused_for_good_fillClass : ∃ s st, Cache.init 1 smallSettings (fun _ => true) 0 = some s ∧
    run step (start s) (fillClass ++ thirdKey :: emptyClass) = .ok st ∧ st.reply = .miss ∧ Refuses 1 st := by
  have htrial : (Cache.init 1 smallSettings (fun _ => true) 0).any (fun s =>
      decide (s.slab.slabsClsid (ntotal 1 3) = 1) &&
      (run step (start s) fillClass).toOption.any fun st =>
        (st.step thirdKey).toOption.any fun st₁ => decide (st₁.reply = .noMemory) &&
          (run step st₁ emptyClass).toOption.any fun st₂ => decide (st₂.reply = .miss)) = true := by
    decide +kernel
  obtain ⟨s, hinit, hs⟩ := exists_init htrial
  obtain ⟨hclass, hs⟩ := (Bool.and_eq_true_iff ..).mp hs
  obtain ⟨st, hst, hs⟩ := (Option.any_eq_true _ _).mp hs
  obtain ⟨st₁, hst₁, hs⟩ := (Option.any_eq_true _ _).mp hs
  obtain ⟨hno, hs⟩ := (Bool.and_eq_true_iff ..).mp hs
  obtain ⟨st₂, hst₂, hmiss⟩ := (Option.any_eq_true _ _).mp hs
  have hrun := Result.eq_ok_of_toOption hst
  have hstep := Result.eq_ok_of_toOption hst₁
  have hafter := Result.eq_ok_of_toOption hst₂
  have hrefuses := refused_for_good hinit (fun _ => rfl) hrun rfl hstep (of_decide_eq_true hno) hafter
  refine ⟨s, st₂, hinit, (run_append_eq_ok step).mpr ⟨st, hrun, ?_⟩, of_decide_eq_true hmiss, ?_⟩
  · rw [run_cons_ok step hstep]
    exact hafter
  · rwa [← of_decide_eq_true hclass]

end Service

/-! ### The chunks that were ever handed out -/

def Act.isGrant : Act → Bool
  | .grant .. => true
  | _ => false

/-- The number of chunks that the steps hand out. -/
def Act.grants (acts : List Act) : ℕ := acts.countP Act.isGrant

/-- `n` different chunks are in use. -/
def InUse (x : Cache × Shape) (n : ℕ) : Prop :=
  ∃ l : List Ptr, l.Nodup ∧ l.length = n ∧ ∀ p ∈ l, (∃ j, p ∈ (x.1.slab.cls j).chunks) ∧ ∀ j, p ∉ x.2.free j

theorem InUse.step {x y : Cache × Shape} {a : Act} {n : ℕ} (h : InUse x n) (hp : Prim x a y) :
    InUse y (n + a.isGrant.toNat) := by
  obtain ⟨l, hnodup, hlen, hl⟩ := h
  cases hp with
  | @grant s s' g g' it size id hg =>
    have hnew : it ∉ l := fun hit => by
      obtain ⟨⟨j, hj⟩, hfree⟩ := hl it hit
      exact hfree id (hg.alloc.wasFree j hj)
    refine ⟨it :: l, List.nodup_cons.mpr ⟨hnew, hnodup⟩, congrArg (· + 1) hlen, fun p hpl => ?_⟩
    rcases List.mem_cons.mp hpl with rfl | hpl
    · exact ⟨⟨id, hg.alloc.mem_chunks⟩, hg.alloc.notFree⟩
    · obtain ⟨⟨j, hj⟩, hfree⟩ := hl p hpl
      exact ⟨⟨j, hg.alloc.chunks_subset j hj⟩, (hg.alloc.used j p hj (hfree j)).2⟩
  | refuse hb =>
    refine ⟨l, hnodup, hlen, fun p hpl => ⟨?_, (hl p hpl).2⟩⟩
    obtain ⟨j, hj⟩ := (hl p hpl).1
    exact ⟨j, (hb.chunks j).symm ▸ hj⟩
  | _ => exact ⟨l, hnodup, hlen, hl⟩

theorem InUse.steps {s s' : Cache} {g g' : Shape} {acts : List Act} {n : ℕ} (h : InUse (s, g) n)
    (hsteps : Steps s g acts s' g') : InUse (s', g') (n + Act.grants acts) := by
  induction acts generalizing s g n with
  | nil =>
    cases hsteps
    exact h
  | cons a acts ih =>
    cases hsteps with
    | cons hstep hrest =>
      have hnext := ih (h.step hstep) hrest
      have hsum : n + Act.grants (a :: acts) = n + a.isGrant.toNat + Act.grants acts := by
        rw [Act.grants, List.countP_cons, ← Act.grants]
        cases a.isGrant
        · rfl
        · simp only [Bool.toNat_true, if_true]
          omega
      rwa [hsum]

theorem Act.grants_eq_zero {acts : List Act} (h : ∀ a ∈ acts, a.fresh = none) : Act.grants acts = 0 :=
  List.countP_eq_zero.mpr fun a ha hgrant => by
    have hnone := h a ha
    cases a <;> simp_all [Act.isGrant, Act.fresh]

theorem Act.grants_append (as bs : List Act) : Act.grants (as ++ bs) = Act.grants as + Act.grants bs :=
  List.countP_append ..

section Operations

variable {s : Cache} {g : Shape} {k : List UInt8} {acts : List Act}

/-- The item of a storage line is a chunk of its own. -/
theorem LineActs.grants {L : StoreLine} {r : Option Ptr} (h : LineActs s g L acts r) :
    Act.grants acts = r.isSome.toNat := by
  cases h with
  | granted it => rfl
  | refused => rfl
  | removed acts b hno hcmd hrem => exact Act.grants_eq_zero (List.forall_mem_cons.mpr ⟨rfl, hrem.fresh⟩)

theorem isGrant_linkAct (s : Cache) (it : Ptr) : (linkAct s it).isGrant = false := by
  unfold linkAct
  split_ifs <;> rfl

/-- A successful append or prepend takes one more chunk, for the joined item. -/
theorem StoreActs.grants {it : Ptr} {cmd : Nread} {stat : StoreStat} (h : StoreActs s g it cmd acts stat) :
    Act.grants acts = (decide (cmd = .append ∨ cmd = .prepend) && decide (stat = .STORED)).toNat := by
  cases h with
  | joined old new acts hget hcmd hcas hok hnew =>
    rw [Act.grants_append, Act.grants_eq_zero hget.fresh]
    simp [Act.grants, Act.isGrant, List.countP_cons, hcmd]
  | noKey acts hget hcmd
  | stale old acts hget hcmd hcas
  | full old acts hget hcmd hcas hno =>
    rw [Act.grants_append, Act.grants_eq_zero hget.fresh]
    simp [Act.grants, Act.isGrant]
  | taken old acts hget hcmd =>
    rw [Act.grants_append, Act.grants_append, Act.grants_eq_zero hget.fresh,
      Act.grants_eq_zero (touchActs_fresh s old)]
    simp [Act.grants, Act.isGrant]
  | new acts hget hcmd
  | replaced old acts hget hcmd =>
    rw [Act.grants_append, Act.grants_eq_zero hget.fresh]
    simp only [Act.grants, List.countP_cons, isGrant_linkAct]
    rcases hcmd with rfl | rfl | rfl <;> rfl
  | swapped old acts hget hcmd hcas =>
    rw [Act.grants_append, Act.grants_eq_zero hget.fresh]
    simp only [Act.grants, List.countP_cons, isGrant_linkAct]
    rw [hcmd]
    rfl

end Operations

namespace Service

/-- The items that a step hands out: one to a storage line, and one for the joined value of
an append or prepend. -/
def handsOut (st : Service) (a : Action) (st' : Service) : ℕ :=
  (decide (st'.reply = .waiting)).toNat +
    ((st.pending a.conn).any fun P => decide (P.line.cmd = .append ∨ P.line.cmd = .prepend) &&
      decide (st'.reply = .stored .STORED)).toNat

/-- What an action hands out, it hands out in different chunks. -/
theorem StepActs.grants {st st' : Service} {g : Shape} {a : Action} {acts : List Act}
    (h : StepActs st g a acts st') : Act.grants acts = handsOut st a st' := by
  have hquiet : ∀ {r : Reply}, st'.reply = r → r ≠ .waiting → (∀ stat, r ≠ .stored stat) →
      Act.grants acts = 0 → Act.grants acts = handsOut st a st' := by
    rintro r rfl hwaiting hstored hzero
    rw [hzero, handsOut]
    cases st.pending a.conn with
    | none => simp [hwaiting]
    | some P => simp [hwaiting, hstored]
  cases h with
  | ignored hno hst => exact hquiet (congrArg Service.reply hst) (by simp) (by simp) rfl
  | longKey k hreq hk hst => exact hquiet (congrArg Service.reply hst) (by simp) (by simp) rfl
  | get k hreq hfree hk acts r hget hpend hreply =>
    refine hquiet hreply (by cases r <;> simp) (by cases r <;> simp) (Act.grants_eq_zero ?_)
    simpa [Act.fresh, or_imp, forall_and] using hget.fresh
  | delete k hreq hfree acts b hrem hpend hreply =>
    exact hquiet hreply (by cases b <;> simp) (by cases b <;> simp) (Act.grants_eq_zero hrem.fresh)
  | accepted L hcmd hreq hfree it acts hline hpend hreply => simp [hline.grants, handsOut, hfree, hreply]
  | refused L hcmd hreq hfree acts hline hpend hreply => exact hquiet hreply (by simp) (by simp) hline.grants
  | block P bytes hreq hP hlen acts stat hstore hlinked hkept hpend hreply =>
    rw [List.cons_append, List.cons_append]
    have hends : Act.grants (.fill P.it (st.cache.items.itemFlag P.it) :: .quiet :: (acts ++ [.quiet])) =
        Act.grants acts := by
      simp [Act.grants, Act.isGrant]
    simp [hends, hstore.grants, handsOut, hP, hreply]

/-- The state, and the number of items that were handed out. -/
structure HandedOut (b : Slab) (st : Service) (n : ℕ) : Prop where
  spending : Spending b st
  inUse : ∃ g, Inv st g ∧ InUse (st.cache, g) n

theorem HandedOut.step {b : Slab} {st st' : Service} {a : Action} {n : ℕ} (h : HandedOut b st n)
    (hstep : st.step a = .ok st') : HandedOut b st' (n + handsOut st a st') := by
  obtain ⟨g, hinv, hn⟩ := h.inUse
  refine ⟨h.spending.step hstep, ?_⟩
  rcases step_spec hinv a with ⟨herr, -⟩ | ⟨st'', g', acts, hok, hinv', hsteps, hacts⟩
  · rw [herr] at hstep
    cases hstep
  rw [hok] at hstep
  cases hstep
  have hat : InUse (st.at_ a, g) n := hn
  have hafter := hat.steps hsteps
  rw [hacts.grants] at hafter
  exact ⟨g', hinv', hafter⟩

/-- A server with a memory limit hands out a bounded number of items in all its life: at
the size of the smallest class they fit into the limit and one page for each class. -/
theorem lifetime_bounded {limit : ℕ} {set : Settings} {mallocOk : ℕ → Bool} {hashpower : ℕ} {s : Cache}
    (hinit : Cache.init limit set mallocOk hashpower = some s) (hlimit : limit ≠ 0) {as : List Action}
    {st : Service} (hrun : run step (start s) as = .ok st) :
    total step handsOut (start s) as * (s.slab.cls 1).size ≤
    limit + s.slab.powerLargest * set.itemSizeMax := by
  obtain ⟨F, hs, -, -, htable⟩ := Sound.init hinit
  have hstart : HandedOut s.slab (start s) 0 :=
    ⟨.refl (start_inv hinit), _, start_inv_fresh hs, [], List.nodup_nil, rfl, by simp⟩
  have hend : HandedOut s.slab st (0 + total step handsOut (start s) as) :=
    total_run (fun _ _ _ _ h hstep => h.step hstep) hstart hrun
  rw [Nat.zero_add] at hend
  obtain ⟨g, hinv, l, hnodup, hlen, hl⟩ := hend.inUse
  have hbooks : s.slab.Accounted := by
    obtain ⟨⟨m, b⟩, hslab, rfl⟩ := Option.map_eq_some_iff.mp hinit
    exact Slab.Accounted.init hslab
  have hwell := ((Slab.build_wellSized limit set mallocOk).congr htable).congr hend.spending.table
  have haccounted := hend.spending.accounted hbooks
  have hmemLimit : st.cache.slab.memLimit = limit := hend.spending.table.memLimit.trans htable.memLimit
  rw [← hlen, ← hend.spending.table.size, ← hend.spending.table.powerLargest]
  calc l.length * (st.cache.slab.cls 1).size
      ≤ st.cache.slab.chunkCount * (st.cache.slab.cls 1).size :=
        Nat.mul_le_mul_right _ (hinv.sound.slab.length_le hnodup fun p hp => (hl p hp).1)
    _ ≤ st.cache.slab.pagesTotal := Slab.chunkCount_mul_le hinv.sound.slab hwell
    _ = st.cache.slab.memMalloced := haccounted.malloced.symm
    _ ≤ limit + st.cache.slab.firstPages := by
        rw [← hmemLimit]
        exact haccounted.le_limit (hmemLimit ▸ hlimit)
    _ ≤ limit + st.cache.slab.powerLargest * set.itemSizeMax :=
        Nat.add_le_add_left (Slab.firstPages_le hwell) _

theorem lifetime_bounded_fillClass : ∃ s st, Cache.init 1 smallSettings (fun _ => true) 0 = some s ∧
    run step (start s) (fillClass ++ thirdKey :: emptyClass) = .ok st ∧
    2 * (s.slab.cls 1).size ≤ 1 + s.slab.powerLargest * smallSettings.itemSizeMax := by
  have htrial : (Cache.init 1 smallSettings (fun _ => true) 0).any (fun s =>
      decide (total step handsOut (start s) (fillClass ++ thirdKey :: emptyClass) = 2) &&
      (run step (start s) (fillClass ++ thirdKey :: emptyClass)).toOption.isSome) = true := by
    decide +kernel
  obtain ⟨s, hinit, hs⟩ := exists_init htrial
  obtain ⟨htotal, hs⟩ := (Bool.and_eq_true_iff ..).mp hs
  obtain ⟨st, hst⟩ := Option.isSome_iff_exists.mp hs
  have hrun := Result.eq_ok_of_toOption hst
  have hbound := lifetime_bounded hinit (by decide) hrun
  rw [of_decide_eq_true htotal] at hbound
  exact ⟨s, st, hinit, hrun, hbound⟩

end Service

end MiniMemcached
