import MiniMemcached.Runs.Counting
import MiniMemcached.Service.Refinement

/-! Where the reference counters go. A `get` that finds an item takes a reference to it
and keeps it, and an append or prepend gives back one to its new item that was not taken. All else is
paired, so that the counter of an item tells how often it was read. -/

namespace MiniMemcached

open MiniMemcached.Lists Runs

/-- The reference that a step takes to an item, or gives back. -/
def Act.taken (p : Ptr) : Act → UInt32
  | .ref q => if q = p then 1 else 0
  | .unref q => if q = p then -1 else 0
  | _ => 0

/-- The references that a path takes and does not give back. -/
def Act.lent (p : Ptr) : List Act → UInt32
  | [] => 0
  | a :: acts => a.taken p + lent p acts

theorem Act.lent_append (p : Ptr) (as bs : List Act) :
    Act.lent p (as ++ bs) = Act.lent p as + Act.lent p bs := by
  induction as with
  | nil => exact (UInt32.zero_add _).symm
  | cons a as ih =>
    show a.taken p + Act.lent p (as ++ bs) = a.taken p + Act.lent p as + Act.lent p bs
    rw [ih, UInt32.add_assoc]

/-- The reference that the link itself counts for. -/
def Items.linkRef (m : Items) (p : Ptr) : UInt32 := if m.itemFlag p &&& Slab.ITEM_LINKED ≠ 0 then 1 else 0

theorem Items.linkRef_congr {m n : Items} {p : Ptr}
    (h : n.itemFlag p &&& Slab.ITEM_LINKED = m.itemFlag p &&& Slab.ITEM_LINKED) :
    n.linkRef p = m.linkRef p := by
  unfold linkRef
  rw [h]

/-- The counter of an item that was ever linked: one for the link, and what was lent. -/
structure Lent (x : Cache × Shape) (p : Ptr) (n : UInt32) : Prop where
  sound : Sound x.1 x.2
  linked : p ∈ x.1.everLinked → x.1.items.refcount p = x.1.items.linkRef p + n
  inFlight : p ∈ x.2.inFlight → x.1.items.refcount p = 0
  unlinked : p ∉ x.1.everLinked → n = 0

section Steps

variable {x y : Cache × Shape} {a : Act} {p : Ptr} {n : UInt32}

/-- Only `unlink` clears the flag of an item that was ever linked. -/
theorem Prim.linkRef (hp : Prim x a y) (h : Sound x.1 x.2) (hpE : p ∈ x.1.everLinked) :
    y.1.items.linkRef p + a.taken p = x.1.items.linkRef p + a.gain p := by
  have hfly : ∀ q ∈ x.2.inFlight, q ≠ p := fun q hq e => h.unlinked q hq (e ▸ hpE)
  cases hp with
  | @unlink s g q f P c hq hf hB =>
    by_cases hqp : q = p
    · subst hqp
      simp only [Items.linkRef, Cache.unlinked, Function.update_self, clearLinked_linked, if_pos hf, Act.gain,
        Act.taken, if_true, ne_eq, not_true_eq_false, if_false]
      rfl
    · have hne : p ≠ q := fun e => hqp e.symm
      simp [Items.linkRef, Cache.unlinked, Act.gain, Act.taken, hqp, hne]
  | @fetch s g q hq =>
    refine congrArg (· + (0 : UInt32)) (Items.linkRef_congr ?_)
    by_cases hqp : p = q
    · subst hqp
      simp [Cache.setFlag, Items.setFlag, setFetched_linked]
    · simp [Cache.setFlag, Items.setFlag, hqp]
  | @touch s g q Q hq hsound =>
    obtain ⟨nx, pv, hitems⟩ := s.touched_form q
    exact congrArg (· + (0 : UInt32)) (Items.linkRef_congr (by simp [hitems]))
  | @grant s s' g g' it size id hg =>
    obtain ⟨⟨j, hj⟩, hfree⟩ := h.used p (.inl hpE)
    have hsame := (hg.alloc.used j p hj (hfree j)).1.itemFlag
    exact congrArg (· + (0 : UInt32)) (Items.linkRef_congr (by rw [hsame]))
  | @fill s g it flags m hit hn hpv hhn hr hc hf hd =>
    have hsame := (hd p fun e => hfly it hit e.symm).itemFlag
    exact congrArg (· + (0 : UInt32)) (Items.linkRef_congr (by rw [hsame]))
  | @link s g it Q hit hkey hf hsound =>
    have hne : p ≠ it := fun e => hfly it hit e.symm
    exact congrArg (· + (0 : UInt32)) (Items.linkRef_congr (by simp [Cache.linked, hne]))
  | _ => rfl

/-- The counters of the items in flight are 0. -/
theorem Prim.refcount_inFlight (hp : Prim x a y) (h : Sound x.1 x.2)
    (hzero : p ∈ x.2.inFlight → x.1.items.refcount p = 0) (hy : p ∈ y.2.inFlight) :
    y.1.items.refcount p = 0 := by
  have hne : ∀ q ∈ x.1.everLinked, p ∈ x.2.inFlight → p ≠ q := fun q hq hpx e => h.unlinked p hpx (e ▸ hq)
  cases hp with
  | ref hq => simpa [Cache.fetchAdd, Items.setRefcount, hne _ hq hy] using hzero hy
  | unref hq => simpa [Cache.fetchSub, Cache.emit, Items.setRefcount, hne _ hq hy] using hzero hy
  | unlink hq hf hB => simpa [Cache.unlinked, hne _ hq hy] using hzero hy
  | @touch s g q Q hq hsound =>
    obtain ⟨nx, pv, hitems⟩ := s.touched_form q
    simpa [hitems] using hzero hy
  | @grant s s' g g' it size id hg =>
    rw [hg.inFlight] at hy
    rcases hy with rfl | hy
    · exact hg.alloc.refcount
    · obtain ⟨⟨j, hj⟩, hfree⟩ := h.used p (.inr hy)
      exact (hg.alloc.used j p hj (hfree j)).1.refcount.trans (hzero hy)
  | @fill s g it flags m hit hn hpv hhn hr hc hf hd => exact (congrFun hr p).trans (hzero hy)
  | link hit hkey hf hsound => simpa [Cache.linked, hy.2] using hzero hy.1
  | drop it => exact hzero hy.1
  | _ => exact hzero hy

/-- A primitive step lends what it takes. -/
theorem Lent.step (h : Lent x p n) (hp : Prim x a y) : Lent y p (n + a.taken p) := by
  refine ⟨hp.sound h.sound, fun hpE => ?_, hp.refcount_inFlight h.sound h.inFlight, fun hpE => ?_⟩
  · by_cases hold : p ∈ x.1.everLinked
    · have hcount := hp.refcount h.sound hold
      have hlink := hp.linkRef h.sound hold
      calc y.1.items.refcount p = x.1.items.linkRef p + n + a.gain p := by rw [hcount, h.linked hold]
        _ = x.1.items.linkRef p + a.gain p + n := by
          rw [UInt32.add_assoc, UInt32.add_comm n, UInt32.add_assoc]
        _ = y.1.items.linkRef p + a.taken p + n := by rw [hlink]
        _ = y.1.items.linkRef p + (n + a.taken p) := by rw [UInt32.add_assoc, UInt32.add_comm n]
    · obtain rfl := ((hp.everLinked p).mp hpE).resolve_right hold
      have hzero := h.unlinked hold
      subst hzero
      cases hp with
      | @link s g it Q hit hkey hf hsound =>
        have hr : s.items.refcount p = 0 := h.inFlight hit
        simp [Cache.linked, Items.linkRef, hr, setLinked_linked, Act.taken]
  · have hold : p ∉ x.1.everLinked := fun hx => hpE ((hp.everLinked p).mpr (.inr hx))
    rw [h.unlinked hold, UInt32.zero_add]
    cases hp with
    | ref hq =>
      have hne : ¬_ = p := fun e => hold (e ▸ hq)
      simp [Act.taken, hne]
    | unref hq =>
      have hne : ¬_ = p := fun e => hold (e ▸ hq)
      simp [Act.taken, hne]
    | _ => rfl

theorem Lent.steps {s s' : Cache} {g g' : Shape} {acts : List Act} (h : Lent (s, g) p n)
    (hsteps : Steps s g acts s' g') : Lent (s', g') p (n + Act.lent p acts) := by
  induction acts generalizing s g n with
  | nil =>
    cases hsteps
    rwa [Act.lent, UInt32.add_zero]
  | cons a acts ih =>
    cases hsteps with
    | cons hstep hrest =>
      have hnext := ih (h.step hstep) hrest
      rwa [UInt32.add_assoc] at hnext

end Steps

/-! ### What the operations lend -/

section Operations

variable {s : Cache} {g : Shape} {k : List UInt8} {acts : List Act} {p : Ptr}

/-- A lookup lends the item that it returns. -/
theorem GetActs.lent {r : Option Ptr} (h : GetActs s g k acts r) :
    Act.lent p acts = if r = some p then 1 else 0 := by
  cases h with
  | miss => rfl
  | live q =>
    simp only [Act.lent, Act.taken, Option.some.injEq]
    split_ifs <;> rfl
  | expired q =>
    simp only [Act.lent, Act.taken, reduceCtorEq, if_false]
    split_ifs <;> rfl

theorem RemoveActs.lent {b : Bool} (h : RemoveActs s g k acts b) : Act.lent p acts = 0 := by
  cases h with
  | miss acts hget =>
    rw [Act.lent_append, Act.lent, hget.lent]
    rfl
  | hit q =>
    simp only [Act.lent, Act.taken]
    split_ifs <;> rfl

theorem LineActs.lent {L : StoreLine} {r : Option Ptr} (h : LineActs s g L acts r) : Act.lent p acts = 0 := by
  cases h with
  | granted it => rfl
  | refused => rfl
  | removed acts b hno hcmd hrem =>
    rw [Act.lent, hrem.lent]
    rfl

theorem taken_linkAct (s : Cache) (it p : Ptr) : (linkAct s it).taken p = 0 := by
  unfold linkAct
  split_ifs <;> rfl

theorem lent_touchActs (s : Cache) (old p : Ptr) : Act.lent p (touchActs s old) = 0 := by
  unfold touchActs
  split_ifs <;> rfl

/-- A storage command gives back what its lookup has taken. The new item of an append or
prepend loses a reference on top of that. -/
theorem StoreActs.lent {it : Ptr} {cmd : Nread} {stat : StoreStat}
    (h : StoreActs s g it cmd acts stat) (p : Ptr) :
    Act.lent p acts = 0 ∧ ((cmd = .append ∨ cmd = .prepend) → stat ≠ .STORED) ∨
      (cmd = .append ∨ cmd = .prepend) ∧ stat = .STORED ∧
        ∃ new us vs, acts = us ++ .link new :: vs ∧ (∀ q, .unlink q ∉ vs) ∧
          Act.lent p acts = if new = p then -1 else 0 := by
  have hback : ∀ old : Ptr, (if some old = some p then (1 : UInt32) else 0) + (if old =
    p then -1 else 0) = 0 :=
    fun old => by
      simp only [Option.some.injEq]
      split_ifs <;> rfl
  cases h with
  | noKey acts hget hcmd =>
    refine .inl ⟨?_, by simp⟩
    rw [Act.lent_append, hget.lent]
    rfl
  | new acts hget hcmd =>
    refine .inl ⟨?_, by rcases hcmd with e | e | e <;> simp [e]⟩
    rw [Act.lent_append, hget.lent]
    simp only [Act.lent, taken_linkAct]
    rfl
  | taken old acts hget hcmd =>
    refine .inl ⟨?_, by simp⟩
    rw [Act.lent_append, Act.lent_append, hget.lent, lent_touchActs]
    simpa [Act.lent, Act.taken] using hback old
  | replaced old acts hget hcmd =>
    refine .inl ⟨?_, by rcases hcmd with e | e | e <;> simp [e]⟩
    rw [Act.lent_append, hget.lent]
    simp only [Act.lent, taken_linkAct]
    simpa [Act.taken] using hback old
  | swapped old acts hget hcmd hcas =>
    refine .inl ⟨?_, by simp [hcmd]⟩
    rw [Act.lent_append, hget.lent]
    simp only [Act.lent, taken_linkAct]
    simpa [Act.taken] using hback old
  | stale old acts hget hcmd hcas =>
    refine .inl ⟨?_, by simp⟩
    rw [Act.lent_append, hget.lent]
    simpa [Act.lent, Act.taken] using hback old
  | full old acts hget hcmd hcas hno =>
    refine .inl ⟨?_, by simp⟩
    rw [Act.lent_append, hget.lent]
    simpa [Act.lent, Act.taken] using hback old
  | joined old new acts hget hcmd hcas hok hnew =>
    refine .inr ⟨hcmd, rfl, new, acts ++ [.grant new (ntotal (s.items.nkey it).toNat (joinBytes s it old))
        (s.slab.slabsClsid (ntotal (s.items.nkey it).toNat (joinBytes s it old))), .fill new 0, .bump new,
      .quiet, .unlink old, .quiet], [.unref old, .unref new, .drop it], by simp, by simp, ?_⟩
    rw [Act.lent_append, hget.lent]
    simp only [Act.lent, Act.taken, UInt32.zero_add, UInt32.add_zero]
    rw [← UInt32.add_assoc, hback old, UInt32.zero_add]

end Operations

namespace Service

/-- The step is an append or prepend whose new item is `p`. -/
def joins (p : Ptr) (st : Service) (a : Action) (st' : Service) : Bool :=
  (st.pending a.conn).any fun P =>
    decide (P.line.cmd = .append ∨ P.line.cmd = .prepend) && decide (st'.reply = .stored .STORED) &&
      decide (st'.cache.found P.line.key = some p)

/-- The references that a step leaks: one when a `get` is answered with the item, and one too few
when the item is made by an append or prepend. -/
def leaks (p : Ptr) (st : Service) (a : Action) (st' : Service) : ℕ × ℕ :=
  ((decide (st'.reply = .value p)).toNat, (joins p st a st').toNat)

/-- The counter of an item, in terms of the steps so far. -/
structure Tallied (p : Ptr) (st : Service) (m : ℕ × ℕ) : Prop where
  shape : ∃ g, Inv st g ∧ Lent (st.cache, g) p (UInt32.ofNat m.1 - UInt32.ofNat m.2)
  once : m.2 ≤ 1
  unlinked : p ∉ st.cache.everLinked → m.2 = 0

variable {st st' : Service} {g g' : Shape} {a : Action} {acts : List Act} {p : Ptr}

theorem joins_of_reply (h : ∀ stat, st'.reply ≠ .stored stat) : joins p st a st' = false := by
  unfold joins
  cases st.pending a.conn with
  | none => rfl
  | some P => simp [h]

/-- What an action lends is what it leaks. -/
theorem StepActs.lent (h : StepActs st g a acts st') (hinv : Inv st g) (hinv' : Inv st' g')
    (hsteps : Steps (st.at_ a) g acts st'.cache g') (p : Ptr) :
    Act.lent p acts + UInt32.ofNat (leaks p st a st').2 = UInt32.ofNat (leaks p st a st').1 ∧
      (joins p st a st' = true → p ∉ st.cache.everLinked ∧ p ∈ st'.cache.everLinked) := by
  have hquiet : ∀ {r : Reply}, st'.reply = r → (∀ stat, r ≠ .stored stat) → r ≠ .value p →
    Act.lent p acts = 0 →
      Act.lent p acts + UInt32.ofNat (leaks p st a st').2 = UInt32.ofNat (leaks p st a st').1 ∧
        (joins p st a st' = true → p ∉ st.cache.everLinked ∧ p ∈ st'.cache.everLinked) := by
    rintro r rfl hstored hvalue hzero
    have hno : joins p st a st' = false := joins_of_reply hstored
    refine ⟨?_, fun hj => absurd (hno.symm.trans hj) (by decide)⟩
    simp [leaks, hno, hvalue, hzero]
  cases h with
  | ignored hno hst => exact hquiet (congrArg Service.reply hst) (by simp) (by simp) rfl
  | longKey k hreq hk hst => exact hquiet (congrArg Service.reply hst) (by simp) (by simp) rfl
  | get k hreq hfree hk acts r hget hpend hreply =>
    have hno : joins p st a st' = false := joins_of_reply fun stat => by cases r <;> simp [hreply]
    refine ⟨?_, fun hj => absurd (hno.symm.trans hj) (by decide)⟩
    have hsum : Act.lent p (.quiet :: acts ++ [.quiet]) = if r = some p then 1 else 0 := by
      rw [List.cons_append, Act.lent, Act.lent_append, hget.lent]
      simp [Act.lent, Act.taken]
    rw [hsum]
    cases r with
    | none => simp [leaks, hno, hreply]
    | some q =>
      by_cases hqp : q = p <;> simp [leaks, hno, hreply, hqp]
  | delete k hreq hfree acts b hrem hpend hreply =>
    exact hquiet hreply (by cases b <;> simp) (by cases b <;> simp) hrem.lent
  | accepted L hcmd hreq hfree it acts hline hpend hreply =>
    exact hquiet hreply (by simp) (by simp) hline.lent
  | refused L hcmd hreq hfree acts hline hpend hreply => exact hquiet hreply (by simp) (by simp) hline.lent
  | block P bytes hreq hP hlen acts stat hstore hlinked hkept hpend hreply =>
    have hs : Sound (st.at_ a) g := hinv.sound.setClock a.now
    have hsum : Act.lent p (.fill P.it (st.cache.items.itemFlag P.it) :: .quiet :: acts ++ [.quiet]) =
        Act.lent p acts := by
      rw [List.cons_append, List.cons_append, Act.lent, Act.lent, Act.lent_append]
      simp [Act.lent, Act.taken]
    rw [hsum]
    rcases hstore.lent p with ⟨hzero, hno⟩ | ⟨hcmd, rfl, new, us, vs, hacts, hvs, hlent⟩
    · have hj : joins p st a st' = false := by
        simp only [joins, hP, Option.any_some, hreply, Reply.stored.injEq]
        by_cases hc : P.line.cmd = .append ∨ P.line.cmd = .prepend
        · simp [hno hc]
        · simp [hc]
      refine ⟨?_, fun hjt => absurd (hj.symm.trans hjt) (by decide)⟩
      simp [leaks, hj, hreply, hzero]
    · have hlink : .link new ∈ Act.fill P.it
        (st.cache.items.itemFlag P.it) :: .quiet :: acts ++ [.quiet] := by
        simp [hacts]
      obtain ⟨hfound, -⟩ := found_linked hinv hinv' hsteps hstore hlinked hacts hvs
      have hj : joins p st a st' = decide (new = p) := by
        simp [joins, hP, hreply, hcmd, hfound]
      refine ⟨?_, fun hjt => ?_⟩
      · rw [hlent]
        by_cases hnp : new = p
        · simp only [leaks, hj, hreply, hnp, if_true, reduceCtorEq, decide_true, decide_false]
          rfl
        · simp [leaks, hj, hreply, hnp]
      · obtain rfl : new = p := by simpa [hj] using hjt
        exact ⟨hsteps.notLinked_of_link hs hlink, hsteps.everLinked_of_link hs hlink⟩

theorem Tallied.step {m : ℕ × ℕ} (h : Tallied p st m) (hstep : st.step a = .ok st') :
    Tallied p st' (m + leaks p st a st') := by
  obtain ⟨g, hinv, hlent⟩ := h.shape
  rcases step_spec hinv a with ⟨herr, -⟩ | ⟨st'', g', acts, hok, hinv', hsteps, hacts⟩
  · rw [herr] at hstep
    cases hstep
  rw [hok] at hstep
  cases hstep
  have hs : Sound (st.at_ a) g := hinv.sound.setClock a.now
  obtain ⟨hsum, hjoins⟩ := hacts.lent hinv hinv' hsteps p
  have hmono : p ∈ st.cache.everLinked → p ∈ st'.cache.everLinked := fun hp => hsteps.everLinked_mono hs hp
  have hat : Lent (st.at_ a, g) p (UInt32.ofNat m.1 - UInt32.ofNat m.2) :=
    ⟨hs, hlent.linked, hlent.inFlight, hlent.unlinked⟩
  refine ⟨⟨g', hinv', ?_⟩, ?_, fun hp => ?_⟩
  · have hafter := hat.steps hsteps
    have hsplit : UInt32.ofNat m.1 - UInt32.ofNat m.2 + Act.lent p acts =
        UInt32.ofNat (m + leaks p st a st').1 - UInt32.ofNat (m + leaks p st a st').2 := by
      rw [Prod.fst_add, Prod.snd_add, UInt32.ofNat_add, UInt32.ofNat_add, ← hsum]
      grind
    rwa [hsplit] at hafter
  · rw [Prod.snd_add]
    cases hj : joins p st a st' with
    | false => simpa [leaks, hj] using h.once
    | true => simp [leaks, hj, h.unlinked (hjoins hj).1]
  · rw [Prod.snd_add, h.unlinked fun hp' => hp (hmono hp')]
    cases hj : joins p st a st' with
    | false => simp [leaks, hj]
    | true => exact absurd (hjoins hj).2 hp

/-- The counter of an item that was read `m.1` times, and `m.2` times made by a join. -/
structure CountsReads (p : Ptr) (st : Service) (m : ℕ × ℕ) : Prop where
  once : m.2 ≤ 1
  table : ∀ b, Reach st.cache.items.hNext (st.cache.hashtable.primaryHashtable b) p →
    st.cache.items.refcount p + UInt32.ofNat m.2 = 1 + UInt32.ofNat m.1
  removed : p ∈ st.cache.everLinked → st.cache.items.itemFlag p &&& Slab.ITEM_LINKED = 0 →
    st.cache.items.refcount p + UInt32.ofNat m.2 = UInt32.ofNat m.1

theorem Tallied.countsReads {m : ℕ × ℕ} (h : Tallied p st m) : CountsReads p st m := by
  obtain ⟨g, hinv, hlent⟩ := h.shape
  have hcount : ∀ r : UInt32, st.cache.items.refcount p = r + (UInt32.ofNat m.1 - UInt32.ofNat m.2) →
      st.cache.items.refcount p + UInt32.ofNat m.2 = r + UInt32.ofNat m.1 := fun r hr => by
    rw [hr]
    grind
  refine ⟨h.once, fun b hp => ?_, fun hpE hflag => ?_⟩
  · have hpB := ((hinv.sound.buckets.chain b).reach_iff p).mp hp
    obtain ⟨hpE, hflag⟩ := hinv.sound.linked p ⟨b, hpB⟩
    have hone : st.cache.items.linkRef p = 1 := if_pos hflag
    exact hcount 1 (hone ▸ hlent.linked hpE)
  · have hnone : st.cache.items.linkRef p = 0 := if_neg (not_not_intro hflag)
    have hr := hcount 0 (hnone ▸ hlent.linked hpE)
    rwa [UInt32.zero_add] at hr

/-- In every run the counter of an item of the table is one, plus how often the item was read,
less one where it was made by an append or prepend; and that of a removed item
lacks the one for the table. -/
theorem refs_exact {limit : ℕ} {set : Settings} {mallocOk : ℕ → Bool} {hashpower : ℕ} {s : Cache}
    (hinit : Cache.init limit set mallocOk hashpower = some s) {as : List Action}
    (hrun : run step (start s) as = .ok st) (p : Ptr) :
    CountsReads p st (total step (leaks p) (start s) as) := by
  obtain ⟨F, hs, -, ht, -⟩ := Sound.init hinit
  have hnever : p ∉ s.everLinked := by
    rintro ⟨id, hid⟩
    simp [Cache.links, ht, Event.links] at hid
  have hstart : Tallied p (start s) 0 := by
    refine ⟨⟨_, start_inv_fresh hs, hs, fun hp => absurd hp hnever, fun hp => absurd hp (Set.notMem_empty p),
      fun _ => rfl⟩, Nat.zero_le _, fun _ => rfl⟩
  have hend : Tallied p st (0 + total step (leaks p) (start s) as) :=
    total_run (fun _ _ _ _ h hstep => h.step hstep) hstart hrun
  rw [zero_add] at hend
  exact hend.countsReads

/-- A key is set and appended to, and the joined item is read twice. -/
def joinThenRead : List Action :=
  appendWithId ++ [⟨1, 0, .block [121, 13, 10]⟩, ⟨1, 0, .get [97]⟩, ⟨1, 1, .get [97]⟩]

theorem refs_exact_joinThenRead : ∃ s st, Cache.init 0 smallSettings (fun _ => true) 0 = some s ∧
    run step (start s) joinThenRead = .ok st ∧ st.cache.found [97] = some ⟨6, 104⟩ ∧
    CountsReads ⟨6, 104⟩ st (2, 1) ∧ st.cache.items.refcount ⟨6, 104⟩ = 2 := by
  have htrial : (Cache.init 0 smallSettings (fun _ => true) 0).any (fun s =>
      decide (total step (leaks ⟨6, 104⟩) (start s) joinThenRead = (2, 1)) &&
      (run step (start s) joinThenRead).toOption.any fun st =>
        decide (st.cache.found [97] = some ⟨6, 104⟩ ∧ st.cache.items.refcount ⟨6, 104⟩ = 2)) = true := by
    decide +kernel
  obtain ⟨s, hinit, hs⟩ := exists_init htrial
  obtain ⟨htotal, hs⟩ := (Bool.and_eq_true_iff ..).mp hs
  obtain ⟨st, hst, hend⟩ := (Option.any_eq_true _ _).mp hs
  have hrun := Result.eq_ok_of_toOption hst
  have hcount := refs_exact hinit hrun ⟨6, 104⟩
  rw [of_decide_eq_true htotal] at hcount
  obtain ⟨hfound, hr⟩ := of_decide_eq_true hend
  exact ⟨s, st, hinit, hrun, hfound, hcount, hr⟩

end Service

end MiniMemcached
