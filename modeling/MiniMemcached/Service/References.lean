import MiniMemcached.Service.UniqueKeys

/-! The reference counters. A step that takes a reference and one that gives it back
are paired within each action, except for the lookup of `get`, which keeps the
reference of a live item for good, and for a successful `append` or `prepend`,
which gives back a reference to the joined item that was never taken. -/

namespace MiniMemcached

open MiniMemcached.Lists Runs

/-- The references that an action holds while it goes on. -/
inductive HeldStep : Set Ptr → Act → Set Ptr → Prop
  | ref {A : Set Ptr} {p : Ptr} (hp : p ∉ A) : HeldStep A (.ref p) (insert p A)
  | unref {A : Set Ptr} {p : Ptr} (hp : p ∈ A) : HeldStep A (.unref p) {q | q ∈ A ∧ q ≠ p}
  | other {A : Set Ptr} {a : Act} (ha : ∀ p, a ≠ .ref p ∧ a ≠ .unref p) : HeldStep A a A

open Classical in
/-- The counter of an item that has been linked: one for `ITEM_LINKED`, and one for a
reference held. -/
noncomputable def references (m : Items) (A : Set Ptr) (p : Ptr) : UInt32 :=
  (if m.itemFlag p &&& Slab.ITEM_LINKED ≠ 0 then 1 else 0) + if p ∈ A then 1 else 0

structure Counted (x : Cache × Shape) (A : Set Ptr) : Prop where
  sound : Sound x.1 x.2
  linked : ∀ p ∈ x.1.everLinked, x.1.items.refcount p = references x.1.items A p
  inFlight : ∀ p ∈ x.2.inFlight, x.1.items.refcount p = 0
  held : ∀ p ∈ A, p ∈ x.1.everLinked
  positive : ∀ p, Event.fetchSub p 0 ∉ x.1.trace

theorem references_congr {m n : Items} {A B : Set Ptr} {p : Ptr}
    (hf : n.itemFlag p &&& Slab.ITEM_LINKED = m.itemFlag p &&& Slab.ITEM_LINKED)
    (hA : p ∈ B ↔ p ∈ A) : references n B p = references m A p := by
  unfold references
  rw [hf]
  by_cases hpA : p ∈ A
  · rw [if_pos hpA, if_pos (hA.mpr hpA)]
  · rw [if_neg hpA, if_neg fun hpB => hpA (hA.mp hpB)]

theorem references_ne_zero {m : Items} {A : Set Ptr} {p : Ptr}
    (h : m.itemFlag p &&& Slab.ITEM_LINKED ≠ 0 ∨ p ∈ A) : references m A p ≠ 0 := by
  unfold references
  rcases h with h | h
  · rw [if_pos h]
    split_ifs <;> decide
  · rw [if_pos h]
    split_ifs <;> decide

/-- A step that changes no counter and no link of the items in use. -/
theorem Counted.of_same {x y : Cache × Shape} {A : Set Ptr} {a : Act} (h : Counted x A)
    (hp : Prim x a y) (hE : ∀ p, a ≠ .link p) (hr : ∀ p ∈ x.1.everLinked,
      y.1.items.refcount p = x.1.items.refcount p ∧
        y.1.items.itemFlag p &&& Slab.ITEM_LINKED = x.1.items.itemFlag p &&& Slab.ITEM_LINKED)
    (hfl : ∀ p ∈ y.2.inFlight, y.1.items.refcount p = 0)
    (ht : ∀ p, .fetchSub p 0 ∈ y.1.trace → .fetchSub p 0 ∈ x.1.trace) : Counted y A := by
  have hsame : ∀ p, p ∈ y.1.everLinked ↔ p ∈ x.1.everLinked := fun p => by
    rw [hp.everLinked p]
    exact ⟨fun h => h.resolve_left (hE p), .inr⟩
  refine ⟨hp.sound h.sound, fun p hpE => ?_, hfl, fun p hpA => (hsame p).mpr (h.held p hpA),
    fun p hpt => h.positive p (ht p hpt)⟩
  rw [hsame] at hpE
  rw [(hr p hpE).1, h.linked p hpE, references_congr (hr p hpE).2 Iff.rfl]

namespace Counted

variable {s : Cache} {g : Shape} {A : Set Ptr} {p q it : Ptr}

/-- A reference is taken that was not held. -/
theorem ref (h : Counted (s, g) A) (hpE : p ∈ s.everLinked) (hpA : p ∉ A) :
    Counted (s.fetchAdd p, g) (insert p A) := by
  refine ⟨(Prim.ref hpE).sound h.sound, fun q hq => ?_, fun q hq => ?_, fun q hq => ?_, h.positive⟩
  · have hq' : s.items.refcount q = references s.items A q := h.linked q hq
    by_cases hqp : q = p
    · subst hqp
      simp [Cache.fetchAdd, Items.setRefcount, references, hq', hpA]
    · have hsame := references_congr (m := s.items) (n := (s.fetchAdd p).items) (A := A)
        (B := insert p A) (p := q) rfl (by simp [hqp])
      simpa [Cache.fetchAdd, Items.setRefcount, hqp, hq'] using hsame.symm
  · have hne : q ≠ p := fun e => h.sound.unlinked q hq (e ▸ hpE)
    simpa [Cache.fetchAdd, Items.setRefcount, hne] using h.inFlight q hq
  · rcases hq with rfl | hq
    · exact hpE
    · exact h.held q hq

/-- The counter is not zero when a reference is given back. -/
theorem positive_cons (h : Counted (s, g) A) (hpE : p ∈ s.everLinked)
    (hpos : references s.items A p ≠ 0) (q : Ptr) :
    Event.fetchSub q 0 ∉ Event.fetchSub p (s.items.refcount p) :: s.trace := by
  intro hq
  rcases List.mem_cons.mp hq with hq | hq
  · simp only [Event.fetchSub.injEq] at hq
    exact hpos ((h.linked p hpE).symm.trans hq.2.symm)
  · exact h.positive q hq

/-- A reference that was held is given back. -/
theorem unref (h : Counted (s, g) A) (hpE : p ∈ s.everLinked) (hpA : p ∈ A) :
    Counted (s.fetchSub p, g) {q | q ∈ A ∧ q ≠ p} := by
  have hp' : s.items.refcount p = references s.items A p := h.linked p hpE
  refine ⟨(Prim.unref hpE).sound h.sound, fun q hq => ?_, fun q hq => ?_, fun q hq => h.held q hq.1,
    h.positive_cons hpE (references_ne_zero (.inr hpA))⟩
  · have hq' : s.items.refcount q = references s.items A q := h.linked q hq
    by_cases hqp : q = p
    · subst hqp
      simp [Cache.fetchSub, Cache.emit, Items.setRefcount, references, hp', hpA]
    · have hsame := references_congr (m := s.items) (n := (s.fetchSub p).items) (A := A)
        (B := {q | q ∈ A ∧ q ≠ p}) (p := q) rfl (by simp [hqp])
      simpa [Cache.fetchSub, Cache.emit, Items.setRefcount, hqp, hq'] using hsame.symm
  · have hne : q ≠ p := fun e => h.sound.unlinked q hq (e ▸ hpE)
    simpa [Cache.fetchSub, Cache.emit, Items.setRefcount, hne] using h.inFlight q hq

/-- The reference of `ITEM_LINKED` goes with the flag. -/
theorem unlink {f : Ptr → Option Ptr} {P : ℕ → Option Ptr} {c : UInt32} (h : Counted (s, g) A)
    (hsound : Sound (s.unlinked p f P c) (g.dropped s p)) (hpE : p ∈ s.everLinked)
    (hf : s.items.itemFlag p &&& Slab.ITEM_LINKED ≠ 0) : Counted (s.unlinked p f P c, g.dropped s p) A := by
  have hp' : s.items.refcount p = references s.items A p := h.linked p hpE
  refine ⟨hsound, fun q hq => ?_, fun q hq => ?_, h.held,
    h.positive_cons hpE (references_ne_zero (.inl hf))⟩
  · have hq' : s.items.refcount q = references s.items A q := h.linked q hq
    by_cases hqp : q = p
    · subst hqp
      simp only [Cache.unlinked, references, hp', Function.update_self, clearLinked_linked, if_pos hf,
        ne_eq, not_true_eq_false, if_false]
      split_ifs <;> decide
    · have hsame := references_congr (m := s.items) (n := (s.unlinked p f P c).items) (A := A)
        (B := A) (p := q) (by simp [Cache.unlinked, hqp]) Iff.rfl
      simpa [Cache.unlinked, hqp, hq'] using hsame.symm
  · have hne : q ≠ p := fun e => h.sound.unlinked q hq (e ▸ hpE)
    simpa [Cache.unlinked, hne] using h.inFlight q hq

/-- It comes with the flag, to an item that had none. -/
theorem link {Q : Set Ptr} {hv : UInt32} (h : Counted (s, g) A)
    (hsound : Sound (s.linked it hv) (g.inserted s it Q))
    (hever : ∀ q, q ∈ (s.linked it hv).everLinked ↔ q = it ∨ q ∈ s.everLinked) (hit : it ∈ g.inFlight) :
    Counted (s.linked it hv, g.inserted s it Q) A := by
  refine ⟨hsound, fun q hq => ?_, fun q hq => ?_, fun q hq => (hever q).mpr (.inr (h.held q hq)), fun q hq =>
    h.positive q (by simpa [Cache.linked] using hq)⟩
  · by_cases hqi : q = it
    · subst hqi
      have hA : q ∉ A := fun hqA => h.sound.unlinked q hit (h.held q hqA)
      have hr : s.items.refcount q = 0 := h.inFlight q hit
      simp [Cache.linked, references, hr, setLinked_linked, hA]
    · have hq' : s.items.refcount q = references s.items A q :=
        h.linked q (((hever q).mp hq).resolve_left hqi)
      simp [Cache.linked, references, hq', hqi]
  · have hq' : s.items.refcount q = 0 := h.inFlight q hq.1
    simpa [Cache.linked, hq.2] using hq'

/-- A new item has no reference. -/
theorem grant {s' : Cache} {g' : Shape} {size id : ℕ} (h : Counted (s, g) A)
    (hg : s.Grant g s' g' size id it) :
    Counted (s', g') A := by
  have hsame : ∀ q, q ∈ s.everLinked ∨ q ∈ g.inFlight → SameAt s.items s'.items q := fun q hq => by
    obtain ⟨⟨j, hj⟩, hfree⟩ := h.sound.used q hq
    exact (hg.alloc.used j q hj (hfree j)).1
  refine h.of_same (Prim.grant hg) (by simp) (fun q hq => ?_) (fun q hq => ?_) fun q hq => ?_
  · exact ⟨(hsame q (.inl hq)).refcount, by rw [(hsame q (.inl hq)).itemFlag]⟩
  · rw [hg.inFlight] at hq
    rcases hq with rfl | hq
    · exact hg.alloc.refcount
    · exact ((hsame q (.inr hq)).refcount).trans (h.inFlight q hq)
  · obtain ⟨t, ht, -, hf⟩ := hg.trace
    rw [ht] at hq
    exact (List.mem_append.mp hq).resolve_left (hf q 0)

/-- One primitive step keeps the count. -/
theorem step {x y : Cache × Shape} {A B : Set Ptr} {a : Act} (h : Counted x A)
    (hp : Prim x a y) (hh : HeldStep A a B) : Counted y B := by
  have hstep := hp
  cases hp with
  | @ref s g p hpE =>
    cases hh with
    | other ha => exact absurd rfl (ha p).1
    | ref hpA => exact h.ref hpE hpA
  | @unref s g p hpE =>
    cases hh with
    | other ha => exact absurd rfl (ha p).2
    | unref hpA => exact h.unref hpE hpA
  | unlink hpE hf hB =>
    cases hh with
    | other ha => exact h.unlink (hstep.sound h.sound) hpE hf
  | link hit hkey hf hsound =>
    cases hh with
    | other ha => exact h.link hsound (fun q => by simpa [eq_comm] using hstep.everLinked q) hit
  | grant hg =>
    cases hh with
    | other ha => exact h.grant hg
  | quiet locks t hl hf | refuse hb hl hf =>
    cases hh with
    | other ha =>
      exact h.of_same hstep (by simp) (fun _ _ => ⟨rfl, rfl⟩) h.inFlight fun p hpt =>
        (List.mem_append.mp hpt).resolve_left fun hm => hf p 0 hm
  | @fetch s g p hpE =>
    cases hh with
    | other ha =>
      refine h.of_same hstep (by simp) (fun q _ => ⟨rfl, ?_⟩) h.inFlight fun _ => id
      by_cases hqp : q = p
      · subst hqp
        simp [Cache.setFlag, Items.setFlag, setFetched_linked]
      · simp [Cache.setFlag, Items.setFlag, hqp]
  | @touch s g p Q hpE hsound =>
    cases hh with
    | other ha =>
      obtain ⟨nx, pv, hitems⟩ := s.touched_form p
      refine h.of_same hstep (by simp) (fun q _ => ?_) (fun q hq => ?_) fun q hq => by
        simpa [Cache.touched] using hq
      · simp only [hitems, and_self]
      · simpa only [hitems] using h.inFlight q hq
  | @fill s g it flags m hit hn hpv hhn hr hc hf hd =>
    cases hh with
    | other ha =>
      refine h.of_same hstep (by simp) (fun q hq => ?_) (fun q hq => ?_) fun _ => id
      · have hne : q ≠ it := fun e => h.sound.unlinked it hit (e ▸ hq)
        exact ⟨congrFun hr q, by rw [(hd q hne).itemFlag]⟩
      · exact (congrFun hr q).trans (h.inFlight q hq)
  | bump hit =>
    cases hh with
    | other ha => exact h.of_same hstep (by simp) (fun _ _ => ⟨rfl, rfl⟩) h.inFlight fun _ => id
  | drop it =>
    cases hh with
    | other ha =>
      exact h.of_same hstep (by simp) (fun _ _ => ⟨rfl, rfl⟩)
        (fun q hq => h.inFlight q hq.1) fun _ => id

end Counted

/-- The references that a path takes, and gives back. -/
abbrev Holds (A : Set Ptr) (acts : List Act) (B : Set Ptr) : Prop := Path HeldStep A acts B

theorem Holds.others {l : List Act} (h : ∀ a ∈ l, ∀ p, a ≠ .ref p ∧ a ≠ .unref p) (A : Set Ptr) :
    Holds A l A := by
  induction l with
  | nil => exact .nil A
  | cons a acts ih =>
    exact .cons (.other (h a (List.mem_cons_self ..))) (ih fun b hb => h b (List.mem_cons_of_mem _ hb))

theorem Holds.take (p : Ptr) : Holds ∅ [.ref p] {p} := by
  rw [← insert_empty_eq]
  exact .single (.ref (Set.notMem_empty p))

theorem Holds.release (p : Ptr) : Holds {p} [.unref p] ∅ := by
  have hempty : {q | q ∈ ({p} : Set Ptr) ∧ q ≠ p} = ∅ := by
    ext q
    simp
  rw [← hempty]
  exact .single (.unref rfl)

theorem linkAct_other (s : Cache) (it p : Ptr) : linkAct s it ≠ .ref p ∧ linkAct s it ≠ .unref p := by
  unfold linkAct
  split_ifs <;> simp

theorem touchActs_other (s : Cache) (old p : Ptr) :
    ∀ a ∈ touchActs s old, a ≠ .ref p ∧ a ≠ .unref p := by
  unfold touchActs
  split_ifs <;> simp

/-- A lookup holds the item that it returns. -/
theorem GetActs.holds {s : Cache} {g : Shape} {k : List UInt8} {acts : List Act} {r : Option Ptr}
    (h : GetActs s g k acts r) : Holds ∅ acts {p | r = some p} := by
  have hnone : {p : Ptr | none = some p} = ∅ := by simp
  cases h with
  | miss => rw [hnone]; exact .nil ∅
  | live p =>
    have hsome : {q | some p = some q} = {p} := by
      ext q
      simp [eq_comm]
    rw [hsome]
    exact (Holds.take p).append (Holds.others (by simp) _)
  | expired p =>
    rw [hnone]
    exact ((Holds.take p).append (Holds.others (l := [.quiet, .unlink p, .quiet]) (by simp) _)).append
      (Holds.release p)

theorem GetActs.holds_none {s : Cache} {g : Shape} {k : List UInt8} {acts : List Act}
    (h : GetActs s g k acts none) : Holds ∅ acts ∅ := by
  have := h.holds
  simpa using this

theorem GetActs.holds_some {s : Cache} {g : Shape} {k : List UInt8} {acts : List Act} {p : Ptr}
    (h : GetActs s g k acts (some p)) : Holds ∅ acts {p} := by
  have := h.holds
  simpa [Set.ofPred_eq_eq_singleton'] using this

theorem RemoveActs.holds {s : Cache} {g : Shape} {k : List UInt8} {acts : List Act} {b : Bool}
    (h : RemoveActs s g k acts b) : Holds ∅ acts ∅ := by
  cases h with
  | miss acts hget =>
    exact ((Holds.others (l := [.quiet]) (by simp) _).append hget.holds_none).append
      (Holds.others (by simp) _)
  | hit p =>
    have hpre := (Holds.others (l := [.quiet]) (by simp) ∅).append (Holds.take p)
    have hmid := hpre.append (Holds.others (l := [.fetch p, .quiet, .quiet, .quiet, .unlink p,
      .quiet, .quiet, .quiet]) (by simp) _)
    exact (hmid.append (Holds.release p)).append (Holds.others (by simp) _)

theorem LineActs.holds {s : Cache} {g : Shape} {L : StoreLine} {acts : List Act} {r : Option Ptr}
    (h : LineActs s g L acts r) : Holds ∅ acts ∅ := by
  cases h with
  | granted it => exact Holds.others (by simp) _
  | refused => exact Holds.others (by simp) _
  | removed acts b hno hcmd hrem =>
    exact (Holds.others (l := [.refuse]) (by simp) _).append hrem.holds

/-- A storage command that is not a successful append or prepend. -/
theorem StoreActs.holds {s : Cache} {g : Shape} {it : Ptr} {cmd : Nread} {acts : List Act}
    {stat : StoreStat} (h : StoreActs s g it cmd acts stat)
    (hno : cmd = .append ∨ cmd = .prepend → stat ≠ .STORED) : Holds ∅ acts ∅ := by
  have hlink := linkAct_other s it
  cases h with
  | joined old new acts hget hcmd => exact absurd rfl (hno hcmd)
  | noKey acts hget => exact hget.holds_none.append (Holds.others (by simp) _)
  | new acts hget => exact hget.holds_none.append (Holds.others (by simp [hlink]) _)
  | taken old acts hget =>
    have htouch := Holds.others (fun a ha p => touchActs_other s old p a ha) {old}
    exact ((hget.holds_some.append htouch).append
      ((Holds.release old).append (Holds.others (l := [.drop it]) (by simp) _)))
  | replaced old acts hget =>
    have hpost := (Holds.others (l := [.bump it, .quiet, .unlink old, .quiet, linkAct s it])
      (by simp [hlink]) _).append (Holds.release old)
    exact hget.holds_some.append hpost
  | swapped old acts hget =>
    have hpost := (Holds.others (l := [.quiet, .unlink old, .quiet, linkAct s it])
      (by simp [hlink]) _).append (Holds.release old)
    exact hget.holds_some.append hpost
  | stale old acts hget =>
    exact hget.holds_some.append ((Holds.release old).append (Holds.others (l := [.drop it])
      (by simp) _))
  | full old acts hget =>
    exact hget.holds_some.append (((Holds.others (l := [.refuse]) (by simp) _).append
      (Holds.release old)).append (Holds.others (l := [.drop it]) (by simp) _))

namespace Service

/-- The action is no `get` of a live item, and no `append` or `prepend` whose joined
item is allocated. -/
def Releases (st : Service) (a : Action) : Prop :=
  match a.req, st.pending a.conn with
  | .get k, none => k.length ≤ KEY_MAX_LENGTH → ∀ p ∈ st.cache.found k, (st.at_ a).expired p
  | .block bytes, some P =>
    (bytes.length : ℤ) = P.line.vlen → P.line.cmd = .append ∨ P.line.cmd = .prepend →
      ∀ p ∈ st.cache.found P.line.key, ¬(st.at_ a).expired p → P.line.casId = st.cache.items.cas p →
        ¬st.cache.slab.allocOk P.line.key.length (toInt (P.line.vlen + st.cache.items.nbytes p - 2))
  | _, _ => True

instance (st : Service) (a : Action) : Decidable (st.Releases a) := by
  delta Releases
  exact match a.req, st.pending a.conn with
  | .get _, none | .get _, some _ => inferInstance
  | .delete _, none | .delete _, some _ => inferInstance
  | .store _ _, none | .store _ _, some _ => inferInstance
  | .block _, none | .block _, some _ => inferInstance

/-- Between requests each item of the table is referenced once, and no counter was
ever 0 when it was decremented. -/
structure RefsBalanced (st : Service) : Prop where
  table : st.Quiescent → ∀ b p, Reach st.cache.items.hNext (st.cache.hashtable.primaryHashtable b) p →
    st.cache.items.refcount p = 1
  positive : ∀ p, Event.fetchSub p 0 ∉ st.cache.trace

variable {st st' : Service} {g g' : Shape} {a : Action} {acts : List Act}

theorem Releases.get {k : List UInt8} (h : st.Releases a) (hreq : a.req = .get k)
    (hP : st.pending a.conn = none) :
    k.length ≤ KEY_MAX_LENGTH → ∀ p ∈ st.cache.found k, (st.at_ a).expired p := by
  rw [Releases, hreq, hP] at h
  exact h

theorem Releases.join {bytes : List UInt8} {P : Pending} (h : st.Releases a)
    (hreq : a.req = .block bytes) (hP : st.pending a.conn = some P) :
    (bytes.length : ℤ) = P.line.vlen → P.line.cmd = .append ∨ P.line.cmd = .prepend →
      ∀ p ∈ st.cache.found P.line.key, ¬(st.at_ a).expired p → P.line.casId = st.cache.items.cas p →
        ¬st.cache.slab.allocOk P.line.key.length (toInt (P.line.vlen + st.cache.items.nbytes p - 2)) := by
  rw [Releases, hreq, hP] at h
  exact h

/-- An action that meets the condition gives back every reference that it takes. -/
theorem StepActs.holds (h : StepActs st g a acts st') (hinv : Inv st g) (hC : st.Releases a) :
    Holds ∅ acts ∅ := by
  have hs := hinv.sound
  cases h with
  | ignored => exact .nil ∅
  | longKey => exact .nil ∅
  | get k hreq hfree hlen acts r hget =>
    have hnone : r = none := by
      cases hget with
      | live p hp hk hl =>
        exact absurd (hC.get hreq hfree hlen p ((hs.mem_found_iff k p).mpr ⟨hp, hk⟩)) hl
      | miss => rfl
      | expired => rfl
    subst hnone
    exact ((Holds.others (l := [.quiet]) (by simp) _).append hget.holds_none).append
      (Holds.others (by simp) _)
  | delete k hreq hfree acts b hrem => exact hrem.holds
  | accepted L hcmd hreq hfree it acts hline => exact hline.holds
  | refused L hcmd hreq hfree acts hline => exact hline.holds
  | block P bytes hreq hP hlen acts stat hstore =>
    refine ((Holds.others (l := [.fill P.it _, .quiet]) (by simp) _).append
      (hstore.holds fun hcmd hstat => ?_)).append (Holds.others (by simp) _)
    have hfill := hinv.filled _ P hP
    subst hstat
    cases hstore with
    | new acts hget hcmd'
    | replaced old acts hget hcmd'
    | swapped old acts hget hcmd' => rcases hcmd with e | e <;> simp [e] at hcmd'
    | joined old new acts hget hcmd' hcas hok =>
      cases hget with
      | live _ hp hk hl =>
        have hfind := (hs.mem_found_iff P.line.key old).mpr ⟨hp, hk.trans hfill.key⟩
        refine hC.join hreq hP hlen hcmd old hfind hl (hfill.cas.symm.trans hcas) ?_
        have hok' : st.cache.slab.allocOk (st.cache.items.nkey P.it).toNat
          (joinBytes st.cache P.it old) := hok
        rwa [hfill.nkey, joinBytes, hfill.nbytes] at hok'

theorem counted_start {F : ℕ → List Ptr} {s : Cache} (hs : Sound s (.fresh F)) (ht : s.trace = []) :
    Counted (s, .fresh F) ∅ := by
  refine ⟨hs, fun p hp => ?_, fun p hp => absurd hp (Set.notMem_empty p),
    fun p hp => absurd hp (Set.notMem_empty p), fun p hp => ?_⟩
  · obtain ⟨id, hid⟩ := hp
    simp [Cache.links, ht, Event.links] at hid
  · simp [ht] at hp

theorem refsBalanced_of_counted (h : Counted (st.cache, g) ∅) : RefsBalanced st := by
  refine ⟨fun _ b p hp => ?_, h.positive⟩
  have hp' := ((h.sound.buckets.chain b).reach_iff p).mp hp
  obtain ⟨hE, hf⟩ := h.sound.linked p ⟨b, hp'⟩
  have hr : st.cache.items.refcount p = references st.cache.items ∅ p := h.linked p hE
  rw [hr, references, if_pos hf, if_neg (Set.notMem_empty p)]
  decide

/-- In a run whose steps meet the condition the counters balance. -/
theorem refsBalanced_throughout {limit : ℕ} {set : Settings} {mallocOk : ℕ → Bool} {hashpower : ℕ}
    {s : Cache} (hinit : Cache.init limit set mallocOk hashpower = some s) {as : List Action}
    (hcond : EachStep step Releases (start s) as) : Throughout step RefsBalanced (start s) as := by
  obtain ⟨F, hs, -, ht, -⟩ := Sound.init hinit
  refine throughout_of_eachStep (L := fun _ _ => True) (C := Releases)
    (I := fun st _ => ∃ g, Inv st g ∧ Counted (st.cache, g) ∅) ?_ ?_ ?_
    (eachStep_of_forall (fun _ _ => trivial) _ as) hcond
  · rintro st a - st' ⟨g, hinv, hcount⟩ - hC hstep
    rcases step_spec hinv a with ⟨herr, -⟩ | ⟨st'', g', acts, hok, hinv', hsteps, hacts⟩
    · rw [herr] at hstep
      cases hstep
    · rw [hok] at hstep
      cases hstep
      have hclock : Counted (st.at_ a, g) ∅ :=
        ⟨hcount.sound.setClock a.now, hcount.linked, hcount.inFlight, hcount.held, hcount.positive⟩
      exact ⟨g', hinv', Path.simulation (fun _ _ _ _ _ h hp hh => h.step hp hh) hsteps
        (hacts.holds hinv hC) hclock⟩
  · rintro st - ⟨g, -, hcount⟩
    exact refsBalanced_of_counted hcount
  · exact ⟨_, start_inv_fresh hs, counted_start hs ht⟩

/-- A stored key is looked up under another key and deleted. -/
def storeAndDelete : List Action :=
  storing 1 0 (shortLine .set 97 0 0 0) set_ne_error ++ [⟨1, 0, .get [98]⟩, ⟨1, 0, .delete [97]⟩]

theorem refsBalanced_storeAndDelete : ∃ s, Cache.init 1 smallSettings (fun _ => true) 0 = some s ∧
    Throughout step RefsBalanced (start s) storeAndDelete := by
  have hcond : (Cache.init 1 smallSettings (fun _ => true) 0).any (fun s =>
      decide (EachStep step Releases (start s) storeAndDelete)) = true := by decide +kernel
  obtain ⟨s, hinit, hs⟩ := exists_init hcond
  exact ⟨s, hinit, refsBalanced_throughout hinit (of_decide_eq_true hs)⟩

/-- A stored key is looked up. -/
def storeAndGet : List Action :=
  storing 1 0 (shortLine .set 97 0 0 0) set_ne_error ++ [⟨1, 0, .get [97]⟩]

/-- After a `get` of a live key its item has two references. -/
theorem refs_unbalanced : ∃ s st, Cache.init 1 smallSettings (fun _ => true) 0 = some s ∧
    run step (start s) storeAndGet = .ok st ∧ st.Quiescent ∧ ¬RefsBalanced st := by
  have htrial : (trial 1 0 storeAndGet).any (fun st => decide ((st.pending 0).isNone) &&
      decide (st.cache.hashtable.primaryHashtable 0 = some ⟨1, 104⟩) &&
      decide (st.cache.items.refcount ⟨1, 104⟩ = 2)) = true := by decide +kernel
  obtain ⟨s, st, hinit, hrun, hp⟩ := exists_of_trial htrial
  simp only [Bool.and_eq_true, decide_eq_true_eq] at hp
  obtain ⟨⟨hpend, hhead⟩, hr⟩ := hp
  have hq : st.Quiescent := quiescent_of_one (c := 0) (by decide) hrun (by simpa using hpend)
  refine ⟨s, st, hinit, hrun, hq, fun h => ?_⟩
  have hone := h.table hq 0 ⟨1, 104⟩ (hhead ▸ .here _)
  rw [hr] at hone
  cases hone

end Service

end MiniMemcached
