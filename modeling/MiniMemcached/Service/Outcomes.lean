import MiniMemcached.Service.UniqueKeys

/-! What the answer of a storage command says about the key. `STORED` means that the
lookup of the key gives the item of the command, unless the client flags overlay
`ITEM_LINKED` or `ITEM_SLABBED` on an item that is to be linked. A refusal leaves
the live item of the key, and its counter, as they were. -/

namespace MiniMemcached

open MiniMemcached.Lists Runs

/-- The item that `do_item_get` of the key returns. -/
def Cache.live (s : Cache) (k : List UInt8) (p : Ptr) : Prop := p ∈ s.found k ∧ ¬s.expired p

/-- The condition under which the storage command of `it` answers `STORED`. -/
def Cache.stores (s : Cache) (it : Ptr) (cmd : Nread) : Prop :=
  match cmd with
  | .add => ∀ p, ¬s.live (s.items.key it) p
  | .replace => ∃ p, s.live (s.items.key it) p
  | .cas => ∃ p, s.live (s.items.key it) p ∧ s.items.cas it = s.items.cas p
  | .append | .prepend => ∃ p, s.live (s.items.key it) p ∧ s.items.cas it = s.items.cas p ∧
    s.slab.allocOk (s.items.nkey it).toNat (joinBytes s it p)
  | .set | .error => True

/-- The lookup returns the live item. -/
theorem GetActs.live_iff {s : Cache} {g : Shape} {k : List UInt8} {acts : List Act} {r : Option Ptr}
    (h : GetActs s g k acts r) (hs : Sound s g) (p : Ptr) : s.live k p ↔ r = some p := by
  have hinj : ∀ q ∈ g.table, s.items.key q = k → p ∈ s.found k → q = p := by
    rintro q ⟨b, hq⟩ hk hp
    obtain ⟨⟨b', hp⟩, hkp⟩ := (hs.mem_found_iff k p).mp hp
    exact hs.buckets.key_inj hq hp (hk.trans hkp.symm)
  cases h with
  | miss hm =>
    refine ⟨fun hl => ?_, nofun⟩
    obtain ⟨hp, hk⟩ := (hs.mem_found_iff k p).mp hl.1
    exact absurd hk (hm p hp)
  | live q hq hk hl =>
    constructor
    · exact fun hp => congrArg some (hinj q hq hk hp.1)
    · rintro ⟨rfl⟩
      exact ⟨(hs.mem_found_iff k p).mpr ⟨hq, hk⟩, hl⟩
  | expired q hq hk he => exact ⟨fun hl => absurd (hinj q hq hk hl.1 ▸ he) hl.2, nofun⟩

theorem Steps.notLinked_of_link {s s' : Cache} {g g' : Shape} {acts : List Act}
    (hsteps : Steps s g acts s' g') (h : Sound s g) {p : Ptr} (hl : .link p ∈ acts) :
    p ∉ s.everLinked := by
  intro hpE
  obtain ⟨as, bs, rfl⟩ := List.append_of_mem hl
  obtain ⟨⟨s₁, g₁⟩, hpre, hrest⟩ := Path.append_iff.mp hsteps
  have h₁ := Steps.sound hpre h
  have hpE₁ := Steps.everLinked_mono hpre h hpE
  cases hrest with
  | cons hlink _ =>
    cases hlink with
    | link hit => exact h₁.unlinked p hit hpE₁

namespace StoreActs

variable {s : Cache} {g : Shape} {it : Ptr} {cmd : Nread} {acts : List Act} {stat : StoreStat}

/-- An item that `do_item_link` takes is linked behind every unlink of its command. -/
theorem exists_link (h : StoreActs s g it cmd acts stat) (hstat : stat = .STORED)
    (hflags : s.items.itemFlag it &&& (Slab.ITEM_LINKED ||| Slab.ITEM_SLABBED) = 0 ∨
      cmd = .append ∨ cmd = .prepend) :
    ∃ p as bs, acts = as ++ .link p :: bs ∧ (∀ q, .unlink q ∉ bs) ∧
      (if cmd = .append ∨ cmd = .prepend then p ∉ g.inFlight else p = it) := by
  have hlink : cmd ≠ .append → cmd ≠ .prepend → linkAct s it = .link it := fun h₁ h₂ =>
    if_pos (hflags.resolve_right (by simp [h₁, h₂]))
  cases h with
  | noKey
  | taken
  | stale
  | full => cases hstat
  | new acts hget hcmd =>
    obtain ⟨h₁, h₂⟩ : cmd ≠ .append ∧ cmd ≠ .prepend := by rcases hcmd with e | e | e <;> simp [e]
    rw [hlink h₁ h₂]
    exact ⟨it, acts ++ [.bump it], [], by simp, by simp, by simp [h₁, h₂]⟩
  | replaced old acts hget hcmd =>
    obtain ⟨h₁, h₂⟩ : cmd ≠ .append ∧ cmd ≠ .prepend := by rcases hcmd with e | e | e <;> simp [e]
    rw [hlink h₁ h₂]
    exact ⟨it, acts ++ [.bump it, .quiet, .unlink old, .quiet], [.unref old], by simp, by simp,
      by simp [h₁, h₂]⟩
  | swapped old acts hget hcmd =>
    obtain ⟨h₁, h₂⟩ : cmd ≠ .append ∧ cmd ≠ .prepend := by simp [hcmd]
    rw [hlink h₁ h₂]
    exact ⟨it, acts ++ [.quiet, .unlink old, .quiet], [.unref old], by simp, by simp, by simp [h₁, h₂]⟩
  | joined old new acts hget hcmd hcas hok hnew =>
    refine ⟨new, acts ++ [.grant new _ _, .fill new 0, .bump new, .quiet, .unlink old, .quiet],
      [.unref old, .unref new, .drop it], by rw [List.append_assoc]; rfl, by simp, ?_⟩
    rwa [if_pos hcmd]

/-- An item that `do_item_link` refuses is not linked. -/
theorem noLink (h : StoreActs s g it cmd acts stat)
    (hflags : s.items.itemFlag it &&& (Slab.ITEM_LINKED ||| Slab.ITEM_SLABBED) ≠ 0)
    (hcmd : cmd ≠ .append ∧ cmd ≠ .prepend) (p : Ptr) : .link p ∉ acts := by
  intro hp
  obtain rfl := h.eq_of_link (.inl hcmd) hp
  have hact : linkAct s p = .drop p := if_neg hflags
  cases h with
  | joined old new acts hget hj => exact (not_or.mpr hcmd) hj
  | taken old acts hget =>
    unfold touchActs at hp
    split_ifs at hp <;> simp [(hget.noLink p).1] at hp
  | noKey acts hget
  | stale old acts hget
  | full old acts hget => simp [(hget.noLink p).1] at hp
  | new acts hget
  | replaced old acts hget
  | swapped old acts hget => simp [(hget.noLink p).1, hact] at hp

/-- Which storage commands answer `STORED`. -/
theorem stored_iff (h : StoreActs s g it cmd acts stat) (hs : Sound s g) :
    stat = .STORED ↔ s.stores it cmd := by
  unfold Cache.stores
  cases h with
  | noKey acts hget hcmd =>
    have hlive := hget.live_iff hs
    rcases hcmd with rfl | rfl | rfl <;> simp [hlive]
  | new acts hget hcmd =>
    have hlive := hget.live_iff hs
    rcases hcmd with rfl | rfl | rfl <;> simp [hlive]
  | taken old acts hget hcmd =>
    have hlive := hget.live_iff hs
    subst hcmd
    simp [hlive]
  | replaced old acts hget hcmd =>
    have hlive := hget.live_iff hs
    rcases hcmd with rfl | rfl | rfl <;> simp [hlive]
  | swapped old acts hget hcmd hcas =>
    have hlive := hget.live_iff hs
    subst hcmd
    simp [hlive, hcas]
  | stale old acts hget hcmd hcas =>
    have hlive := hget.live_iff hs
    rcases hcmd with rfl | rfl | rfl <;> simp [hlive, hcas]
  | full old acts hget hcmd hcas hno =>
    have hlive := hget.live_iff hs
    rcases hcmd with rfl | rfl <;> simp [hlive, hno]
  | joined old new acts hget hcmd hcas hok =>
    have hlive := hget.live_iff hs
    rcases hcmd with rfl | rfl <;> simp [hlive, hcas, hok]

end StoreActs

namespace Service

/-- The item that the command of `P` may store: that of the client or, for append and
prepend, a chunk that was neither linked nor in flight before. -/
def Produces (st : Service) (P : Pending) (p : Ptr) : Prop :=
  if P.line.cmd = .append ∨ P.line.cmd = .prepend then
    p ∉ st.cache.everLinked ∧ ∀ c P', st.pending c = some P' → P'.it ≠ p
  else p = P.it

/-- `STORED` is answered just when the key is bound to the item of the command, and
the connection is left with its id. -/
def StoredMeansBound (st : Service) (P : Pending) (s' : Cache) (stat : StoreStat)
    (cas : Option UInt64) : Prop :=
  stat = .STORED ↔
    ∃ p, s'.found P.line.key = some p ∧ st.Produces P p ∧ cas = some (s'.items.cas p)

/-- The client flags leave `ITEM_LINKED` and `ITEM_SLABBED` alone, or the command does
not link the item of the client. -/
def FlagsHarmless (s : Cache) (L : StoreLine) : Prop :=
  L.flags.toUInt8 &&& (Slab.ITEM_LINKED ||| Slab.ITEM_SLABBED) = 0 ∨
    match L.cmd with
    | .append | .prepend => True
    | .add => ∃ p, s.live L.key p
    | .replace => ∀ p, ¬s.live L.key p
    | .cas => ∀ p, s.live L.key p → L.casId ≠ s.items.cas p
    | .set | .error => False

variable {st st' : Service} {g : Shape} {a : Action} {P : Pending} {bytes : List UInt8}

/-- A block that is stored or refused is a path of primitive steps. -/
theorem block_spec (h : Inv st g) (hP : st.pending a.conn = some P) {s' : Cache} {stat : StoreStat}
    {cas : Option UInt64}
    (hret : (st.at_ a).commandBlock P.it P.line.cmd bytes = .ok (s', stat, cas)) :
    ∃ g' acts, Steps (st.at_ a) g
        (.fill P.it ((st.at_ a).items.itemFlag P.it) :: .quiet :: acts ++ [.quiet]) s' g' ∧
      StoreActs (st.at_ a) g P.it P.line.cmd acts stat ∧
      ∀ p, .link p ∈ acts → s'.items.key p = P.line.key ∧ cas = some (s'.items.cas p) := by
  have hs : Sound (st.at_ a) g := h.sound.setClock a.now
  have hit : P.it ∈ g.inFlight := (h.flight _).mpr ⟨a.conn, P, hP, rfl⟩
  have hwrite := Steps.writeValue (s := st.at_ a) hit bytes
  have hkey : ((st.at_ a).writeValue P.it bytes).items.key P.it = P.line.key := by
    rw [key_writeValue]
    exact (h.filled _ P hP).key
  unfold Cache.commandBlock at hret
  rcases Steps.storeItem (hwrite.sound hs) hit P.line.cmd with ⟨-, -, herr⟩ |
    ⟨s'', g', acts, stat', cas', heq, hsteps, hacts, hlinked, hcas⟩
  · rw [herr] at hret
    cases hret
  · rw [heq] at hret
    cases hret
    exact ⟨g', acts, hwrite.append hsteps, hacts.writeValue, fun p hp =>
      ⟨(hlinked p hp).trans hkey, hcas p hp⟩⟩

/-- Which storage commands store the item that they produce. -/
theorem storedMeansBound_iff {limit : ℕ} {set : Settings} {mallocOk : ℕ → Bool} {hashpower : ℕ}
    {s : Cache} (hinit : Cache.init limit set mallocOk hashpower = some s) {as : List Action}
    (hrun : run step (start s) as = .ok st) (hP : st.pending a.conn = some P) (bytes : List UInt8)
    {s' : Cache} {stat : StoreStat} {cas : Option UInt64}
    (hret : (st.at_ a).commandBlock P.it P.line.cmd bytes = .ok (s', stat, cas)) :
    st.StoredMeansBound P s' stat cas ↔ FlagsHarmless (st.at_ a) P.line := by
  obtain ⟨g, hinv⟩ := inv_of_run hinit hrun
  have hs : Sound (st.at_ a) g := hinv.sound.setClock a.now
  have hit : P.it ∈ g.inFlight := (hinv.flight _).mpr ⟨a.conn, P, hP, rfl⟩
  have hfill := hinv.filled _ P hP
  obtain ⟨g', acts, hpath, hstore, hlinked⟩ := block_spec hinv hP hret
  have hs' := hpath.sound hs
  have hflag : (st.at_ a).items.itemFlag P.it = P.line.flags.toUInt8 := hfill.itemFlag
  have hmem : ∀ p, .link p ∈ .fill P.it ((st.at_ a).items.itemFlag P.it) :: .quiet :: acts ++ [.quiet] ↔
      .link p ∈ acts := fun p => by simp
  -- an item that the command produced and the key is bound to was linked by it
  have hbound : ∀ p, s'.found P.line.key = some p → st.Produces P p → .link p ∈ acts := by
    intro p hp hprod
    have hpT := ((hs'.mem_found_iff _ p).mp hp).1
    refine (hmem p).mp ((Steps.table_of_link hpath hpT).resolve_left fun hpT => ?_)
    have hpE : p ∈ st.cache.everLinked := (hs.linked p hpT).1
    unfold Produces at hprod
    split_ifs at hprod
    · exact hprod.1 hpE
    · exact hs.unlinked p (hprod ▸ hit) hpE
  have hstored : st.StoredMeansBound P s' stat cas ↔ (stat = .STORED →
      P.line.flags.toUInt8 &&& (Slab.ITEM_LINKED ||| Slab.ITEM_SLABBED) = 0 ∨
        P.line.cmd = .append ∨ P.line.cmd = .prepend) := by
    constructor
    · intro h hstat
      obtain ⟨p, hp, hprod, -⟩ := h.mp hstat
      by_contra hno
      obtain ⟨hflags, hcmd⟩ := not_or.mp hno
      exact hstore.noLink (hflag ▸ hflags) (not_or.mp hcmd) p (hbound p hp hprod)
    · intro hok
      refine ⟨fun hstat => ?_, fun ⟨p, hp, hprod, _⟩ => hstore.stored_of_link (hbound p hp hprod)⟩
      obtain ⟨p, us, vs, rfl, hvs, hp⟩ := hstore.exists_link hstat (hflag ▸ hok hstat)
      have hpl : .link p ∈ us ++ .link p :: vs := by simp
      have hpT : p ∈ g'.table := by
        have hsplit : Steps (st.at_ a) g ((.fill P.it ((st.at_ a).items.itemFlag P.it) :: .quiet :: us) ++
            .link p :: (vs ++ [.quiet])) s' g' := by simpa using hpath
        exact Steps.mem_table_of_link hsplit (by simpa using hvs)
      refine ⟨p, (hs'.mem_found_iff _ p).mpr ⟨hpT, (hlinked p hpl).1⟩, ?_, (hlinked p hpl).2⟩
      unfold Produces
      split_ifs at hp ⊢
      · exact ⟨Steps.notLinked_of_link hpath hs ((hmem p).mpr hpl), fun c P' hP' e =>
          hp ((hinv.flight p).mpr ⟨c, P', hP', e⟩)⟩
      · exact hp
  have hkey : (st.at_ a).items.key P.it = P.line.key := hfill.key
  have hcasId : (st.at_ a).items.cas P.it = P.line.casId := hfill.cas
  have hiff := hstore.stored_iff hs
  rw [hstored, hiff]
  unfold FlagsHarmless Cache.stores
  rw [hkey, hcasId]
  by_cases hflags : P.line.flags.toUInt8 &&& (Slab.ITEM_LINKED ||| Slab.ITEM_SLABBED) = 0
  · simp only [hflags, true_or, implies_true]
  · cases P.line.cmd <;> simp [hflags]

/-- A `set` of a key of one byte with these client flags. -/
def setWithFlags (flags : UInt32) : List Action :=
  [⟨1, 0, .store (shortLine .set 97 flags 0 0) set_ne_error⟩]

/-- The data block of a short line. -/
def shortBlock : Action := ⟨1, 0, .block [120, 13, 10]⟩

theorem exists_block {as : List Action} {p : Service → Pending → Cache × StoreStat × Option UInt64 → Bool}
    (h : (trial 1 0 as).any (fun st => (st.pending 0).any fun P =>
      ((st.at_ shortBlock).commandBlock P.it P.line.cmd [120, 13, 10]).toOption.any (p st P)) = true) :
    ∃ s st P r, Cache.init 1 smallSettings (fun _ => true) 0 = some s ∧
      run step (start s) as = .ok st ∧ st.pending 0 = some P ∧
      (st.at_ shortBlock).commandBlock P.it P.line.cmd [120, 13, 10] = .ok r ∧ p st P r = true := by
  obtain ⟨s, st, hinit, hrun, hp⟩ := exists_of_trial h
  obtain ⟨P, hP, hp⟩ := (Option.any_eq_true _ _).mp hp
  cases hr : (st.at_ shortBlock).commandBlock P.it P.line.cmd [120, 13, 10] with
  | error e => simp [hr, Except.toOption] at hp
  | ok r => exact ⟨s, st, P, r, hinit, hrun, hP, hr, by simpa [hr, Except.toOption] using hp⟩

theorem storedMeansBound_plainFlags : ∃ s st P s' stat cas,
    Cache.init 1 smallSettings (fun _ => true) 0 = some s ∧
    run step (start s) (setWithFlags 0) = .ok st ∧ st.pending 0 = some P ∧
    (st.at_ shortBlock).commandBlock P.it P.line.cmd [120, 13, 10] = .ok (s', stat, cas) ∧
    st.StoredMeansBound P s' stat cas := by
  have htrial : (trial 1 0 (setWithFlags 0)).any (fun st => (st.pending 0).any fun P =>
      ((st.at_ shortBlock).commandBlock P.it P.line.cmd [120, 13, 10]).toOption.any fun _ =>
        decide (P.line.flags = 0)) = true := by decide +kernel
  obtain ⟨s, st, P, ⟨s', stat, cas⟩, hinit, hrun, hP, hret, hflags⟩ := exists_block htrial
  refine ⟨s, st, P, s', stat, cas, hinit, hrun, hP, hret, ?_⟩
  have hharmless : FlagsHarmless (st.at_ shortBlock) P.line := .inl (by
    rw [of_decide_eq_true hflags]
    decide)
  exact (storedMeansBound_iff (a := shortBlock) hinit hrun hP [120, 13, 10] hret).mpr hharmless

/-- With the bit of `ITEM_LINKED` in the client flags `set` answers `STORED`, and the
key is not found. -/
theorem stored_notBound : ∃ s st P s' stat cas,
    Cache.init 1 smallSettings (fun _ => true) 0 = some s ∧
    run step (start s) (setWithFlags 1) = .ok st ∧ st.pending 0 = some P ∧
    (st.at_ shortBlock).commandBlock P.it P.line.cmd [120, 13, 10] = .ok (s', stat, cas) ∧
    stat = .STORED ∧ s'.found P.line.key = none ∧ ¬st.StoredMeansBound P s' stat cas := by
  have htrial : (trial 1 0 (setWithFlags 1)).any (fun st => (st.pending 0).any fun P =>
      ((st.at_ shortBlock).commandBlock P.it P.line.cmd [120, 13, 10]).toOption.any fun r =>
        decide (r.2.1 = .STORED) && decide (r.1.found P.line.key = none)) = true := by decide +kernel
  obtain ⟨s, st, P, ⟨s', stat, cas⟩, hinit, hrun, hP, hret, hp⟩ := exists_block htrial
  simp only [Bool.and_eq_true, decide_eq_true_eq] at hp
  refine ⟨s, st, P, s', stat, cas, hinit, hrun, hP, hret, hp.1, hp.2, fun h => ?_⟩
  obtain ⟨p, hfound, -⟩ := h.mp hp.1
  rw [hp.2] at hfound
  cases hfound

end Service

/-! ### Refusals -/

/-- The item is the same to a lookup, and has the same counter. -/
structure Untouched (m m' : Items) (p : Ptr) : Prop where
  value : m'.value p = m.value p
  nbytes : m'.nbytes p = m.nbytes p
  cas : m'.cas p = m.cas p
  exptime : m'.exptime p = m.exptime p
  refcount : m'.refcount p = m.refcount p

namespace StoreActs

variable {s : Cache} {g : Shape} {it : Ptr} {cmd : Nread} {acts : List Act} {stat : StoreStat}

/-- A refused command that found the live item `p` unlinks nothing, and gives back the
reference it took. -/
theorem refused_live (h : StoreActs s g it cmd acts stat) (hs : Sound s g) (hstat : stat ≠ .STORED)
    {p : Ptr} (hp : s.live (s.items.key it) p) :
    (∀ q, .unlink q ∉ acts) ∧ Act.gains p acts = 0 := by
  cases h with
  | noKey acts hget => exact absurd ((hget.live_iff hs p).mp hp) nofun
  | new
  | replaced
  | swapped
  | joined => exact absurd rfl hstat
  | taken old acts hget =>
    obtain rfl : old = p := Option.some.inj ((hget.live_iff hs p).mp hp)
    cases hget
    unfold touchActs
    constructor
    · split_ifs <;> simp
    · split_ifs <;> simp only [List.cons_append, List.nil_append, Act.gains, Act.gain, if_true] <;> rfl
  | stale old acts hget
  | full old acts hget =>
    obtain rfl : old = p := Option.some.inj ((hget.live_iff hs p).mp hp)
    cases hget
    refine ⟨by simp, ?_⟩
    simp only [List.cons_append, List.nil_append, Act.gains, Act.gain, if_true]
    rfl

theorem add_refused (h : StoreActs s g it .add acts stat) (hstat : stat ≠ .STORED) :
    stat = .NOT_STORED := by
  cases h with
  | noKey acts hget hcmd => simp at hcmd
  | stale old acts hget hcmd => simp at hcmd
  | full old acts hget hcmd => simp at hcmd
  | taken => rfl
  | new
  | replaced
  | swapped
  | joined => exact absurd rfl hstat

theorem replace_refused (h : StoreActs s g it .replace acts stat) (hstat : stat ≠ .STORED) :
    stat = .NOT_STORED := by
  cases h with
  | noKey => rfl
  | stale old acts hget hcmd => simp at hcmd
  | full old acts hget hcmd => simp at hcmd
  | taken => rfl
  | new
  | replaced
  | swapped
  | joined => exact absurd rfl hstat

end StoreActs

namespace Service

variable {st st' : Service} {g : Shape} {a : Action} {P : Pending} {bytes : List UInt8}

/-- A storage command that is refused leaves the live item of the key untouched, and
binds nothing when there was none. `add` is refused just when the key has a live
item, and `replace` when it has none. -/
theorem refused_untouched {limit : ℕ} {set : Settings} {mallocOk : ℕ → Bool} {hashpower : ℕ}
    {s : Cache} (hinit : Cache.init limit set mallocOk hashpower = some s) {as : List Action}
    (hrun : run step (start s) as = .ok st) (hP : st.pending a.conn = some P) (bytes : List UInt8)
    {s' : Cache} {stat : StoreStat} {cas : Option UInt64}
    (hret : (st.at_ a).commandBlock P.it P.line.cmd bytes = .ok (s', stat, cas)) :
    (stat ≠ .STORED →
      (∀ p, (st.at_ a).live P.line.key p →
        s'.live P.line.key p ∧ Untouched st.cache.items s'.items p) ∧
      ((∀ p, ¬(st.at_ a).live P.line.key p) → s'.found P.line.key = none)) ∧
    (P.line.cmd = .add → (stat = .NOT_STORED ↔ ∃ p, (st.at_ a).live P.line.key p)) ∧
    (P.line.cmd = .replace → (stat = .NOT_STORED ↔ ∀ p, ¬(st.at_ a).live P.line.key p)) := by
  obtain ⟨g, hinv⟩ := inv_of_run hinit hrun
  have hs : Sound (st.at_ a) g := hinv.sound.setClock a.now
  have hkey : (st.at_ a).items.key P.it = P.line.key := (hinv.filled _ P hP).key
  obtain ⟨g', acts, hpath, hstore, hlinked⟩ := block_spec hinv hP hret
  have hs' := hpath.sound hs
  have hev := hpath.evolves hs (K := ∅) (by simp) (by simp)
  have hiff := hstore.stored_iff hs
  refine ⟨fun hstat => ⟨fun p hp => ?_, fun hno => ?_⟩, fun hcmd => ?_, fun hcmd => ?_⟩
  · obtain ⟨hpT, hk⟩ := (hs.mem_found_iff _ p).mp hp.1
    have hpE := (hs.linked p hpT).1
    rw [← hkey] at hp
    obtain ⟨hunlink, hsum⟩ := hstore.refused_live hs hstat hp
    have hpT' : p ∈ g'.table := Steps.table_mono hpath (by simpa using hunlink) hpT
    refine ⟨⟨(hs'.mem_found_iff _ p).mpr ⟨hpT', (hev.key (.inl hpE)).trans hk⟩, ?_⟩, ?_⟩
    · unfold Cache.expired
      rw [hev.exptime p (.inl hpE), hev.clock]
      exact hp.2
    · refine ⟨?_, hev.nbytes p (.inl hpE), hev.cas p (.inl hpE), hev.exptime p (.inl hpE), ?_⟩
      · simp only [Items.value, Items.realDataAddr, hev.data p (.inl hpE), hev.nkey p (.inl hpE),
          hev.nbytes p (.inl hpE)]
        rfl
      · rw [hpath.refcount hs hpE]
        have hzero : Act.gains p (Act.fill P.it ((st.at_ a).items.itemFlag P.it) :: .quiet :: acts ++
            [.quiet]) = 0 := by
          rw [Act.gains_append]
          simp only [Act.gains, Act.gain, hsum]
          rfl
        rw [hzero]
        exact UInt32.add_zero _
  · have hlink : ∀ q, .link q ∉ acts := fun q hq => hstat (hstore.stored_of_link hq)
    have hlink' : ∀ q, .link q ∈ Act.fill P.it ((st.at_ a).items.itemFlag P.it) :: .quiet :: acts ++
        [.quiet] → s'.items.key q ≠ P.line.key := fun q hq => absurd (by simpa using hq) (hlink q)
    rw [hs'.found_none_iff]
    by_cases hab : g.Absent (st.at_ a).items P.line.key
    · exact Steps.absent hpath hs hab hlink'
    · -- the bound item has expired, and the lookup takes it out
      unfold Shape.Absent at hab
      push Not at hab
      obtain ⟨p, hpT, hk⟩ := hab
      have he : (st.at_ a).expired p :=
        not_not.mp fun hl => hno p ⟨(hs.mem_found_iff _ p).mpr ⟨hpT, hk⟩, hl⟩
      obtain ⟨as', r, post, hget, rfl⟩ := hstore.exists_get
      have hu := hget.unlink_mem hs hpT (hk.trans hkey.symm) he
      rw [← hk] at hlink' ⊢
      exact Steps.absent_of_unlink hpath hs (hs.linked p hpT).1 (by simp [hu]) hlink'
  · rw [hcmd] at hiff hstore
    unfold Cache.stores at hiff
    rw [hkey] at hiff
    constructor
    · intro e
      by_contra hno
      cases e.symm.trans (hiff.mpr (not_exists.mp hno))
    · rintro ⟨p, hp⟩
      exact hstore.add_refused fun e => hiff.mp e p hp
  · rw [hcmd] at hiff hstore
    unfold Cache.stores at hiff
    rw [hkey] at hiff
    constructor
    · intro e p hp
      cases e.symm.trans (hiff.mpr ⟨p, hp⟩)
    · intro hno
      exact hstore.replace_refused fun e => (hiff.mp e).elim hno

/-- A key is set, and an `add` of the same key waits for its block. -/
def addOverSet : List Action :=
  storing 1 0 (shortLine .set 97 0 0 0) set_ne_error ++
    [⟨1, 0, .store (shortLine .add 97 0 0 0) add_ne_error⟩]

theorem refused_untouched_add : ∃ s st P s' stat cas p,
    Cache.init 1 smallSettings (fun _ => true) 0 = some s ∧
    run step (start s) addOverSet = .ok st ∧ st.pending 0 = some P ∧
    (st.at_ shortBlock).commandBlock P.it P.line.cmd [120, 13, 10] = .ok (s', stat, cas) ∧
    stat = .NOT_STORED ∧ s'.live P.line.key p ∧ Untouched st.cache.items s'.items p := by
  have htrial : (trial 1 0 addOverSet).any (fun st => (st.pending 0).any fun P =>
      ((st.at_ shortBlock).commandBlock P.it P.line.cmd [120, 13, 10]).toOption.any fun r =>
        decide (P.line.cmd = .add) && decide (r.2.1 = .NOT_STORED)) = true := by decide +kernel
  obtain ⟨s, st, P, ⟨s', stat, cas⟩, hinit, hrun, hP, hret, hp⟩ := exists_block htrial
  simp only [Bool.and_eq_true, decide_eq_true_eq] at hp
  obtain ⟨hrefused, hadd, -⟩ := refused_untouched (a := shortBlock) hinit hrun hP [120, 13, 10] hret
  obtain ⟨p, hlive⟩ := (hadd hp.1).mp hp.2
  have hkept := (hrefused (by simp [hp.2])).1 p hlive
  exact ⟨s, st, P, s', stat, cas, p, hinit, hrun, hP, hret, hp.2, hkept.1, hkept.2⟩

end Service

/-! ### Null items -/

/-- `do_store_item` returns, and to a `cas` on a key without a live item it answers
`NOT_FOUND` and does no more than take out the item that has expired. -/
def Cache.StoresSafely (s : Cache) (it : Ptr) (cmd : Nread) : Prop :=
  ∃ s' stat cas, s.doStoreItem it cmd (HashTable.hash (s.items.key it)) = .ok (s', stat, cas) ∧
    (cmd = .cas → (∀ p, ¬s.live (s.items.key it) p) → stat = .NOT_FOUND ∧
      s'.found (s.items.key it) = none ∧ ∀ k ≠ s.items.key it, s'.found k = s.found k)

/-- A `cas` that returns has found a live item. -/
theorem StoreActs.exists_live {s : Cache} {g : Shape} {it : Ptr} {acts : List Act} {stat : StoreStat}
    (h : StoreActs s g it .cas acts stat) (hs : Sound s g) : ∃ p, s.live (s.items.key it) p := by
  cases h with
  | swapped old acts hget => exact ⟨old, (hget.live_iff hs old).mpr rfl⟩
  | stale old acts hget => exact ⟨old, (hget.live_iff hs old).mpr rfl⟩
  | noKey acts hget hcmd => simp at hcmd
  | new acts hget hcmd => simp at hcmd
  | taken old acts hget hcmd => cases hcmd
  | replaced old acts hget hcmd => simp at hcmd
  | full old acts hget hcmd => simp at hcmd
  | joined old new acts hget hcmd => simp at hcmd

theorem Sound.storesSafely_iff_live {s : Cache} {g : Shape} (h : Sound s g) {it : Ptr} (hit : it ∈ g.inFlight)
    (cmd : Nread) : s.StoresSafely it cmd ↔ (cmd = .cas → ∃ p, s.live (s.items.key it) p) := by
  rcases Steps.doStoreItem h hit cmd with ⟨rfl, ⟨acts, hget⟩, herr⟩ |
    ⟨s', g', acts, stat, cas, heq, hsteps, hacts, -⟩
  · constructor
    · rintro ⟨s', stat, cas, heq, -⟩
      rw [herr] at heq
      cases heq
    · intro hlive
      obtain ⟨p, hp⟩ := hlive rfl
      exact absurd ((hget.live_iff h p).mp hp) nofun
  · constructor
    · rintro - rfl
      exact hacts.exists_live h
    · intro hlive
      refine ⟨s', stat, cas, heq, fun hcmd hno => ?_⟩
      obtain ⟨p, hp⟩ := hlive hcmd
      exact absurd hp (hno p)

namespace Service

variable {st : Service} {a : Action} {P : Pending}

/-- The value of an item in flight is of no matter to a lookup. -/
theorem live_writeValue {s : Cache} {g : Shape} (h : Sound s g) {it : Ptr} (hit : it ∈ g.inFlight)
    (bytes k : List UInt8) (p : Ptr) : (s.writeValue it bytes).live k p ↔ s.live k p := by
  have hwrite := (Steps.writeValue (s := s) hit bytes).sound h
  unfold Cache.live
  rw [hwrite.mem_found_iff, h.mem_found_iff, key_writeValue]
  rfl

/-- `do_store_item` reads through no null pointer just when the command is not `cas`, or
the key has a live item. -/
theorem storesSafely_iff {limit : ℕ} {set : Settings} {mallocOk : ℕ → Bool} {hashpower : ℕ}
    {s : Cache} (hinit : Cache.init limit set mallocOk hashpower = some s) {as : List Action}
    (hrun : run step (start s) as = .ok st) (hP : st.pending a.conn = some P) (bytes : List UInt8)
    (cmd : Nread) :
    ((st.at_ a).writeValue P.it bytes).StoresSafely P.it cmd ↔
      (cmd = .cas → ∃ p, (st.at_ a).live P.line.key p) := by
  obtain ⟨g, hinv⟩ := inv_of_run hinit hrun
  have hs : Sound (st.at_ a) g := hinv.sound.setClock a.now
  have hit : P.it ∈ g.inFlight := (hinv.flight _).mpr ⟨a.conn, P, hP, rfl⟩
  have hwrite := Steps.writeValue (s := st.at_ a) hit bytes
  have hkey : ((st.at_ a).writeValue P.it bytes).items.key P.it = P.line.key := by
    rw [key_writeValue]
    exact (hinv.filled _ P hP).key
  rw [(hwrite.sound hs).storesSafely_iff_live hit, hkey]
  simp only [live_writeValue hs hit]

/-- The block of a client is stored or refused, except for a `cas` without a live item. -/
theorem commandBlock_ok_iff {limit : ℕ} {set : Settings} {mallocOk : ℕ → Bool} {hashpower : ℕ}
    {s : Cache} (hinit : Cache.init limit set mallocOk hashpower = some s) {as : List Action}
    (hrun : run step (start s) as = .ok st) (hP : st.pending a.conn = some P) (bytes : List UInt8)
    (cmd : Nread) : (∃ r, (st.at_ a).commandBlock P.it cmd bytes = .ok r) ↔
      (cmd = .cas → ∃ p, (st.at_ a).live P.line.key p) := by
  obtain ⟨g, hinv⟩ := inv_of_run hinit hrun
  have hs : Sound (st.at_ a) g := hinv.sound.setClock a.now
  have hit : P.it ∈ g.inFlight := (hinv.flight _).mpr ⟨a.conn, P, hP, rfl⟩
  have hwrite := (Steps.writeValue (s := st.at_ a) hit bytes).sound hs
  have hkey : ((st.at_ a).writeValue P.it bytes).items.key P.it = P.line.key := by
    rw [key_writeValue]
    exact (hinv.filled _ P hP).key
  unfold Cache.commandBlock
  rcases Steps.storeItem hwrite hit cmd with ⟨rfl, ⟨acts, hget⟩, herr⟩ |
    ⟨s', g', acts, stat, cas, heq, hsteps, hacts, -⟩
  · rw [hkey] at hget
    rw [herr]
    refine ⟨by simp, fun hlive => ?_⟩
    obtain ⟨p, hp⟩ := hlive rfl
    exact absurd ((hget.live_iff hwrite p).mp ((live_writeValue hs hit bytes _ p).mpr hp)) nofun
  · refine ⟨?_, fun _ => ⟨_, heq⟩⟩
    rintro - rfl
    obtain ⟨p, hp⟩ := hacts.exists_live hwrite
    rw [hkey, live_writeValue hs hit] at hp
    exact ⟨p, hp⟩

theorem exists_waiting {as : List Action} {p : Service → Pending → Bool}
    (h : (trial 1 0 as).any (fun st => (st.pending 0).any (p st)) = true) :
    ∃ s st P, Cache.init 1 smallSettings (fun _ => true) 0 = some s ∧
      run step (start s) as = .ok st ∧ st.pending 0 = some P ∧ p st P = true := by
  obtain ⟨s, st, hinit, hrun, hp⟩ := exists_of_trial h
  obtain ⟨P, hP, hp⟩ := (Option.any_eq_true _ _).mp hp
  exact ⟨s, st, P, hinit, hrun, hP, hp⟩

theorem storesSafely_plainFlags : ∃ s st P, Cache.init 1 smallSettings (fun _ => true) 0 = some s ∧
    run step (start s) (setWithFlags 0) = .ok st ∧ st.pending 0 = some P ∧
    ((st.at_ shortBlock).writeValue P.it [120, 13, 10]).StoresSafely P.it .set := by
  have htrial : (trial 1 0 (setWithFlags 0)).any (fun st => (st.pending 0).any fun _ => true) = true := by
    decide +kernel
  obtain ⟨s, st, P, hinit, hrun, hP, -⟩ := exists_waiting htrial
  exact ⟨s, st, P, hinit, hrun, hP,
    (storesSafely_iff (a := shortBlock) hinit hrun hP [120, 13, 10] .set).mpr nofun⟩

/-- A `cas` of a key that is not there. -/
def casAlone : List Action := [⟨1, 0, .store (shortLine .cas 97 0 0 1) cas_ne_error⟩]

/-- `do_store_item` reads through the null `old_it` of a `cas` on an empty cache. -/
theorem not_storesSafely_casAlone : ∃ s st P, Cache.init 1 smallSettings (fun _ => true) 0 = some s ∧
    run step (start s) casAlone = .ok st ∧ st.pending 0 = some P ∧
    ¬((st.at_ shortBlock).writeValue P.it [120, 13, 10]).StoresSafely P.it .cas := by
  have htrial : (trial 1 0 casAlone).any (fun st => (st.pending 0).any fun P =>
      (((st.at_ shortBlock).writeValue P.it [120, 13, 10]).doStoreItem P.it .cas (HashTable.hash
        (((st.at_ shortBlock).writeValue P.it [120, 13, 10]).items.key P.it))).toOption.isNone) = true := by
    decide +kernel
  obtain ⟨s, st, P, hinit, hrun, hP, hnone⟩ := exists_waiting htrial
  refine ⟨s, st, P, hinit, hrun, hP, ?_⟩
  rintro ⟨s', stat, cas, heq, -⟩
  rw [heq] at hnone
  cases hnone

end Service

end MiniMemcached
