import MiniMemcached.Cache.Rebinding
import MiniMemcached.Service.Expiry
import MiniMemcached.Service.Ideal

/-! The service refines the ideal one. Every request of a run is a step of the ideal
service with the same answer, along the map that reads the entries of the keys off the
hash table. -/

namespace MiniMemcached

open Maps Runs

/-- What a lookup of the item shows. -/
def Cache.entry (s : Cache) (p : Ptr) : Entry :=
  ⟨s.items.value p, s.items.shown p, s.items.exptime p, s.items.cas p⟩

/-- A lookup that finds nothing leaves nothing, unless an item with the key is linked. -/
theorem GetActs.found_none {s s' : Cache} {g g' : Shape} {k : List UInt8} {acts acts' : List Act}
    (h : GetActs s g k acts none) (hs : Sound s g) (hsteps : Steps s g acts' s' g') (hsub : acts ⊆ acts')
    (hlink : ∀ q, .link q ∈ acts' → s'.items.key q ≠ k) : s'.found k = none := by
  rw [(hsteps.sound hs).found_none_iff]
  cases h with
  | miss habs => exact hsteps.absent hs habs hlink
  | expired p hp hk he =>
    have hunlink : .unlink p ∈ acts' := hsub (by simp)
    subst hk
    exact hsteps.absent_of_unlink hs (hs.linked p hp).1 hunlink hlink

namespace Steps

variable {s s' : Cache} {g g' : Shape} {acts : List Act}

/-- A path that links and unlinks nothing leaves the table alone. -/
theorem found_eq (hsteps : Steps s g acts s' g') (h : Sound s g) (hlink : ∀ q, .link q ∉ acts)
    (hunlink : ∀ q, .unlink q ∉ acts) : s'.found = s.found := by
  have hev := hsteps.evolves h (K := ∅) (by simp) (by simp)
  funext k
  refine Option.ext fun p => ?_
  show p ∈ s'.found k ↔ p ∈ s.found k
  rw [(hsteps.sound h).mem_found_iff, h.mem_found_iff]
  constructor
  · rintro ⟨hp, hk⟩
    have hold : p ∈ g.table := (hsteps.table_of_link hp).resolve_right (hlink p)
    exact ⟨hold, (hev.key (.inl (h.linked p hold).1)).symm.trans hk⟩
  · rintro ⟨hp, hk⟩
    exact ⟨hsteps.table_mono hunlink hp, (hev.key (.inl (h.linked p hp).1)).trans hk⟩

/-- An item of the table shows the same afterwards. -/
theorem entry_eq (hsteps : Steps s g acts s' g') (h : Sound s g) {p : Ptr} (hp : p ∈ g.table) :
    s'.entry p = s.entry p := by
  have hev := hsteps.evolves h (K := ∅) (by simp) (by simp)
  have hpE := (h.linked p hp).1
  have hkept := hsteps.kept_linked h hpE
  unfold Cache.entry
  rw [hkept.value, hkept.shown, hkept.exptime, hev.cas p (.inl hpE)]

/-- A lookup that returns an item leaves it with the flags that are shown. -/
theorem itemFlag_of_get {p : Ptr} (hsteps : Steps s g (.quiet :: [.ref p, .fetch p] ++ [.quiet]) s' g')
    (h : Sound s g) (hp : p ∈ g.table) : s'.items.itemFlag p = s'.items.shown p := by
  obtain ⟨hpE, hlinked⟩ := h.linked p hp
  have hset : s'.items.itemFlag p = s.items.itemFlag p ||| Slab.ITEM_FETCHED := by
    cases hsteps with
    | cons hlock hsteps =>
      cases hsteps with
      | cons href hsteps =>
        cases hsteps with
        | cons hfetch hsteps =>
          cases hsteps with
          | cons hunlock hsteps =>
            cases hsteps
            cases hlock
            cases href
            cases hfetch
            cases hunlock
            simp [Cache.setFlag, Cache.fetchAdd, Items.setFlag, Items.setRefcount]
  rw [hset, hsteps.shown h hpE]
  exact setFetched_eq_shownFlags hlinked

end Steps

namespace Service

/-- The service, seen as an ideal one. -/
def ideal (st : Service) : Ideal where
  entries k := (st.cache.found k).map st.cache.entry
  awaited c := (st.pending c).map fun P => ⟨P.line, st.cache.items.exptime P.it⟩
  ids := st.cache.casId

theorem ideal_entries (st : Service) (k : List UInt8) :
    st.ideal.entries k = (st.cache.found k).map st.cache.entry := rfl

theorem ideal_awaited (st : Service) (c : ℕ) :
    st.ideal.awaited c = (st.pending c).map fun P => ⟨P.line, st.cache.items.exptime P.it⟩ := rfl

/-- The last answer, as the client reads it. -/
def answer (st : Service) : Answer :=
  match st.reply with
  | .none => .none
  | .waiting => .waiting
  | .noMemory => .noMemory
  | .stored stat => .stored stat
  | .value it => .value (st.cache.items.value it) (st.cache.items.itemFlag it) (st.cache.items.cas it)
  | .miss => .miss
  | .badFormat => .badFormat
  | .deleted => .deleted
  | .notFound => .notFound

/-- One request of the service, with its answer. -/
def Talk (st : Service) (x : Action × Answer) (st' : Service) : Prop :=
  st.step x.1 = .ok st' ∧ x.2 = st'.answer

variable {st st' : Service} {g g' : Shape} {a : Action} {acts : List Act} {k : List UInt8}

theorem ideal_allowed (st : Service) (a : Action) : st.ideal.Allowed a ↔ st.Allowed a := by
  unfold Ideal.Allowed Allowed
  rw [ideal_awaited]
  cases a.req <;> cases st.pending a.conn <;> rfl

theorem awaited_eq_none (hfree : st.pending a.conn = none) : st.ideal.awaited a.conn = none := by
  rw [ideal_awaited, hfree, Option.map_none]

/-- The lookup of a command finds the entry that the ideal service serves. -/
theorem lookup_of_get (h : Inv st g) {r : Option Ptr} (hget : GetActs (st.at_ a) g k acts r) :
    st.ideal.lookup a.now k = r.map st.cache.entry := by
  have hs : Sound (st.at_ a) g := h.sound.setClock a.now
  have hlive := hget.live_iff hs
  unfold Ideal.lookup
  rw [ideal_entries]
  cases hf : st.cache.found k with
  | none =>
    cases r with
    | none => rfl
    | some p => cases hf.symm.trans ((hlive p).mpr rfl).1
  | some p =>
    have hpass : ¬Reached (st.cache.entry p).expires a.now ↔ r = some p := by
      rw [← hlive p]
      exact ⟨fun hl => ⟨hf, hl⟩, fun hl => hl.2⟩
    cases r with
    | none => simpa using hpass
    | some q =>
      obtain rfl : p = q := Option.some.inj (hf.symm.trans ((hlive q).mpr rfl).1)
      simpa using hpass.mpr rfl

/-- A connection that waits on has the same line and deadline. -/
theorem awaited_eq (h : Inv st g) (hsteps : Steps (st.at_ a) g acts st'.cache g')
    (hacts : StepActs st g a acts st') {c : ℕ} (hsame : st'.pending c = st.pending c) :
    st'.ideal.awaited c = st.ideal.awaited c := by
  have hs : Sound (st.at_ a) g := h.sound.setClock a.now
  rw [ideal_awaited, ideal_awaited, hsame]
  refine Option.map_congr fun P hP => ?_
  have hit : P.it ∈ g.inFlight := (h.flight _).mpr ⟨c, P, hP, rfl⟩
  have hev := hsteps.evolves hs (K := {P.it}) (by simpa using hit) fun b hb => by
    simpa using hacts.writes h hP (hsame.trans hP) b hb
  have hexp : st'.cache.items.exptime P.it = st.cache.items.exptime P.it := hev.exptime P.it (.inr rfl)
  rw [hexp]

theorem awaited_same (h : Inv st g) (hsteps : Steps (st.at_ a) g acts st'.cache g')
    (hacts : StepActs st g a acts st') (hpend : st'.pending = st.pending) :
    st'.ideal.awaited = st.ideal.awaited :=
  funext fun c => awaited_eq h hsteps hacts (congrFun hpend c)

theorem awaited_update (h : Inv st g) (hsteps : Steps (st.at_ a) g acts st'.cache g')
    (hacts : StepActs st g a acts st') {o : Option Pending}
    (hpend : st'.pending = Function.update st.pending a.conn o) :
    st'.ideal.awaited = Function.update st.ideal.awaited a.conn
      (o.map fun P => ⟨P.line, st'.cache.items.exptime P.it⟩) := by
  funext c
  by_cases hc : c = a.conn
  · subst hc
    rw [ideal_awaited, hpend, Function.update_self, Function.update_self]
  · rw [Function.update_of_ne hc]
    exact awaited_eq h hsteps hacts (by rw [hpend, Function.update_of_ne hc])

/-- The entries behind a path that links and unlinks nothing. -/
theorem entries_eq (h : Inv st g) (hsteps : Steps (st.at_ a) g acts st'.cache g')
    (hlink : ∀ q, .link q ∉ acts) (hunlink : ∀ q, .unlink q ∉ acts) :
    st'.ideal.entries = st.ideal.entries := by
  have hs : Sound (st.at_ a) g := h.sound.setClock a.now
  have hfound : st'.cache.found = st.cache.found := hsteps.found_eq hs hlink hunlink
  funext j
  rw [ideal_entries, ideal_entries, hfound]
  exact Option.map_congr fun p hp => hsteps.entry_eq hs ((h.sound.mem_found_iff j p).mp hp).1

/-- The entries behind a path that links and unlinks items of one key. -/
theorem entries_rebind (h : Inv st g) (hsteps : Steps (st.at_ a) g acts st'.cache g')
    (hlink : ∀ q, .link q ∈ acts → st'.cache.items.key q = k)
    (hunlink : ∀ q, .unlink q ∈ acts → q ∈ g.table ∧ st.cache.items.key q = k) :
    Rebinds st.cache.bucketOf st.ideal.entries k (st'.ideal.entries k) st'.ideal.entries := by
  have hs : Sound (st.at_ a) g := h.sound.setClock a.now
  have hre : Rebinds st.cache.bucketOf st.cache.found k (st'.cache.found k) st'.cache.found :=
    hsteps.rebinds hs hlink hunlink
  exact hre.map fun j _ p hp => hsteps.entry_eq hs ((h.sound.mem_found_iff j p).mp hp).1

/-! ### The requests -/

/-- The entries behind a lookup or a removal that leaves the key without an item. -/
theorem entries_removed (h : Inv st g) (hsteps : Steps (st.at_ a) g acts st'.cache g')
    (hlink : ∀ q, .link q ∉ acts) (hunlink : ∀ q, .unlink q ∈ acts → q ∈ g.table ∧ st.cache.items.key q = k)
    (hnone : st'.cache.found k = none) :
    Rebinds st.cache.bucketOf st.ideal.entries k none st'.ideal.entries := by
  have hre := entries_rebind h hsteps (fun q hq => absurd hq (hlink q)) hunlink
  have hentry : st'.ideal.entries k = none := by rw [ideal_entries, hnone, Option.map_none]
  rwa [hentry] at hre

/-- A service that shows other entries and is otherwise as before. -/
theorem ideal_eq {m : List UInt8 → Option Entry} {w : ℕ → Option Awaited} {n : UInt64}
    (hentries : st'.ideal.entries = m) (hawaited : st'.ideal.awaited = w) (hids : st'.cache.casId = n) :
    st'.ideal = ⟨m, w, n⟩ := by
  subst hentries hawaited hids
  rfl

theorem get_refines (h : Inv st g) (hsteps : Steps (st.at_ a) g (.quiet :: acts ++ [.quiet]) st'.cache g')
    (hacts : StepActs st g a (.quiet :: acts ++ [.quiet]) st') (hreq : a.req = .get k)
    (hfree : st.pending a.conn = none) (hk : k.length ≤ KEY_MAX_LENGTH) {r : Option Ptr}
    (hget : GetActs (st.at_ a) g k acts r) (hpend : st'.pending = st.pending)
    (hreply : st'.reply = r.elim .miss .value) :
    Ideal.Step st.cache.bucketOf st.ideal (a, st'.answer) st'.ideal := by
  have hs : Sound (st.at_ a) g := h.sound.setClock a.now
  have hlook := lookup_of_get h hget
  have hawaited := awaited_same h hsteps hacts hpend
  have hnolink : ∀ q, .link q ∉ Act.quiet :: acts ++ [.quiet] := fun q => by simp [(hget.noLink q).1]
  have hids : st'.cache.casId = st.cache.casId := hsteps.links_of_unlinking hs (Act.linking_of_none hnolink)
  cases r with
  | none =>
    have hanswer : st'.answer = .miss := by
      unfold answer
      rw [hreply]
      rfl
    have hnone : st'.cache.found k = none :=
      hget.found_none hs hsteps (by simp) fun q hq => absurd hq (hnolink q)
    have hre := entries_removed h hsteps hnolink (fun q hq => hget.unlinked (by simpa using hq)) hnone
    rw [hanswer, ideal_eq rfl hawaited hids]
    exact .miss k hreq (awaited_eq_none hfree) hk hlook hre
  | some p =>
    cases hget with
    | live _ hp hkp hl =>
      have hentry := hsteps.entry_eq hs hp
      have hanswer : st'.answer =
          .value (st.cache.entry p).value (st.cache.entry p).flags (st.cache.entry p).id := by
        unfold answer
        rw [hreply]
        show Answer.value (st'.cache.entry p).value (st'.cache.items.itemFlag p) (st'.cache.entry p).id = _
        rw [hsteps.itemFlag_of_get hs hp]
        show Answer.value (st'.cache.entry p).value (st'.cache.entry p).flags (st'.cache.entry p).id = _
        rw [hentry]
        rfl
      have hentries := entries_eq h hsteps hnolink (by simp)
      rw [hanswer, ideal_eq hentries hawaited hids]
      exact .hit k hreq (awaited_eq_none hfree) hk (st.cache.entry p) hlook

theorem delete_refines (h : Inv st g) (hsteps : Steps (st.at_ a) g acts st'.cache g')
    (hacts : StepActs st g a acts st') (hreq : a.req = .delete k) (hfree : st.pending a.conn = none)
    {b : Bool} (hrem : RemoveActs (st.at_ a) g k acts b) (hpend : st'.pending = st.pending)
    (hreply : st'.reply = if b then .deleted else .notFound) :
    Ideal.Step st.cache.bucketOf st.ideal (a, st'.answer) st'.ideal := by
  have hs : Sound (st.at_ a) g := h.sound.setClock a.now
  have hnolink : ∀ q, .link q ∉ acts := fun q hq => absurd (hrem.writes _ hq) (by simp [Act.writes])
  have hids : st'.cache.casId = st.cache.casId := hsteps.links_of_unlinking hs (Act.linking_of_none hnolink)
  have hcases : (st.ideal.lookup a.now k).isSome = b ∧ st'.cache.found k = none := by
    cases hrem with
    | miss acts hget =>
      refine ⟨by rw [lookup_of_get h hget]; rfl, ?_⟩
      exact hget.found_none hs hsteps (by simp) fun q hq => absurd hq (hnolink q)
    | hit p hp hk hl =>
      refine ⟨by rw [lookup_of_get h (.live p hp hk hl)]; rfl, ?_⟩
      subst hk
      rw [(hsteps.sound hs).found_none_iff]
      exact hsteps.absent_of_unlink hs (hs.linked p hp).1 (by simp) fun q hq => absurd hq (hnolink q)
  have hanswer : st'.answer = if (st.ideal.lookup a.now k).isSome then .deleted else .notFound := by
    unfold answer
    rw [hreply, hcases.1]
    cases b <;> rfl
  have hre := entries_removed h hsteps hnolink (fun q hq => hrem.unlinked hq) hcases.2
  rw [hanswer, ideal_eq rfl (awaited_same h hsteps hacts hpend) hids]
  exact .delete k hreq (awaited_eq_none hfree) hre

theorem accepted_refines (h : Inv st g) (hstep : st.step a = .ok st')
    (hsteps : Steps (st.at_ a) g acts st'.cache g') (hacts : StepActs st g a acts st') {L : StoreLine}
    {hcmd : L.cmd ≠ .error} (hreq : a.req = .store L hcmd) (hfree : st.pending a.conn = none) {it : Ptr}
    (hline : LineActs (st.at_ a) g L acts (some it))
    (hpend : st'.pending = Function.update st.pending a.conn (some ⟨it, L⟩)) (hreply : st'.reply = .waiting) :
    Ideal.Step st.cache.bucketOf st.ideal (a, st'.answer) st'.ideal := by
  have hs : Sound (st.at_ a) g := h.sound.setClock a.now
  have hanswer : st'.answer = .waiting := by
    unfold answer
    rw [hreply]
  have hnolink : ∀ q, .link q ∉ acts ∧ .unlink q ∉ acts := by
    cases hline
    simp
  have hids : st'.cache.casId = st.cache.casId :=
    hsteps.links_of_unlinking hs (Act.linking_of_none fun q => (hnolink q).1)
  have hentries := entries_eq h hsteps (fun q => (hnolink q).1) fun q => (hnolink q).2
  have hawaited := awaited_update h hsteps hacts hpend
  -- the deadline is the one that the line has set
  obtain ⟨it', halloc, hpend'⟩ := allocLine_of_step hstep hreq hfree hreply
  obtain rfl : it' = it := by
    have hboth := congrFun (hpend'.symm.trans hpend) a.conn
    rw [Function.update_self, Function.update_self] at hboth
    exact congrArg Pending.it (Option.some.inj hboth)
  have hexp : st'.cache.items.exptime it' = realtime L.exptime a.now := hs.exptime_allocLine halloc
  rw [Option.map_some, hexp] at hawaited
  rw [hanswer, ideal_eq hentries hawaited hids]
  exact .waiting L hcmd hreq (awaited_eq_none hfree)

theorem refused_refines (h : Inv st g) (hsteps : Steps (st.at_ a) g acts st'.cache g')
    (hacts : StepActs st g a acts st') {L : StoreLine} {hcmd : L.cmd ≠ .error} (hreq : a.req = .store L hcmd)
    (hfree : st.pending a.conn = none) (hline : LineActs (st.at_ a) g L acts none)
    (hpend : st'.pending = st.pending) (hreply : st'.reply = .noMemory) :
    Ideal.Step st.cache.bucketOf st.ideal (a, st'.answer) st'.ideal := by
  have hs : Sound (st.at_ a) g := h.sound.setClock a.now
  have hanswer : st'.answer = .noMemory := by
    unfold answer
    rw [hreply]
  have hnolink : ∀ q, .link q ∉ acts := fun q hq =>
    absurd ((hline.quiet ∅).1 _ hq) (by simp [Act.writes])
  have hids : st'.cache.casId = st.cache.casId := hsteps.links_of_unlinking hs (Act.linking_of_none hnolink)
  rw [hanswer, ideal_eq rfl (awaited_same h hsteps hacts hpend) hids]
  refine .noMemory L hcmd hreq (awaited_eq_none hfree) ?_
  cases hline with
  | refused hno hset =>
    rw [if_neg hset]
    exact entries_eq h hsteps hnolink (by simp)
  | removed acts b hno hset hrem =>
    rw [if_pos hset]
    refine entries_removed h hsteps hnolink (fun q hq => hrem.unlinked (by simpa using hq)) ?_
    cases hrem with
    | miss acts hget =>
      exact hget.found_none hs hsteps (fun b hb => by simp [hb]) fun q hq => absurd hq (hnolink q)
    | hit p hp hk hl =>
      have hpE := (hs.linked p hp).1
      rw [← hk, (hsteps.sound hs).found_none_iff]
      exact hsteps.absent_of_unlink hs hpE (by simp) fun q hq => absurd hq (hnolink q)

/-! ### Data blocks -/

variable {P : Pending} {bytes : List UInt8} {stat : StoreStat}

theorem length_value (m : Items) (p : Ptr) : (m.value p).length = (m.nbytes p).toNat := by
  simp only [Items.value, length_bytesAt]

theorem dropEnd_value (m : Items) (p : Ptr) :
    (m.value p).take (m.nbytes p - 2).toNat = dropEnd (m.value p) := by
  unfold dropEnd
  rw [length_value]
  congr 1
  omega

/-- The line that the connection of an item has sent. -/
def awaitedOf (st : Service) (P : Pending) : Awaited := ⟨P.line, st.cache.items.exptime P.it⟩

/-- The answer to a block is the one of the ideal service, or there was no memory for the
joined item. -/
theorem verdict_of_store (h : Inv st g) (hP : st.pending a.conn = some P)
    (hstore : StoreActs (st.at_ a) g P.it P.line.cmd acts stat) :
    stat = Ideal.verdict (st.awaitedOf P) (st.ideal.lookup a.now P.line.key) ∨
      (P.line.cmd = .append ∨ P.line.cmd = .prepend) ∧ stat = .NOT_STORED ∧
        (st.ideal.lookup a.now P.line.key).isSome := by
  have hkey : (st.at_ a).items.key P.it = P.line.key := (h.filled _ P hP).key
  have hcasId : (st.at_ a).items.cas P.it = P.line.casId := (h.filled _ P hP).cas
  have hlook : ∀ {acts r}, GetActs (st.at_ a) g ((st.at_ a).items.key P.it) acts r →
      st.ideal.lookup a.now P.line.key = r.map st.cache.entry := fun hget =>
    lookup_of_get h (hkey ▸ hget)
  unfold Ideal.verdict
  cases hstore with
  | noKey acts hget hcmd =>
    left
    rw [hlook hget]
    rcases hcmd with e | e | e <;> simp [awaitedOf, e]
  | new acts hget hcmd =>
    left
    rw [hlook hget]
    rcases hcmd with e | e | e <;> simp [awaitedOf, e]
  | taken old acts hget hcmd =>
    left
    rw [hlook hget]
    simp [awaitedOf, hcmd]
  | replaced old acts hget hcmd =>
    left
    rw [hlook hget]
    rcases hcmd with e | e | e <;> simp [awaitedOf, e]
  | swapped old acts hget hcmd hcas =>
    have hid : P.line.casId = (st.cache.entry old).id := hcasId.symm.trans hcas
    left
    rw [hlook hget]
    simp [awaitedOf, hcmd, hid]
  | stale old acts hget hcmd hcas =>
    have hid : P.line.casId ≠ (st.cache.entry old).id := fun e => hcas (hcasId.trans e)
    left
    rw [hlook hget]
    rcases hcmd with e | e | e <;> simp [awaitedOf, e, hid]
  | full old acts hget hcmd hcas hno => exact .inr ⟨hcmd, rfl, by rw [hlook hget]; rfl⟩
  | joined old new acts hget hcmd hcas hok =>
    have hid : P.line.casId = (st.cache.entry old).id := hcasId.symm.trans hcas
    left
    rw [hlook hget]
    rcases hcmd with e | e <;> simp [awaitedOf, e, hid]

/-- A block that is refused leaves the key with the item that was served for it. -/
theorem entry_refused (h : Inv st g)
    (hsteps : Steps (st.at_ a) g (.fill P.it (st.cache.items.itemFlag P.it) :: .quiet :: acts ++ [.quiet])
      st'.cache g') (hP : st.pending a.conn = some P)
    (hstore : StoreActs (st.at_ a) g P.it P.line.cmd acts stat) (hstat : stat ≠ .STORED) :
    st'.ideal.entries P.line.key = st.ideal.lookup a.now P.line.key ∧ st'.cache.casId = st.cache.casId ∧
      ((st.ideal.lookup a.now P.line.key).isSome → st'.ideal.entries = st.ideal.entries) := by
  have hs : Sound (st.at_ a) g := h.sound.setClock a.now
  have hkey : (st.at_ a).items.key P.it = P.line.key := (h.filled _ P hP).key
  have hnolink : ∀ q, .link q ∉ acts := fun q hq => hstat (hstore.stored_of_link hq)
  have hnolink' : ∀ q, .link q ∉ Act.fill P.it (st.cache.items.itemFlag P.it) :: .quiet :: acts ++ [.quiet] :=
    fun q => by simp [hnolink q]
  have hids : st'.cache.casId = st.cache.casId := hsteps.links_of_unlinking hs (Act.linking_of_none hnolink')
  obtain ⟨acts', r, post, hget, rfl⟩ := hstore.exists_get
  rw [hkey] at hget
  have hlook := lookup_of_get h hget
  cases r with
  | none =>
    have hnone : st'.cache.found P.line.key = none :=
      hget.found_none hs hsteps (fun b hb => by simp [hb]) fun q hq => absurd hq (hnolink' q)
    rw [hlook, ideal_entries, hnone]
    exact ⟨rfl, hids, nofun⟩
  | some p =>
    have hlive : (st.at_ a).live P.line.key p := (hget.live_iff hs p).mpr rfl
    have hlive' := hlive
    rw [← hkey] at hlive'
    have hsame := entries_eq h hsteps hnolink' (by simpa using (hstore.refused_live hs hstat hlive').1)
    have hfound : st.cache.found P.line.key = some p := hlive.1
    refine ⟨?_, hids, fun _ => hsame⟩
    rw [hsame, hlook, ideal_entries, hfound]

/-- The item that a storage command has linked is the one of its key, with the next id. -/
theorem found_linked (h : Inv st g) (hinv : Inv st' g')
    (hsteps : Steps (st.at_ a) g (.fill P.it (st.cache.items.itemFlag P.it) :: .quiet :: acts ++ [.quiet])
      st'.cache g') (hstore : StoreActs (st.at_ a) g P.it P.line.cmd acts .STORED)
    (hlinked : ∀ p, .link p ∈ acts → st'.cache.items.key p = P.line.key) {p : Ptr} {us vs : List Act}
    (hacts : acts = us ++ .link p :: vs) (hvs : ∀ q, .unlink q ∉ vs) :
    st'.cache.found P.line.key = some p ∧ st'.cache.items.cas p = st.cache.casId + 1 ∧
      st'.cache.casId = st.cache.casId + 1 := by
  have hs : Sound (st.at_ a) g := h.sound.setClock a.now
  have hlink : .link p ∈ acts := by simp [hacts]
  have hmem : .link p ∈ Act.fill P.it (st.cache.items.itemFlag P.it) :: .quiet :: acts ++ [.quiet] := by
    simp [hlink]
  have hpT : p ∈ g'.table := by
    have hsplit : Steps (st.at_ a) g ((.fill P.it (st.cache.items.itemFlag P.it) :: .quiet :: us) ++
        .link p :: (vs ++ [.quiet])) st'.cache g' := by simpa [hacts] using hsteps
    exact hsplit.mem_table_of_link (by simpa using hvs)
  refine ⟨(hinv.sound.mem_found_iff _ p).mpr ⟨hpT, hlinked p hlink⟩, ?_⟩
  refine hsteps.cas_of_linking hs (hsteps.notLinked_of_link hs hmem) (hsteps.everLinked_of_link hs hmem)
    (q := p) fun l => ?_
  simp only [List.cons_append, List.foldl_cons, List.foldl_append, List.foldl_nil]
  exact hstore.linking hlink l

/-- A live item is the entry that is served. -/
theorem lookup_of_live {p : Ptr} (hl : (st.at_ a).live k p) :
    st.ideal.lookup a.now k = some (st.cache.entry p) := by
  have hfound : st.cache.found k = some p := hl.1
  have hpass : ¬Reached (st.cache.entry p).expires a.now := hl.2
  unfold Ideal.lookup
  rw [ideal_entries, hfound]
  simpa using hpass

/-- A stored append or prepend leaves the key with both values. -/
theorem entry_joined (h : Inv st g) (hsized : Sized st.cache g) (hinv : Inv st' g')
    (hstep : st.step a = .ok st')
    (hsteps : Steps (st.at_ a) g (.fill P.it (st.cache.items.itemFlag P.it) :: .quiet :: acts ++ [.quiet])
      st'.cache g') (hreq : a.req = .block bytes) (hP : st.pending a.conn = some P)
    (hlen : (bytes.length : ℤ) = P.line.vlen)
    (hstore : StoreActs (st.at_ a) g P.it P.line.cmd acts .STORED)
    (hlinked : ∀ p, .link p ∈ acts → st'.cache.items.key p = P.line.key)
    (hreply : st'.reply = .stored .STORED) (hcmd : P.line.cmd = .append ∨ P.line.cmd = .prepend)
    (hvalue : ((st.at_ a).writeValue P.it bytes).items.value P.it = bytes) :
    ∃ e, st.ideal.lookup a.now P.line.key = some e ∧ st'.ideal.entries P.line.key =
        some ⟨P.line.cmd.combine e.value bytes, P.line.shown, e.expires, st.cache.casId + 1⟩ ∧
      st'.cache.casId = st.cache.casId + 1 := by
  have hs : Sound (st.at_ a) g := h.sound.setClock a.now
  have hit : P.it ∈ g.inFlight := (h.flight _).mpr ⟨a.conn, P, hP, rfl⟩
  have hwrite := (Steps.writeValue (s := st.at_ a) hit bytes).sound hs
  have hkey : (st.at_ a).items.key P.it = P.line.key := (h.filled _ P hP).key
  have hkey' : ((st.at_ a).writeValue P.it bytes).items.key P.it = P.line.key :=
    (key_writeValue _ _ _ _).trans hkey
  obtain ⟨p, us, vs, hsplit, hvs, -⟩ := hstore.exists_link rfl (.inr hcmd)
  obtain ⟨hfound, hcas, hids⟩ := found_linked h hinv hsteps hstore hlinked hsplit hvs
  obtain ⟨c, hblock⟩ := commandBlock_of_step hstep hreq hP hlen hreply
  obtain ⟨old, hold, hkold, hspliced, -⟩ := storeItem_joined hwrite
    ((hsized.setClock a.now).writeValue hs hit bytes) hit hcmd hblock (hkey'.symm ▸ hfound)
  -- the item that was joined is the live one
  have hlive : (st.at_ a).live P.line.key old := by
    have hok := (hstore.stored_iff hs).mp rfl
    obtain ⟨q, hq⟩ : ∃ q, (st.at_ a).live P.line.key q := by
      rw [← hkey]
      rcases hcmd with e | e
      all_goals
        simp only [Cache.stores, e] at hok
        obtain ⟨q, hq, -⟩ := hok
        exact ⟨q, hq⟩
    have hfold : old ∈ (st.at_ a).found P.line.key := by
      refine (hs.mem_found_iff _ old).mpr ⟨hold, ?_⟩
      rw [← hkey', ← hkold, key_writeValue]
    obtain rfl : q = old := Option.some.inj (hq.1.symm.trans hfold)
    exact hq
  have hne : old ≠ P.it := fun e => hs.unlinked P.it hit (e ▸ (hs.linked old hold).1)
  have hvold : ((st.at_ a).writeValue P.it bytes).items.value old = (st.cache.entry old).value :=
    value_writeValue_of_ne _ bytes hne
  refine ⟨st.cache.entry old, lookup_of_live hlive, ?_, hids⟩
  rw [ideal_entries, hfound, Option.map_some]
  unfold Cache.entry StoreLine.shown
  rw [hspliced.value, hspliced.shown, hspliced.exptime, hcas, dropEnd_value, dropEnd_value, hvalue, hvold,
    if_pos hcmd]
  rcases hcmd with e | e <;> rw [e] <;> rfl

/-- An item that is not linked leaves its key without an entry. -/
theorem entry_unlinked (h : Inv st g)
    (hsteps : Steps (st.at_ a) g (.fill P.it (st.cache.items.itemFlag P.it) :: .quiet :: acts ++ [.quiet])
      st'.cache g') (hP : st.pending a.conn = some P)
    (hstore : StoreActs (st.at_ a) g P.it P.line.cmd acts .STORED) (hnolink : ∀ q, .link q ∉ acts) :
    st'.ideal.entries P.line.key = none ∧ st'.cache.casId = st.cache.casId := by
  have hs : Sound (st.at_ a) g := h.sound.setClock a.now
  have hkey : (st.at_ a).items.key P.it = P.line.key := (h.filled _ P hP).key
  have hnolink' : ∀ q, .link q ∉ Act.fill P.it (st.cache.items.itemFlag P.it) :: .quiet :: acts ++ [.quiet] :=
    fun q => by simp [hnolink q]
  have hnone : st'.cache.found P.line.key = none := by
    rw [(hsteps.sound hs).found_none_iff]
    by_cases habs : g.Absent (st.at_ a).items P.line.key
    · exact hsteps.absent hs habs fun q hq => absurd hq (hnolink' q)
    · unfold Shape.Absent at habs
      push Not at habs
      obtain ⟨p, hp, hk⟩ := habs
      have hu := hstore.unlink_mem hs rfl hp (hk.trans hkey.symm)
      rw [← hk]
      exact hsteps.absent_of_unlink hs (hs.linked p hp).1 (by simp [hu]) fun q hq => absurd hq (hnolink' q)
  exact ⟨by rw [ideal_entries, hnone, Option.map_none],
    hsteps.links_of_unlinking hs (Act.linking_of_none hnolink')⟩

/-- A block that is stored leaves the key with the entry that the ideal service gives it. -/
theorem entry_stored (h : Inv st g) (hsized : Sized st.cache g) (hinv : Inv st' g')
    (hstep : st.step a = .ok st')
    (hsteps : Steps (st.at_ a) g (.fill P.it (st.cache.items.itemFlag P.it) :: .quiet :: acts ++ [.quiet])
      st'.cache g') (hreq : a.req = .block bytes) (hP : st.pending a.conn = some P)
    (hlen : (bytes.length : ℤ) = P.line.vlen)
    (hstore : StoreActs (st.at_ a) g P.it P.line.cmd acts .STORED)
    (hlinked : ∀ p, .link p ∈ acts → st'.cache.items.key p = P.line.key)
    (hkept : .link P.it ∈ acts → Kept ((st.at_ a).writeValue P.it bytes).items st'.cache.items P.it)
    (hreply : st'.reply = .stored .STORED) :
    st'.ideal.entries P.line.key =
        Ideal.stored (st.awaitedOf P) bytes (st.cache.casId + 1) (st.ideal.lookup a.now P.line.key) ∧
      st'.cache.casId = if (st'.ideal.entries P.line.key).isSome then st.cache.casId + 1
        else st.cache.casId := by
  have hfill := h.filled _ P hP
  have hflag : (st.at_ a).items.itemFlag P.it = P.line.flags.toUInt8 := hfill.itemFlag
  have hvalue : ((st.at_ a).writeValue P.it bytes).items.value P.it = bytes := by
    have hbytes : (st.at_ a).items.nbytes P.it = P.line.vlen := hfill.nbytes
    exact value_writeValue (st.at_ a) P.it (by omega)
  have hline : (st.awaitedOf P).line = P.line := rfl
  unfold Ideal.stored
  rw [hline]
  by_cases hcmd : P.line.cmd = .append ∨ P.line.cmd = .prepend
  · obtain ⟨e, hlook, hentries, hids⟩ := entry_joined h hsized hinv hstep hsteps hreq hP hlen hstore hlinked
      hreply hcmd hvalue
    rw [if_pos hcmd, hentries, hlook]
    exact ⟨rfl, hids⟩
  · rw [if_neg hcmd]
    by_cases hplain : P.line.Plain
    · obtain ⟨p, us, vs, hsplit, hvs, hp⟩ := hstore.exists_link rfl (.inl (hflag ▸ hplain))
      obtain rfl : p = P.it := by rwa [if_neg hcmd] at hp
      obtain ⟨hfound, hcas, hids⟩ := found_linked h hinv hsteps hstore hlinked hsplit hvs
      have hk := hkept (by simp [hsplit])
      have hentries : st'.ideal.entries P.line.key =
          some ⟨bytes, P.line.shown, st.cache.items.exptime P.it, st.cache.casId + 1⟩ := by
        have hshown : ((st.at_ a).writeValue P.it bytes).items.shown P.it = P.line.shown := by
          unfold StoreLine.shown
          rw [if_neg hcmd]
          exact congrArg shownFlags hflag
        rw [ideal_entries, hfound, Option.map_some]
        unfold Cache.entry
        rw [hk.value, hk.shown, hk.exptime, hcas, hvalue, hshown]
        rfl
      rw [if_pos hplain, hentries]
      exact ⟨rfl, hids⟩
    · obtain ⟨hentries, hids⟩ := entry_unlinked h hsteps hP hstore
        (hstore.noLink (hflag ▸ hplain) (not_or.mp hcmd))
      rw [if_neg hplain, hentries]
      exact ⟨rfl, hids⟩

theorem block_refines (h : Inv st g) (hsized : Sized st.cache g) (hinv : Inv st' g')
    (hstep : st.step a = .ok st')
    (hsteps : Steps (st.at_ a) g (.fill P.it (st.cache.items.itemFlag P.it) :: .quiet :: acts ++ [.quiet])
      st'.cache g')
    (hacts : StepActs st g a (.fill P.it (st.cache.items.itemFlag P.it) :: .quiet :: acts ++ [.quiet]) st')
    (hreq : a.req = .block bytes) (hP : st.pending a.conn = some P)
    (hlen : (bytes.length : ℤ) = P.line.vlen)
    (hstore : StoreActs (st.at_ a) g P.it P.line.cmd acts stat)
    (hlinked : ∀ p, .link p ∈ acts → st'.cache.items.key p = P.line.key)
    (hkept : .link P.it ∈ acts → Kept ((st.at_ a).writeValue P.it bytes).items st'.cache.items P.it)
    (hpend : st'.pending = Function.update st.pending a.conn none) (hreply : st'.reply = .stored stat) :
    Ideal.Step st.cache.bucketOf st.ideal (a, st'.answer) st'.ideal := by
  have hkey : st.cache.items.key P.it = P.line.key := (h.filled _ P hP).key
  have hanswer : st'.answer = .stored stat := by
    unfold answer
    rw [hreply]
  have hawaited : st'.ideal.awaited = Function.update st.ideal.awaited a.conn none :=
    awaited_update h hsteps hacts hpend
  have hA : st.ideal.awaited a.conn = some (st.awaitedOf P) := by
    rw [ideal_awaited, hP]
    rfl
  have hre : Rebinds st.cache.bucketOf st.ideal.entries P.line.key (st'.ideal.entries P.line.key)
      st'.ideal.entries := by
    refine entries_rebind h hsteps (fun q hq => hlinked q (by simpa using hq)) fun q hq => ?_
    obtain ⟨hqT, hk⟩ := hstore.unlinked (q := q) (by simpa using hq)
    exact ⟨hqT, hk.trans hkey⟩
  by_cases hstat : stat = .STORED
  · subst hstat
    obtain ⟨hentry, hids⟩ := entry_stored h hsized hinv hstep hsteps hreq hP hlen hstore hlinked hkept hreply
    rcases verdict_of_store h hP hstore with hv | ⟨-, hv, -⟩
    · have hout : Ideal.outcome (st.awaitedOf P) bytes (st.ideal.ids + 1)
          (st.ideal.lookup a.now P.line.key) = st'.ideal.entries P.line.key := by
        unfold Ideal.outcome
        rw [if_pos hv.symm, hentry]
        rfl
      have hids' : st'.cache.casId = if Ideal.verdict (st.awaitedOf P) (st.ideal.lookup a.now P.line.key) =
          .STORED ∧ (st'.ideal.entries P.line.key).isSome then st.ideal.ids + 1 else st.ideal.ids := by
        rw [hids]
        simp only [← hv, true_and]
        rfl
      rw [← hout] at hre
      rw [hanswer, ideal_eq rfl hawaited rfl, hv]
      exact .block (st.awaitedOf P) bytes hreq hA hlen hre hids'
    · cases hv
  · obtain ⟨hentry, hids, hsame⟩ := entry_refused h hsteps hP hstore hstat
    rcases verdict_of_store h hP hstore with hv | ⟨hcmd, hv, hsome⟩
    · have hne : Ideal.verdict (st.awaitedOf P) (st.ideal.lookup a.now P.line.key) ≠ .STORED := hv ▸ hstat
      have hout : Ideal.outcome (st.awaitedOf P) bytes (st.ideal.ids + 1)
          (st.ideal.lookup a.now P.line.key) = st'.ideal.entries P.line.key := by
        unfold Ideal.outcome
        rw [if_neg hne, hentry]
      have hids' : st'.cache.casId = if Ideal.verdict (st.awaitedOf P) (st.ideal.lookup a.now P.line.key) =
          .STORED ∧ (st'.ideal.entries P.line.key).isSome then st.ideal.ids + 1 else st.ideal.ids := by
        rw [if_neg fun hc => hne hc.1, hids]
        rfl
      rw [← hout] at hre
      rw [hanswer, ideal_eq rfl hawaited rfl, hv]
      exact .block (st.awaitedOf P) bytes hreq hA hlen hre hids'
    · obtain ⟨e, he⟩ := Option.isSome_iff_exists.mp hsome
      rw [hanswer, hv, ideal_eq (hsame hsome) hawaited hids]
      exact .full (st.awaitedOf P) bytes hreq hA hlen hcmd e he

/-! ### Runs -/

/-- An action is a step of the ideal service. -/
theorem step_refines (h : Inv st g) (hsized : Sized st.cache g) (hstep : st.step a = .ok st') :
    Ideal.Step st.cache.bucketOf st.ideal (a, st'.answer) st'.ideal := by
  rcases step_spec h a with ⟨herr, -⟩ | ⟨st'', g', acts, hok, hinv, hsteps, hacts⟩
  · cases herr.symm.trans hstep
  · cases hok.symm.trans hstep
    have hall := hacts
    cases hacts with
    | ignored hno hst =>
      subst hst
      exact .ignored fun hallowed => hno ((st.ideal_allowed a).mp hallowed)
    | longKey k hreq hk hst =>
      subst hst
      by_cases hfree : st.pending a.conn = none
      · exact .badFormat k hreq (awaited_eq_none hfree) hk
      · obtain ⟨P, hP⟩ := Option.ne_none_iff_exists'.mp hfree
        unfold step at hok
        simp only [hreq, hP] at hok
        cases hok
    | get k hreq hfree hk acts r hget hpend hreply =>
      exact get_refines h hsteps hall hreq hfree hk hget hpend hreply
    | delete k hreq hfree acts b hrem hpend hreply =>
      exact delete_refines h hsteps hall hreq hfree hrem hpend hreply
    | accepted L hcmd hreq hfree it acts hline hpend hreply =>
      exact accepted_refines h hok hsteps hall hreq hfree hline hpend hreply
    | refused L hcmd hreq hfree acts hline hpend hreply =>
      exact refused_refines h hsteps hall hreq hfree hline hpend hreply
    | block P bytes hreq hP hlen acts stat hstore hlinked hkept hpend hreply =>
      exact block_refines h hsized hinv hok hsteps hall hreq hP hlen hstore hlinked hkept hpend hreply

/-- Every run is a talk. -/
theorem exists_talk {as : List Action} (hrun : run step st as = .ok st') :
    ∃ xs, xs.map Prod.fst = as ∧ Path Talk st xs st' := by
  induction as generalizing st with
  | nil =>
    cases hrun
    exact ⟨[], rfl, .nil _⟩
  | cons a as ih =>
    obtain ⟨st₁, hstep, hrest⟩ := (run_cons_eq_ok step).mp hrun
    obtain ⟨xs, hxs, hpath⟩ := ih hrest
    exact ⟨(a, st₁.answer) :: xs, by rw [List.map_cons, hxs], .cons ⟨hstep, rfl⟩ hpath⟩

/-- The last answer of a run. -/
theorem exists_talk_snoc {as : List Action} (hrun : run step st (as ++ [a]) = .ok st') :
    ∃ xs, xs.map Prod.fst = as ∧ Path Talk st (xs ++ [(a, st'.answer)]) st' := by
  obtain ⟨st₁, hrun₁, hrest⟩ := (run_append_eq_ok step).mp hrun
  obtain ⟨xs, hxs, htalk⟩ := exists_talk hrun₁
  obtain ⟨st₂, hstep, hnil⟩ := (run_cons_eq_ok step).mp hrest
  cases hnil
  exact ⟨xs, hxs, htalk.snoc ⟨hstep, rfl⟩⟩

theorem ideal_start {limit : ℕ} {set : Settings} {mallocOk : ℕ → Bool} {hashpower : ℕ} {s : Cache}
    (hinit : Cache.init limit set mallocOk hashpower = some s) : (start s).ideal = .empty := by
  obtain ⟨F, hs, -⟩ := Sound.init hinit
  have hids : s.casId = 0 := by
    unfold Cache.init at hinit
    obtain ⟨r, -, rfl⟩ := Option.map_eq_some_iff.mp hinit
    rfl
  refine ideal_eq (funext fun k => ?_) rfl hids
  have hnone : s.found k = none :=
    (hs.found_none_iff k).mpr fun p hp => absurd hp (Shape.notMem_table_fresh F p)
  rw [ideal_entries]
  exact congrArg _ hnone

/-- What is known of a state that a run reaches. -/
theorem talk_step {bucketOf : List UInt8 → ℕ} {x : Action × Answer}
    (h : (∃ g, Inv st g ∧ Sized st.cache g) ∧ st.cache.bucketOf = bucketOf) (htalk : Talk st x st') :
    ((∃ g, Inv st' g ∧ Sized st'.cache g) ∧ st'.cache.bucketOf = bucketOf) ∧
      Ideal.Step bucketOf st.ideal x st'.ideal := by
  obtain ⟨⟨g, hinv, hsized⟩, hbucket⟩ := h
  obtain ⟨hstep, hanswer⟩ := htalk
  obtain ⟨a, r⟩ := x
  subst hbucket hanswer
  refine ⟨⟨sized_step ⟨g, hinv, hsized⟩ hstep, funext fun k => ?_⟩, step_refines hinv hsized hstep⟩
  rcases step_spec hinv a with ⟨herr, -⟩ | ⟨st'', g', acts, hok, -, hsteps, -⟩
  · cases herr.symm.trans hstep
  · cases hok.symm.trans hstep
    exact hsteps.bucketOf (hinv.sound.setClock a.now) k

/-- Every talk with a fresh server is a talk with the ideal service that gives the same
answers. -/
theorem talk_refines {limit : ℕ} {set : Settings} {mallocOk : ℕ → Bool} {hashpower : ℕ} {s₀ : Cache}
    (hinit : Cache.init limit set mallocOk hashpower = some s₀) {xs : List (Action × Answer)}
    (htalk : Path Talk (start s₀) xs st) : Path (Ideal.Step s₀.bucketOf) .empty xs st.ideal := by
  have hpath := (htalk.refines (I := fun st => (∃ g, Inv st g ∧ Sized st.cache g) ∧
    st.cache.bucketOf = s₀.bucketOf) (fun _ _ _ hI hab => talk_step hI hab) ⟨sized_start hinit, rfl⟩).2
  rwa [ideal_start hinit] at hpath

/-- In every run of requests, of any connections in any order, the answers are those of
the ideal service, whose entries are at the end those that lookups find. -/
theorem run_refines {limit : ℕ} {set : Settings} {mallocOk : ℕ → Bool} {hashpower : ℕ} {s₀ : Cache}
    (hinit : Cache.init limit set mallocOk hashpower = some s₀) {as : List Action}
    (hrun : run step (start s₀) as = .ok st) :
    ∃ xs, xs.map Prod.fst = as ∧ Path Talk (start s₀) xs st ∧
      Path (Ideal.Step s₀.bucketOf) .empty xs st.ideal := by
  obtain ⟨xs, hxs, htalk⟩ := exists_talk hrun
  exact ⟨xs, hxs, htalk, talk_refines hinit htalk⟩

/-- A key is set and read. -/
def setThenGet : List Action := storing 1 0 (shortLine .set 97 0 0 0) set_ne_error ++ [⟨1, 0, .get [97]⟩]

theorem run_refines_setThenGet : ∃ s₀ st xs, Cache.init 1 smallSettings (fun _ => true) 0 = some s₀ ∧
    run step (start s₀) setThenGet = .ok st ∧ xs.map Prod.fst = setThenGet ∧
    Path (Ideal.Step s₀.bucketOf) .empty xs st.ideal ∧
    st.ideal.entries [97] = some ⟨[120, 13, 10], 9, 0, 1⟩ := by
  have htrial : (trial 1 0 setThenGet).any (fun st =>
      decide (st.ideal.entries [97] = some ⟨[120, 13, 10], 9, 0, 1⟩)) = true := by decide +kernel
  obtain ⟨s₀, st, hinit, hrun, hp⟩ := exists_of_trial htrial
  obtain ⟨xs, hxs, -, hpath⟩ := run_refines hinit hrun
  exact ⟨s₀, st, xs, hinit, hrun, hxs, hpath, of_decide_eq_true hp⟩

end Service

end MiniMemcached
