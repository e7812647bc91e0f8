import MiniMemcached.Service.Splicing

/-! Deadlines. A history beside the service keeps the deadline of the value of each key:
the one of the storage line whose block was stored, where append and prepend leave the
key with the deadline that it had. `do_item_get` returns the item of a key just until the
deadline of its value, and an item that it has refused is gone for good. -/

namespace MiniMemcached

open Runs

namespace Service

/-- The deadline of a value whose storage line is parsed at a time with this expiry time. -/
def deadline (now exptime : ℕ) : Option ℕ :=
  if exptime = 0 then none
  else if exptime ≤ 2592000 then some (now + exptime)
  else some exptime

def Passed (d : Option ℕ) (now : ℕ) : Prop := ∃ t ∈ d, t ≤ now

/-- The service with the deadlines of the values of the keys, and of those that the
connections wait for. -/
structure Dated where
  service : Service
  due : List UInt8 → Option ℕ
  owed : ℕ → Option ℕ

namespace Dated

/-- A stored block brings its deadline along, unless it extends a value. -/
def dueAfter (D : Dated) (a : Action) (reply : Reply) : List UInt8 → Option ℕ :=
  match D.service.pending a.conn, reply with
  | some P, .stored .STORED =>
    if P.line.cmd = .append ∨ P.line.cmd = .prepend then D.due
    else Function.update D.due P.line.key (D.owed a.conn)
  | _, _ => D.due

/-- A storage line that gets an item sets the deadline. -/
def owedAfter (D : Dated) (a : Action) (reply : Reply) : ℕ → Option ℕ :=
  match a.req, reply with
  | .store L _, .waiting => Function.update D.owed a.conn (deadline a.now.toNat L.exptime.toNat)
  | _, _ => D.owed

def step (D : Dated) (a : Action) : Result Dated := do
  let st ← D.service.step a
  pure { service := st, due := D.dueAfter a st.reply, owed := D.owedAfter a st.reply }

def start (s : Cache) : Dated where
  service := Service.start s
  due _ := none
  owed _ := none

/-- The history does not stand in the way of a run. -/
theorem exists_run {as : List Action} {D : Dated} {st : Service}
    (hrun : run Service.step D.service as = .ok st) : ∃ D', run step D as = .ok D' ∧ D'.service = st := by
  induction as generalizing D with
  | nil =>
    cases hrun
    exact ⟨D, rfl, rfl⟩
  | cons a as ih =>
    obtain ⟨st₁, hstep, hrest⟩ := (run_cons_eq_ok Service.step).mp hrun
    obtain ⟨D', hrun', hD⟩ := ih (D := ⟨st₁, D.dueAfter a st₁.reply, D.owedAfter a st₁.reply⟩) hrest
    refine ⟨D', (run_cons_eq_ok step).mpr ⟨_, ?_, hrun'⟩, hD⟩
    unfold step
    rw [hstep]
    rfl

end Dated

/-- The calls of `do_item_get` in an action: the cache and the key. -/
inductive Calls (st : Service) (a : Action) : Cache → List UInt8 → Prop
  | get (k : List UInt8) (hreq : a.req = .get k) (hfree : st.pending a.conn = none)
      (hk : k.length ≤ KEY_MAX_LENGTH) : Calls st a ((st.at_ a).hashLock (HashTable.hash k)) k
  | delete (k : List UInt8) (hreq : a.req = .delete k) (hfree : st.pending a.conn = none) :
      Calls st a ((st.at_ a).hashLock (HashTable.hash k)) k
  | refused (L : StoreLine) (hcmd : L.cmd ≠ .error) (hreq : a.req = .store L hcmd)
      (hfree : st.pending a.conn = none) (hset : L.cmd = .set) (s : Cache)
      (halloc : (st.at_ a).allocLine L = .ok (s, none)) :
      Calls st a (s.hashLock (HashTable.hash L.key)) L.key
  | block (P : Pending) (bytes : List UInt8) (hreq : a.req = .block bytes)
      (hP : st.pending a.conn = some P) (hlen : (bytes.length : ℤ) = P.line.vlen) :
      Calls st a (st.atStore a P bytes) P.line.key

/-- A call of `do_item_get` in the action returns the item. -/
def Returns (st : Service) (a : Action) (p : Ptr) : Prop :=
  ∃ s k s', st.Calls a s k ∧ s.doItemGet k (HashTable.hash k) = .ok (s', some p)

variable {st st' : Service} {g g' : Shape} {a : Action} {acts : List Act} {s : Cache} {k : List UInt8}

/-- The cache of a call has the items that the one before the action has. -/
theorem Calls.sees (h : Inv st g) (hcall : st.Calls a s k) :
    Sound s g ∧ s.clock = a.now ∧ s.items.exptime = st.cache.items.exptime ∧
      s.items.key = st.cache.items.key := by
  have hs : Sound (st.at_ a) g := h.sound.setClock a.now
  cases hcall with
  | get | delete => exact ⟨hs.hashLock _, rfl, rfl, rfl⟩
  | refused L hcmd hreq hfree hset s halloc =>
    rcases Steps.allocLine hs L with ⟨-, b, t, heq, hb, hl, hf⟩ | ⟨-, s', g', it, heq, -⟩
    · cases heq.symm.trans halloc
      exact ⟨(hs.refused hb hl).hashLock _, rfl, rfl, rfl⟩
    · cases heq.symm.trans halloc
  | block P bytes hreq hP hlen =>
    have hit : P.it ∈ g.inFlight := (h.flight _).mpr ⟨a.conn, P, hP, rfl⟩
    refine ⟨((Steps.writeValue (s := st.at_ a) hit bytes).sound hs).hashLock _, rfl, rfl, ?_⟩
    exact funext fun p => key_writeValue (st.at_ a) P.it bytes p

/-- The items that can be found are the same before the action and in its call. -/
theorem Calls.found_iff (h : Inv st g) (hcall : st.Calls a s k) (k' : List UInt8) (p : Ptr) :
    p ∈ s.found k' ↔ p ∈ st.cache.found k' := by
  obtain ⟨hs, -, -, hkey⟩ := hcall.sees h
  rw [hs.mem_found_iff, h.sound.mem_found_iff, hkey]

end Service

/-! ### What a storage command does to the deadlines -/

/-- A line that got an item has set its deadline. -/
theorem Sound.exptime_allocLine {s s' : Cache} {g : Shape} {L : StoreLine} {it : Ptr} (h : Sound s g)
    (halloc : s.allocLine L = .ok (s', some it)) :
    s'.items.exptime it = realtime L.exptime s.clock := by
  obtain ⟨⟨s₁, r⟩, hitem, halloc⟩ := Result.bind_eq_ok.mp halloc
  cases r with
  | none => cases halloc
  | some it' =>
    cases halloc
    obtain ⟨hno, hyes⟩ := h.doItemAlloc_spec L.key.length L.vlen
    by_cases hok : s.slab.allocOk L.key.length L.vlen
    · obtain ⟨s₂, g₂, it₂, heq, hgrant⟩ := hyes hok
      cases heq.symm.trans hitem
      have hsteps : Steps s g [.grant it _ _] s₁ g₂ := .single (.grant hgrant)
      have hclock : s₁.clock = s.clock := (hsteps.evolves h (K := ∅) (by simp) (by simp)).clock
      rw [Steps.fillItem_form, hclock]
      exact Function.update_self ..
    · obtain ⟨b, t, heq, -⟩ := hno hok
      cases heq.symm.trans hitem

/-- A command that answers `STORED` unlinks the item that the key was bound to. -/
theorem StoreActs.unlink_mem {s : Cache} {g : Shape} {it p : Ptr} {cmd : Nread} {acts : List Act}
    {stat : StoreStat} (h : StoreActs s g it cmd acts stat) (hs : Sound s g) (hstat : stat = .STORED)
    (hp : p ∈ g.table) (hk : s.items.key p = s.items.key it) : .unlink p ∈ acts := by
  have hfound : p ∈ s.found (s.items.key it) := (hs.mem_found_iff _ p).mpr ⟨hp, hk⟩
  have hold : ∀ {acts' old}, GetActs s g (s.items.key it) acts' (some old) → p = old := by
    intro acts' old hget
    exact Option.some.inj (hfound.symm.trans ((hget.live_iff hs old).mpr rfl).1)
  cases h with
  | noKey
  | taken
  | stale
  | full => cases hstat
  | new acts hget hcmd =>
    have hexp : s.expired p := by
      by_contra hl
      cases (hget.live_iff hs p).mp ⟨hfound, hl⟩
    simp [hget.unlink_mem hs hp hk hexp]
  | replaced old acts hget
  | swapped old acts hget
  | joined old new acts hget => simp [hold hget]

namespace Service

variable {st st' : Service} {g g' : Shape} {a : Action} {acts : List Act} {s : Cache} {k : List UInt8}

/-- A step leaves the items that other connections wait to fill alone. -/
theorem StepActs.writes (h : StepActs st g a acts st') (hinv : Inv st g) {c : ℕ} {P : Pending}
    (hwas : st.pending c = some P) (hc : st'.pending c = some P) : ∀ b ∈ acts, b.writes ≠ some P.it := by
  have hit : P.it ∈ g.inFlight := (hinv.flight _).mpr ⟨c, P, hwas, rfl⟩
  cases h with
  | ignored
  | longKey => simp
  | get k hreq hfree hlen acts r hget =>
    have hin : ∀ b ∈ acts, b.writes ≠ some P.it := fun b hb => by simp [hget.writes b hb]
    simpa [or_imp, forall_and, Act.writes] using hin
  | delete k hreq hfree acts b hrem => exact fun b hb => by simp [hrem.writes b hb]
  | accepted L hcmd hreq hfree it acts hline =>
    cases hline with
    | granted _ hok hE hnew =>
      have hne : ¬it = P.it := fun e => hnew (e ▸ hit)
      simp [Act.writes, hne]
  | refused L hcmd hreq hfree acts hline => exact fun b hb => by simp [(hline.quiet ∅).1 b hb]
  | block P' bytes hreq hP' hlen acts stat hstore hlinked hkept hpend =>
    have hne : c ≠ a.conn := by
      rintro rfl
      rw [hpend, Function.update_self] at hc
      cases hc
    have hne' : P.it ≠ P'.it := fun e => hne (hinv.distinct c a.conn P P' hwas hP' e)
    have hne'' : ¬P'.it = P.it := fun e => hne' e.symm
    have hin := hstore.writes hit hne'
    simpa [or_imp, forall_and, Act.writes, hne''] using hin

/-- What the field `exptime` of an item says. -/
def dueOf (exptime : UInt32) : Option ℕ := if exptime = 0 then none else some exptime.toNat

theorem passed_dueOf (exptime now : UInt32) :
    Passed (dueOf exptime) now.toNat ↔ exptime ≠ 0 ∧ exptime ≤ now := by
  unfold Passed dueOf
  split_ifs with h0
  · simp [h0]
  · simp [h0, UInt32.le_iff_toNat_le]

/-- `realtime` computes the deadline. -/
theorem dueOf_realtime {exptime now : UInt32} (hnow : now.toNat + 2592000 < 2 ^ 32) :
    dueOf (realtime exptime now) = deadline now.toNat exptime.toNat := by
  have hzero : exptime = 0 ↔ exptime.toNat = 0 := UInt32.toNat_inj.symm
  have hmax : REALTIME_MAXDELTA = 2592000 := rfl
  by_cases h0 : exptime = 0
  · simp [dueOf, realtime, deadline, h0]
  · have hpos : exptime.toNat ≠ 0 := fun e => h0 (hzero.mpr e)
    unfold deadline
    rw [if_neg hpos]
    by_cases hle : exptime.toNat ≤ 2592000
    · have hreal : realtime exptime now = exptime + now := by
        unfold realtime
        rw [if_neg h0, if_neg (by omega)]
      have hsum : (exptime + now).toNat = now.toNat + exptime.toNat := by
        rw [UInt32.toNat_add, Nat.mod_eq_of_lt (by omega), Nat.add_comm]
      have hne : exptime + now ≠ 0 := by
        intro e
        rw [e] at hsum
        have h0' : (0 : UInt32).toNat = 0 := rfl
        omega
      rw [hreal, dueOf, if_neg hne, hsum, if_pos hle]
    · have hreal : realtime exptime now = exptime := by
        have hstarted : ¬exptime.toNat ≤ processStarted := by
          unfold processStarted
          omega
        unfold realtime
        rw [if_neg h0, if_pos (by omega), if_neg hstarted]
        exact UInt32.ofNat_toNat
      rw [hreal, dueOf, if_neg h0, if_neg hle]

/-- A storage line that is answered by waiting for its block got an item. -/
theorem allocLine_of_step (hstep : st.step a = .ok st') {L : StoreLine} {hcmd : L.cmd ≠ .error}
    (hreq : a.req = .store L hcmd) (hfree : st.pending a.conn = none) (hreply : st'.reply = .waiting) :
    ∃ it, (st.at_ a).allocLine L = .ok (st'.cache, some it) ∧
      st'.pending = Function.update st.pending a.conn (some ⟨it, L⟩) := by
  unfold step at hstep
  simp only [hreq, hfree] at hstep
  obtain ⟨⟨s, r⟩, hline, hstep⟩ := Result.bind_eq_ok.mp hstep
  cases r with
  | none =>
    cases hstep
    cases hreply
  | some it =>
    cases hstep
    obtain ⟨⟨s₁, r₁⟩, halloc, hline⟩ := Result.bind_eq_ok.mp hline
    cases r₁ with
    | none =>
      dsimp only at hline
      split at hline
      · obtain ⟨r₂, -, hline⟩ := Result.bind_eq_ok.mp hline
        cases hline
      · cases hline
    | some it₁ =>
      cases hline
      exact ⟨it, halloc, rfl⟩

namespace Dated

/-- The deadlines are what the fields of the items say. -/
structure Inv (D : Dated) (g : Shape) : Prop where
  inv : Service.Inv D.service g
  sized : Sized D.service.cache g
  due : ∀ k, ∀ p ∈ D.service.cache.found k, D.due k = dueOf (D.service.cache.items.exptime p)
  owed : ∀ c P, D.service.pending c = some P → D.owed c = dueOf (D.service.cache.items.exptime P.it)

variable {D D' : Dated} {reply : Reply} {P : Pending}

theorem dueAfter_stored (hP : D.service.pending a.conn = some P)
    (hcmd : ¬(P.line.cmd = .append ∨ P.line.cmd = .prepend)) :
    D.dueAfter a (.stored .STORED) = Function.update D.due P.line.key (D.owed a.conn) := by
  unfold dueAfter
  simp only [hP, if_neg hcmd]

theorem dueAfter_joined (hP : D.service.pending a.conn = some P)
    (hcmd : P.line.cmd = .append ∨ P.line.cmd = .prepend) : D.dueAfter a reply = D.due := by
  unfold dueAfter
  split
  · rename_i P' hP'
    cases hP.symm.trans hP'
    rw [if_pos hcmd]
  · rfl

theorem dueAfter_other (hreply : reply ≠ .stored .STORED) : D.dueAfter a reply = D.due := by
  unfold dueAfter
  split
  · exact absurd rfl hreply
  · rfl

theorem owedAfter_other (hreply : reply ≠ .waiting) : D.owedAfter a reply = D.owed := by
  unfold owedAfter
  split
  · exact absurd rfl hreply
  · rfl

/-- The deadlines of the values after an action. -/
theorem due_step (h : D.Inv g) (hstep : D.service.step a = .ok st') (hinv : Service.Inv st' g')
    (hsteps : Steps (D.service.at_ a) g acts st'.cache g') (hacts : StepActs D.service g a acts st')
    {p : Ptr} (hp : p ∈ st'.cache.found k) :
    D.dueAfter a st'.reply k = dueOf (st'.cache.items.exptime p) := by
  have hs : Sound (D.service.at_ a) g := h.inv.sound.setClock a.now
  obtain ⟨hpT, hk⟩ := (hinv.sound.mem_found_iff k p).mp hp
  by_cases hlink : .link p ∈ acts
  · cases hacts with
    | ignored
    | longKey => cases hlink
    | get k' hreq hfree hlen acts r hget => simp [(hget.noLink p).1] at hlink
    | delete k' hreq hfree acts b hrem => exact absurd (hrem.writes _ hlink) (by simp [Act.writes])
    | accepted L hcmd hreq hfree it acts hline =>
      cases hline
      simp at hlink
    | refused L hcmd hreq hfree acts hline =>
      exact absurd ((hline.quiet ∅).1 _ hlink) (by simp [Act.writes])
    | block P bytes hreq hP hlen acts stat hstore hlinked hkept hpend hreply =>
      have hlink : .link p ∈ acts := by simpa using hlink
      obtain rfl : P.line.key = k := (hlinked p hlink).symm.trans hk
      obtain rfl := hstore.stored_of_link hlink
      have hit : P.it ∈ g.inFlight := (h.inv.flight _).mpr ⟨a.conn, P, hP, rfl⟩
      by_cases hcmd : P.line.cmd = .append ∨ P.line.cmd = .prepend
      · -- a joined item has the deadline of the old one
        have hkey : ((D.service.at_ a).writeValue P.it bytes).items.key P.it = P.line.key :=
          (key_writeValue _ _ _ _).trans (h.inv.filled _ P hP).key
        have hwrite := (Steps.writeValue (s := D.service.at_ a) hit bytes).sound hs
        obtain ⟨c, hblock⟩ := commandBlock_of_step hstep hreq hP hlen hreply
        obtain ⟨old, hold, hkold, hspliced, -⟩ := storeItem_joined hwrite
          ((h.sized.setClock a.now).writeValue hs hit bytes) hit hcmd hblock (hkey.symm ▸ hp)
        have hfound : old ∈ D.service.cache.found P.line.key := by
          rw [h.inv.sound.mem_found_iff]
          exact ⟨hold, (key_writeValue _ _ _ _).symm.trans (hkold.trans hkey)⟩
        rw [dueAfter_joined hP hcmd, hspliced.exptime]
        exact h.due _ old hfound
      · obtain rfl := hstore.eq_of_link (.inl (not_or.mp hcmd)) hlink
        rw [hreply, dueAfter_stored hP hcmd, Function.update_self, (hkept hlink).exptime]
        exact h.owed a.conn P hP
  · -- the item was there, and no stored block has replaced it
    have hpg : p ∈ g.table := (hsteps.table_of_link hpT).resolve_right hlink
    have hpE : p ∈ (D.service.at_ a).everLinked := (hs.linked p hpg).1
    have hev := hsteps.evolves hs (K := ∅) (by simp) (by simp)
    have hkp : (D.service.at_ a).items.key p = k := (hev.key (.inl hpE)).symm.trans hk
    have hold : p ∈ D.service.cache.found k := (h.inv.sound.mem_found_iff k p).mpr ⟨hpg, hkp⟩
    rw [hev.exptime p (.inl hpE)]
    refine Eq.trans ?_ (h.due k p hold)
    cases hacts with
    | ignored hno hst | longKey k' hreq hlong hst =>
      rw [hst, dueAfter_other (by simp)]
    | get k' hreq hfree hlen acts r hget hpend hreply =>
      rw [hreply, dueAfter_other (by cases r <;> simp)]
    | delete k' hreq hfree acts b hrem hpend hreply =>
      rw [hreply, dueAfter_other (by split_ifs <;> simp)]
    | accepted L hcmd hreq hfree it acts hline hpend hreply
    | refused L hcmd hreq hfree acts hline hpend hreply =>
      rw [hreply, dueAfter_other (by simp)]
    | block P bytes hreq hP hlen acts stat hstore hlinked hkept hpend hreply =>
      by_cases hcmd : P.line.cmd = .append ∨ P.line.cmd = .prepend
      · rw [dueAfter_joined hP hcmd]
      · by_cases hstat : stat = .STORED
        · have hne : k ≠ P.line.key := by
            rintro rfl
            have hkey := (h.inv.filled _ P hP).key
            have hunlink := hstore.unlink_mem hs hstat hpg (hkp.trans hkey.symm)
            exact hsteps.notMem_of_unlink hs hpE (by simp [hunlink]) hpT
          rw [hreply, hstat, dueAfter_stored hP hcmd, Function.update_of_ne hne]
        · rw [hreply, dueAfter_other (by simpa using hstat)]

/-- A connection that waited before the action and still waits has its deadline. -/
theorem owed_step (h : D.Inv g) (hnow : a.now.toNat + 2592000 < 2 ^ 32) (hstep : D.service.step a = .ok st')
    (hsteps : Steps (D.service.at_ a) g acts st'.cache g') (hacts : StepActs D.service g a acts st')
    {c : ℕ} (hP : st'.pending c = some P) :
    D.owedAfter a st'.reply c = dueOf (st'.cache.items.exptime P.it) := by
  have hs : Sound (D.service.at_ a) g := h.inv.sound.setClock a.now
  have hkeep : D.service.pending c = some P → D.owedAfter a st'.reply c = D.owed c →
      D.owedAfter a st'.reply c = dueOf (st'.cache.items.exptime P.it) := by
    intro hwas hsame
    have hit : P.it ∈ g.inFlight := (h.inv.flight _).mpr ⟨c, P, hwas, rfl⟩
    have hev := hsteps.evolves hs (K := {P.it}) (by simpa using hit) fun b hb => by
      simpa using hacts.writes h.inv hwas hP b hb
    rw [hsame, h.owed c P hwas, hev.exptime P.it (.inr rfl)]
    rfl
  cases hacts with
  | ignored hno hst | longKey k' hreq hlong hst =>
    subst hst
    exact hkeep hP (congrFun (owedAfter_other (by simp)) c)
  | get k' hreq hfree hlen acts r hget hpend hreply =>
    exact hkeep (hpend ▸ hP) (congrFun (owedAfter_other (by rw [hreply]; cases r <;> simp)) c)
  | delete k' hreq hfree acts b hrem hpend hreply =>
    exact hkeep (hpend ▸ hP) (congrFun (owedAfter_other (by rw [hreply]; split_ifs <;> simp)) c)
  | refused L hcmd hreq hfree acts hline hpend hreply =>
    exact hkeep (hpend ▸ hP) (congrFun (owedAfter_other (by simp [hreply])) c)
  | block P' bytes hreq hP' hlen acts stat hstore hlinked hkept hpend hreply =>
    have hsame : D.owedAfter a st'.reply c = D.owed c := congrFun (owedAfter_other (by simp [hreply])) c
    rw [hpend, Function.update_apply] at hP
    split_ifs at hP
    exact hkeep hP hsame
  | accepted L hcmd hreq hfree it acts hline hpend hreply =>
    have howed : D.owedAfter a st'.reply =
        Function.update D.owed a.conn (deadline a.now.toNat L.exptime.toNat) := by
      unfold owedAfter
      rw [hreq, hreply]
    obtain ⟨it', halloc, hpend'⟩ := allocLine_of_step hstep hreq hfree hreply
    have hP' := hP
    rw [hpend', Function.update_apply] at hP'
    split_ifs at hP' with hc
    · cases hP'
      rw [howed, hc, Function.update_self, hs.exptime_allocLine halloc]
      exact (dueOf_realtime hnow).symm
    · exact hkeep hP' (by rw [howed, Function.update_of_ne hc])

/-- An action keeps the history. -/
theorem inv_step (h : ∃ g, D.Inv g) (hnow : a.now.toNat + 2592000 < 2 ^ 32) (hstep : D.step a = .ok D') :
    ∃ g, D'.Inv g := by
  obtain ⟨g, h⟩ := h
  obtain ⟨st', hst, hstep⟩ := Result.bind_eq_ok.mp hstep
  cases hstep
  rcases step_spec h.inv a with ⟨herr, -⟩ | ⟨st'', g', acts, hok, hinv, hsteps, hacts⟩
  · cases herr.symm.trans hst
  · cases hok.symm.trans hst
    exact ⟨g', hinv, hacts.sized h.inv h.sized hst hinv hsteps,
      fun k p hp => due_step h hst hinv hsteps hacts hp, fun c P hP => owed_step h hnow hst hsteps hacts hP⟩

theorem start_inv {limit : ℕ} {set : Settings} {mallocOk : ℕ → Bool} {hashpower : ℕ} {s : Cache}
    (hinit : Cache.init limit set mallocOk hashpower = some s) : ∃ g, (start s).Inv g := by
  obtain ⟨F, hs, -⟩ := Sound.init hinit
  obtain ⟨g, hinv, hsized⟩ := sized_start hinit
  refine ⟨g, hinv, hsized, fun k p hp => ?_, fun c P hP => ?_⟩
  · exact absurd ((hs.mem_found_iff k p).mp hp).1 (Shape.notMem_table_fresh F p)
  · cases hP

/-- The history is right in every state that a run reaches. -/
theorem inv_of_run {limit : ℕ} {set : Settings} {mallocOk : ℕ → Bool} {hashpower : ℕ} {s : Cache}
    (hinit : Cache.init limit set mallocOk hashpower = some s) {as : List Action}
    (hclock : ∀ a ∈ as, a.now.toNat + 2592000 < 2 ^ 32) (hrun : run step (start s) as = .ok D) :
    ∃ g, D.Inv g := by
  have hall : Throughout step (fun D => ∃ g, D.Inv g) (start s) as :=
    throughout_of_eachStep (I := fun D _ => ∃ g, D.Inv g) (L := fun _ _ => True)
      (C := fun _ a => a.now.toNat + 2592000 < 2 ^ 32) (fun D a as D' h _ hnow hstep => inv_step h hnow hstep)
      (fun D as h => h) (start_inv hinit) (eachStep_of_forall (fun _ _ => trivial) _ _)
      ((eachStep_iff_forall_mem hrun).mpr hclock)
  exact hall.last hrun

end Dated

/-! ### Refused items -/

/-- The item was linked once and is not in the table. -/
def Gone (p : Ptr) (st : Service) : Prop :=
  ∃ g, Inv st g ∧ p ∈ st.cache.everLinked ∧ p ∉ g.table

variable {p : Ptr}

theorem Calls.looksUp (hcall : st.Calls a s k) (hstep : st.step a = .ok st') : LooksUp k st a st' := by
  unfold LooksUp
  cases hcall with
  | get k hreq hfree hk =>
    rw [hreq, hfree]
    exact ⟨rfl, hk⟩
  | delete k hreq hfree => rw [hreq, hfree]
  | refused L hcmd hreq hfree hset s halloc =>
    rw [hreq, hfree]
    refine ⟨rfl, hset, ?_⟩
    unfold step at hstep
    simp only [hreq, hfree, Cache.commandStore, halloc, Result.ok_bind, if_pos hset] at hstep
    obtain ⟨r, hrem, hstep⟩ := Result.bind_eq_ok.mp hstep
    obtain ⟨r', -, hrem⟩ := Result.bind_eq_ok.mp hrem
    cases hrem
    cases hstep
    rfl
  | block P bytes hreq hP hlen =>
    rw [hreq, hP]
    exact ⟨rfl, hlen⟩

/-- A call that does not return the item of its key has unlinked it. -/
theorem gone_of_refused (h : Inv st g) (hcall : st.Calls a s k) (hp : p ∈ s.found k) {s' : Cache}
    (hget : s.doItemGet k (HashTable.hash k) = .ok (s', none)) (hstep : st.step a = .ok st') :
    Gone p st' := by
  have hat : Sound (st.at_ a) g := h.sound.setClock a.now
  obtain ⟨hs, hclock, hexp, -⟩ := hcall.sees h
  obtain ⟨s₁, g₁, acts, r, heq, -, hacts, -⟩ := Steps.doItemGet hs k
  cases heq.symm.trans hget
  have hexpired : s.expired p := by
    by_contra hl
    cases (hacts.live_iff hs p).mp ⟨hp, hl⟩
  have hfound : p ∈ st.cache.found k := (hcall.found_iff h k p).mp hp
  have hpT := ((h.sound.mem_found_iff k p).mp hfound).1
  have hdrops : Drops k st a st' := by
    refine .inr ⟨p, (hat.find_some_iff k p).mpr ((h.sound.mem_found_iff k p).mp hfound), ?_,
      hcall.looksUp hstep⟩
    unfold Cache.expired at hexpired ⊢
    rw [hexp, hclock] at hexpired
    exact hexpired
  rcases step_spec h a with ⟨herr, -⟩ | ⟨st'', g', acts, hok, hinv, hsteps, hstepActs⟩
  · cases herr.symm.trans hstep
  · cases hok.symm.trans hstep
    obtain ⟨q, hq, hkq, hunlink⟩ := hstepActs.unlink_mem h hdrops
    have hqfound : q ∈ st.cache.found k := (h.sound.mem_found_iff k q).mpr ⟨hq, hkq⟩
    obtain rfl : p = q := Option.some.inj (hfound.symm.trans hqfound)
    have hpE := (hat.linked p hpT).1
    exact ⟨g', hinv, hsteps.everLinked_mono hat hpE, hsteps.notMem_of_unlink hat hpE hunlink⟩

/-- An item that is gone does not come back. -/
theorem gone_step (h : Gone p st) (hstep : st.step a = .ok st') : Gone p st' := by
  obtain ⟨g, h, hpE, hpT⟩ := h
  have hat : Sound (st.at_ a) g := h.sound.setClock a.now
  have hpE' : p ∈ (st.at_ a).everLinked := hpE
  rcases step_spec h a with ⟨herr, -⟩ | ⟨st'', g', acts, hok, hinv, hsteps, -⟩
  · cases herr.symm.trans hstep
  · cases hok.symm.trans hstep
    refine ⟨g', hinv, hsteps.everLinked_mono hat hpE', fun hp => ?_⟩
    rcases (hsteps.evolves hat (K := ∅) (by simp) (by simp)).table p hp with hold | hnew
    · exact hpT hold
    · exact hnew hpE'

theorem Gone.not_returns (h : Gone p st) : ¬st.Returns a p := by
  obtain ⟨g, h, -, hpT⟩ := h
  rintro ⟨s, k, s', hcall, hget⟩
  obtain ⟨hs, -⟩ := hcall.sees h
  obtain ⟨s₁, g₁, acts, r, heq, -, hacts, -⟩ := Steps.doItemGet hs k
  cases heq.symm.trans hget
  have hlive := (hacts.live_iff hs p).mpr rfl
  exact hpT ((hs.mem_found_iff k p).mp hlive.1).1

/-- In every run of requests whose clock leaves room for thirty days, each call of
`do_item_get` returns the item that its key is bound to just when the deadline of the
value is not reached, and an item that it has refused is not returned by a later call. -/
theorem deadlines_kept {limit : ℕ} {set : Settings} {mallocOk : ℕ → Bool} {hashpower : ℕ} {s₀ : Cache}
    (hinit : Cache.init limit set mallocOk hashpower = some s₀) {as : List Action}
    (hclock : ∀ a ∈ as, a.now.toNat + 2592000 < 2 ^ 32) (hrun : run step (start s₀) as = .ok st) :
    ∃ D, run Dated.step (Dated.start s₀) as = .ok D ∧ D.service = st ∧
      ∀ a s k, st.Calls a s k → ∃ s' r, s.doItemGet k (HashTable.hash k) = .ok (s', r) ∧
        (∀ p, r = some p ↔ p ∈ s.found k ∧ ¬Passed (D.due k) a.now.toNat) ∧
        ∀ p ∈ s.found k, r = none → ∀ bs st', run step st (a :: bs) = .ok st' → ∀ b, ¬st'.Returns b p := by
  obtain ⟨D, hD, rfl⟩ := Dated.exists_run (D := Dated.start s₀) hrun
  refine ⟨D, hD, rfl, fun a s k hcall => ?_⟩
  obtain ⟨g, h⟩ := Dated.inv_of_run hinit hclock hD
  obtain ⟨hs, hnow, hexp, -⟩ := hcall.sees h.inv
  obtain ⟨s', g', acts, r, hget, -, hacts, -⟩ := Steps.doItemGet hs k
  refine ⟨s', r, hget, fun p => ?_, fun p hp hr bs st' hrest b => ?_⟩
  · rw [← hacts.live_iff hs p, Cache.live]
    refine and_congr_right fun hp => not_congr ?_
    rw [h.due k p ((hcall.found_iff h.inv k p).mp hp), passed_dueOf, Cache.expired, hexp, hnow]
  · subst hr
    obtain ⟨st₁, hstep, hrest⟩ := (run_cons_eq_ok step).mp hrest
    have hgone : Gone p st' := invariant_run (I := Gone p) (fun _ _ _ hI hstep => gone_step hI hstep)
      (gone_of_refused h.inv hcall hp hget hstep) hrest
    exact hgone.not_returns

/-- A key is set with an expiry time of five seconds at the time 1. -/
def setForFive : List Action := storing 1 0 (shortLine .set 97 0 5 0) set_ne_error

/-- A lookup at some time. -/
def getAt (now : UInt32) : Action := ⟨now, 0, .get [97]⟩

theorem deadlines_kept_setForFive : ∃ s₀ st p,
    Cache.init 1 smallSettings (fun _ => true) 0 = some s₀ ∧ run step (start s₀) setForFive = .ok st ∧
    st.cache.found [97] = some p ∧
    (∃ s', ((st.at_ (getAt 5)).hashLock (HashTable.hash [97])).doItemGet [97] (HashTable.hash [97]) =
      .ok (s', some p)) ∧
    ∃ s', ((st.at_ (getAt 6)).hashLock (HashTable.hash [97])).doItemGet [97] (HashTable.hash [97]) =
      .ok (s', none) := by
  have htrial : (Cache.init 1 smallSettings (fun _ => true) 0).any (fun s =>
      (run Dated.step (Dated.start s) setForFive).toOption.any fun D =>
        decide (D.due [97] = some 6) && (D.service.cache.found [97]).isSome &&
          (D.service.pending 0).isNone && (run step (start s) setForFive).toOption.isSome) = true := by
    decide +kernel
  obtain ⟨s₀, hinit, hp⟩ := exists_init htrial
  obtain ⟨D, hD, hp⟩ := (Option.any_eq_true _ _).mp hp
  simp only [Bool.and_eq_true, decide_eq_true_eq, Option.isNone_iff_eq_none] at hp
  obtain ⟨⟨⟨hdue, hsome⟩, hfree⟩, hok⟩ := hp
  obtain ⟨p, hp⟩ := Option.isSome_iff_exists.mp hsome
  obtain ⟨st, hst⟩ := Option.isSome_iff_exists.mp hok
  have hrun := Result.eq_ok_of_toOption hst
  obtain ⟨D', hD', rfl, hall⟩ := deadlines_kept hinit (by decide) hrun
  cases hD'.symm.trans (Result.eq_ok_of_toOption hD)
  have hcall : ∀ now, D.service.Calls (getAt now)
    ((D.service.at_ (getAt now)).hashLock (HashTable.hash [97])) [97] :=
    fun now => .get [97] rfl hfree (by decide)
  refine ⟨s₀, D.service, p, hinit, hrun, hp, ?_, ?_⟩
  · obtain ⟨s', r, hget, hr, -⟩ := hall _ _ _ (hcall 5)
    have hret := (hr p).mpr ⟨hp, by simp [hdue, Passed, getAt]⟩
    exact ⟨s', hret ▸ hget⟩
  · obtain ⟨s', r, hget, hr, -⟩ := hall _ _ _ (hcall 6)
    have hnone : r = none := by
      refine Option.eq_none_iff_forall_not_mem.mpr fun q hq => ?_
      exact ((hr q).mp hq).2 (by simp [hdue, Passed, getAt])
    exact ⟨s', hnone ▸ hget⟩

end Service

end MiniMemcached
