import MiniMemcached.Service.UniqueKeys

/-! The cache under interleaved connections. Each call of `item_alloc`, `item_get`,
`item_unlink`, `item_remove` and `store_item` is one step, and between two calls of
one connection any number of calls of the others take place. So an item that a
`delete` has found may be replaced or unlinked before the `delete` unlinks it.

The ids that `do_item_link` gives grow strictly and stay with their items, and so a
`cas` that answers `STORED` has replaced exactly the item its id belongs to. -/

namespace MiniMemcached

open MiniMemcached.Lists Runs

/-- A call that a removal still has to make. -/
inductive Call
  | find (key : List UInt8)
  | unlink (it : Ptr)
  | remove (it : Ptr)

/-- A removal on the way, with the answers for a key that is found and one that is not. -/
structure Job where
  call : Call
  found : Reply
  lost : Reply

/-- The service together with the removals on the way. -/
structure Interleaved where
  service : Service
  job : ℕ → Option Job

namespace Interleaved

def start (s : Cache) : Interleaved where
  service := Service.start s
  job _ := none

/-- The connection of the action has come to its next call, or to none. -/
def after (x : Interleaved) (a : Action) (s : Cache) (r : Reply) (j : Option Job) : Interleaved where
  service := { x.service with cache := s, reply := r }
  job := Function.update x.job a.conn j

/-- One call. A connection that has a removal on the way goes on with it. -/
def step (x : Interleaved) (a : Action) : Result Interleaved :=
  match x.job a.conn with
  | some ⟨.find k, found, lost⟩ => do
    match ← (x.service.at_ a).itemGet k with
    | (s, some it) => pure (x.after a s .none (some ⟨.unlink it, found, lost⟩))
    | (s, none) => pure (x.after a s lost none)
  | some ⟨.unlink it, found, lost⟩ => do
    let s ← (x.service.at_ a).itemUnlink it
    pure (x.after a s .none (some ⟨.remove it, found, lost⟩))
  | some ⟨.remove it, found, _⟩ => .ok (x.after a ((x.service.at_ a).itemRemove it) found none)
  | none =>
    match a.req, x.service.pending a.conn with
    | .delete k, none => .ok (x.after a (x.service.at_ a) .none (some ⟨.find k, .deleted, .notFound⟩))
    | .store L _, none => do
      match ← (x.service.at_ a).allocLine L with
      | (s, some it) =>
        pure { x with service :=
          ⟨s, Function.update x.service.pending a.conn (some ⟨it, L⟩), .waiting⟩ }
      | (s, none) =>
        pure (x.after a s .noMemory
          (if L.cmd = .set then some ⟨.find L.key, .noMemory, .noMemory⟩ else none))
    | _, _ => do
      let st ← x.service.step a
      pure { x with service := st }

/-- The action is the block of a `cas` on `k` with the id `c`, and answers `STORED`. -/
def CasStored (k : List UInt8) (c : UInt64) (x : Interleaved) (a : Action) (x' : Interleaved) : Prop :=
  x.job a.conn = none ∧ ∃ P bytes, a.req = .block bytes ∧ x.service.pending a.conn = some P ∧
    P.line.cmd = .cas ∧ P.line.key = k ∧ P.line.casId = c ∧ x'.service.reply = .stored .STORED

/-- The invariant of the service, and a removal holds an item that was linked. -/
structure Inv (x : Interleaved) (g : Shape) : Prop where
  service : x.service.Inv g
  job : ∀ c j it, x.job c = some j → j.call = .unlink it ∨ j.call = .remove it →
    it ∈ x.service.cache.everLinked

variable {x x' : Interleaved} {g g' : Shape} {a : Action} {acts : List Act}

/-- A call that writes no item in flight, and leaves a removal of an item that was linked. -/
theorem Inv.after (h : Inv x g) {s' : Cache} {r : Reply} {j : Option Job}
    (hsteps : Steps (x.service.at_ a) g acts s' g') (hw : ∀ b ∈ acts, b.writes = none)
    (hf : acts.foldl Act.flight g.inFlight = g.inFlight)
    (hj : ∀ j' it, j = some j' → j'.call = .unlink it ∨ j'.call = .remove it → it ∈ s'.everLinked) :
    Inv (x.after a s' r j) g' := by
  have hs : Sound (x.service.at_ a) g := h.service.sound.setClock a.now
  refine ⟨h.service.quiet hsteps hw hf rfl, fun c j' it hc hcall => ?_⟩
  simp only [Interleaved.after, Function.update_apply] at hc
  split_ifs at hc with hconn
  · exact hj j' it hc hcall
  · exact hsteps.everLinked_mono hs (h.job c j' it hc hcall)

theorem writes_unlinkActs (s : Cache) (p : Ptr) (A : Set Ptr) :
    (∀ b ∈ Act.quiet :: unlinkActs s p ++ [Act.quiet], b.writes = none) ∧
      (Act.quiet :: unlinkActs s p ++ [Act.quiet]).foldl Act.flight A = A := by
  unfold unlinkActs
  split_ifs
  · exact ⟨by simp [Act.writes], rfl⟩
  · exact ⟨by simp [Act.writes], rfl⟩

/-- A `cas` that answers `STORED` unlinks an item with its key and its id. -/
theorem cas_stored {st st' : Service} (h : st.Inv g) (hacts : st.StepActs g a acts st') {P : Pending}
    {bytes : List UInt8} (hreq : a.req = .block bytes) (hP : st.pending a.conn = some P)
    (hcmd : P.line.cmd = .cas) (hreply : st'.reply = .stored .STORED) :
    ∃ p ∈ g.table, st.cache.items.key p = P.line.key ∧ st.cache.items.cas p = P.line.casId ∧
      .unlink p ∈ acts := by
  cases hacts with
  | ignored hno hst => subst hst; cases hreply
  | longKey k hreq'
  | get k hreq'
  | delete k hreq'
  | accepted L hcmd' hreq'
  | refused L hcmd' hreq' => rw [hreq] at hreq'; cases hreq'
  | block P' bytes' hreq' hP' hlen acts stat hstore hlinked hkept hpend hreply' =>
    obtain rfl : P = P' := by rw [hP] at hP'; cases hP'; rfl
    obtain rfl : stat = .STORED := by rw [hreply] at hreply'; cases hreply'; rfl
    have hfill := h.filled _ P hP
    rw [hcmd] at hstore
    cases hstore with
    | swapped old acts hget hcmd hcas =>
      cases hget with
      | live _ hp hk hl =>
        exact ⟨old, hp, hk.trans hfill.key, hcas.symm.trans hfill.cas, by simp⟩
    | new acts hget hcmd
    | replaced old acts hget hcmd
    | joined old new acts hget hcmd => simp at hcmd

theorem Inv.of_service (h : Inv x g) {st : Service} (hinv : st.Inv g')
    (hsteps : Steps (x.service.at_ a) g acts st.cache g') : Inv { x with service := st } g' := by
  refine ⟨hinv, fun c j it hc hcall => ?_⟩
  exact hsteps.everLinked_mono (h.service.sound.setClock a.now) (h.job c j it hc hcall)

/-- A call is a path of primitive steps. A `cas` that answers `STORED` unlinks an
item with its key and its id. -/
theorem step_spec (h : Inv x g) (hstep : x.step a = .ok x') :
    ∃ g' acts, Inv x' g' ∧ Steps (x.service.at_ a) g acts x'.service.cache g' ∧
      ∀ k c, CasStored k c x a x' → ∃ p ∈ g.table, x.service.cache.items.key p = k ∧
        x.service.cache.items.cas p = c ∧ .unlink p ∈ acts := by
  have hs : Sound (x.service.at_ a) g := h.service.sound.setClock a.now
  have hnocas : ∀ {x' : Interleaved} {acts : List Act}, x.job a.conn ≠ none →
      ∀ k c, CasStored k c x a x' → ∃ p ∈ g.table, x.service.cache.items.key p = k ∧
        x.service.cache.items.cas p = c ∧ .unlink p ∈ acts := fun hj k c hc => absurd hc.1 hj
  unfold step at hstep
  split at hstep
  · rename_i k found lost hj
    obtain ⟨s', g', acts, r, heq, hsteps, hget, -, hlive⟩ := Steps.itemGet hs k
    have hw : ∀ b ∈ Act.quiet :: acts ++ [Act.quiet], b.writes = none := by
      simpa [or_imp, forall_and, Act.writes] using hget.writes
    have hf : (Act.quiet :: acts ++ [Act.quiet]).foldl Act.flight g.inFlight = g.inFlight := by
      simp only [List.cons_append, List.foldl_cons, List.foldl_append, List.foldl_nil, Act.flight,
        hget.flight]
    rw [heq] at hstep
    cases r with
    | none =>
      cases hstep
      exact ⟨g', _, h.after hsteps hw hf (by simp), hsteps, hnocas (by simp [hj])⟩
    | some p =>
      cases hstep
      refine ⟨g', _, h.after hsteps hw hf fun j' it hj' hcall => ?_, hsteps, hnocas (by simp [hj])⟩
      cases hj'
      obtain rfl : p = it := by simpa using hcall
      cases hget with
      | live _ hp hk hl => exact hsteps.everLinked_mono hs (hs.linked p hp).1
  · rename_i p found lost hj
    have hpE := h.job _ _ p hj (.inl rfl)
    obtain ⟨s', g', heq, hsteps, -⟩ := Steps.itemUnlink hs hpE
    obtain ⟨hw, hf⟩ := writes_unlinkActs (x.service.at_ a) p g.inFlight
    rw [heq] at hstep
    cases hstep
    refine ⟨g', _, h.after hsteps hw hf fun j' it hj' hcall => ?_, hsteps, hnocas (by simp [hj])⟩
    cases hj'
    obtain rfl : p = it := by simpa using hcall
    exact hsteps.everLinked_mono hs hpE
  · rename_i p found lost hj
    have hpE := h.job _ _ p hj (.inr rfl)
    cases hstep
    have hsteps := Steps.itemRemove hs hpE
    exact ⟨g, _, h.after hsteps (by simp [Act.writes]) rfl (by simp), hsteps, hnocas (by simp [hj])⟩
  · rename_i hj
    split at hstep
    · rename_i k hreq hP
      cases hstep
      refine ⟨g, [], h.after (.nil _) (by simp) rfl fun j' it hj' hcall => ?_, .nil _, fun k c hc => ?_⟩
      · cases hj'
        simp at hcall
      obtain ⟨-, P, bytes, hreq', -⟩ := hc
      rw [hreq] at hreq'
      cases hreq'
    · rename_i L hcmd hreq hP
      have hno : ∀ {x' : Interleaved} {k c}, ¬CasStored k c x a x' := by
        rintro x' k c ⟨-, P, bytes, hreq', -⟩
        rw [hreq] at hreq'
        cases hreq'
      rcases Steps.allocLine hs L with ⟨-, b, t, heq, hb, hl, hf⟩ | ⟨-, s', g', it, heq, -, hA, hfill, hsteps⟩
      · rw [heq] at hstep
        cases hstep
        have hsteps := Path.single (Prim.refuse (g := g) hb hl hf)
        refine ⟨g, _, h.after hsteps (by simp [Act.writes]) rfl fun j' it hj' hcall => ?_, hsteps,
          fun k c hc => absurd hc hno⟩
        split_ifs at hj'
        cases hj'
        simp at hcall
      · rw [heq] at hstep
        cases hstep
        have hinv := h.service.accepted hP hsteps hA hfill .waiting
        exact ⟨g', _, h.of_service hinv hsteps, hsteps, fun k c hc => absurd hc hno⟩
    · obtain ⟨st, hst, hx⟩ := Result.bind_eq_ok.mp hstep
      cases hx
      rcases Service.step_spec h.service a with ⟨herr, -⟩ | ⟨st', g', acts, hok, hinv, hsteps, hacts⟩
      · rw [herr] at hst
        cases hst
      · rw [hok] at hst
        cases hst
        refine ⟨g', acts, h.of_service hinv hsteps, hsteps, ?_⟩
        rintro _ _ ⟨-, P, bytes, hreq, hP, hcmd, rfl, rfl, hreply⟩
        exact cas_stored h.service hacts hreq hP hcmd hreply

/-- What a run leaves alone: the ids given, the items outside the table and the keys
of the linked items. -/
structure Later (s : Cache) (g : Shape) (s' : Cache) (g' : Shape) : Prop where
  trace : s.trace <:+ s'.trace
  table : ∀ p ∈ g'.table, p ∈ g.table ∨ p ∉ s.everLinked
  key : ∀ p ∈ s.everLinked, s'.items.key p = s.items.key p

theorem Later.trans {s₁ s₂ s₃ : Cache} {g₁ g₂ g₃ : Shape} (h₁ : Later s₁ g₁ s₂ g₂)
    (h₂ : Later s₂ g₂ s₃ g₃) : Later s₁ g₁ s₃ g₃ := by
  have hE := Cache.everLinked_mono h₁.trace
  refine ⟨h₁.trace.trans h₂.trace, fun p hp => ?_, fun p hp => ?_⟩
  · rcases h₂.table p hp with hp | hp
    · exact h₁.table p hp
    · exact .inr fun h => hp (hE h)
  · rw [h₂.key p (hE hp), h₁.key p hp]

theorem later_of_steps (h : Inv x g) {s' : Cache} (hsteps : Steps (x.service.at_ a) g acts s' g') :
    Later x.service.cache g s' g' := by
  have hev := hsteps.evolves (h.service.sound.setClock a.now) (K := ∅) (by simp) (by simp)
  exact ⟨hev.trace, hev.table, fun p hp => hev.key (.inl hp)⟩

/-- A run keeps the invariant. -/
theorem run_spec {as : List Action} {y : Interleaved} (h : Inv x g) (hrun : run step x as = .ok y) :
    ∃ g', Inv y g' ∧ Later x.service.cache g y.service.cache g' := by
  induction as generalizing x g with
  | nil =>
    cases hrun
    exact ⟨g, h, List.suffix_refl _, fun _ hp => .inl hp, fun _ _ => rfl⟩
  | cons a as ih =>
    obtain ⟨x₁, hstep, hrest⟩ := (run_cons_eq_ok step).mp hrun
    obtain ⟨g₁, acts, h₁, hsteps, -⟩ := step_spec h hstep
    obtain ⟨g', h', hlater⟩ := ih h₁ hrest
    exact ⟨g', h', (later_of_steps h hsteps).trans hlater⟩

theorem start_inv {limit : ℕ} {set : Settings} {mallocOk : ℕ → Bool} {hashpower : ℕ} {s : Cache}
    (h : Cache.init limit set mallocOk hashpower = some s) : ∃ g, Inv (start s) g := by
  obtain ⟨g, hg⟩ := Service.start_inv h
  refine ⟨g, hg, fun c j it hj => ?_⟩
  cases hj

end Interleaved

/-- Ids that are numbered do not exceed their number. -/
theorem Numbered.le {l : List (Ptr × UInt64)} (h : Numbered l) (hlt : l.length < 2 ^ 64) :
    ∀ e ∈ l, e.2.toNat ≤ l.length := by
  induction l with
  | nil => simp
  | cons e l ih =>
    obtain ⟨p, id⟩ := e
    rw [List.length_cons] at hlt
    obtain ⟨rfl, hl⟩ := h
    rintro e' (_ | ⟨_, he'⟩)
    · rw [UInt64.toNat_ofNat_of_lt' hlt, List.length_cons]
    · have := ih hl (by omega) e' he'
      rw [List.length_cons]
      omega

/-- Every id is larger than the ids given before it. -/
theorem Numbered.pairwise {l : List (Ptr × UInt64)} (h : Numbered l) (hlt : l.length < 2 ^ 64) :
    l.Pairwise fun newer older => older.2 < newer.2 := by
  induction l with
  | nil => exact .nil
  | cons e l ih =>
    obtain ⟨p, id⟩ := e
    rw [List.length_cons] at hlt
    obtain ⟨rfl, hl⟩ := h
    refine .cons (fun e' he' => ?_) (ih hl (by omega))
    have hle := hl.le (by omega) e' he'
    rw [UInt64.lt_iff_toNat_lt, UInt64.toNat_ofNat_of_lt' hlt]
    omega

/-- An id belongs to one item. -/
theorem Numbered.unique {l : List (Ptr × UInt64)} (h : Numbered l) (hlt : l.length < 2 ^ 64)
    {p q : Ptr} {id : UInt64} (hp : (p, id) ∈ l) (hq : (q, id) ∈ l) : p = q := by
  have hnodup : (l.map Prod.snd).Nodup := by
    rw [List.Nodup, List.pairwise_map]
    exact (h.pairwise hlt).imp fun hlt e => absurd (e ▸ hlt) (UInt64.lt_irrefl _)
  exact congrArg Prod.fst (List.inj_on_of_nodup_map hnodup hp hq rfl)

namespace Interleaved

variable {x x' y t : Interleaved} {g g' : Shape} {a : Action} {k : List UInt8} {c : UInt64}

/-- The item that a `cas` has replaced. -/
structure Replaced (x x' : Interleaved) (k : List UInt8) (c : UInt64) (p : Ptr) : Prop where
  given : (p, c) ∈ x.service.cache.links
  found : x.service.cache.hashFind k (HashTable.hash k) = .ok (some p)
  gone : ∀ b, ¬Reach x'.service.cache.items.hNext
    (x'.service.cache.hashtable.primaryHashtable b) p

theorem replaced_of_casStored (h : Inv x g) (hstep : x.step a = .ok x')
    (hc : CasStored k c x a x') : ∃ g' p, Inv x' g' ∧ Later x.service.cache g x'.service.cache g' ∧
      Replaced x x' k c p ∧ p ∈ g.table ∧ p ∉ g'.table := by
  obtain ⟨g', acts, h', hsteps, hcas⟩ := step_spec h hstep
  obtain ⟨p, hp, hk, hid, hu⟩ := hcas k c hc
  have hs := h.service.sound
  obtain ⟨hpE, -⟩ := hs.linked p hp
  have hgone : p ∉ g'.table := hsteps.notMem_of_unlink (hs.setClock a.now) hpE hu
  obtain ⟨id, hlink⟩ := hpE
  refine ⟨g', p, h', later_of_steps h hsteps, ⟨?_, (hs.find_some_iff k p).mpr ⟨hp, hk⟩, ?_⟩, hp, hgone⟩
  · rwa [← hid, hs.stamped p id hlink]
  · intro b hb
    exact hgone ⟨b, ((h'.service.sound.buckets.chain b).reach_iff p).mp hb⟩

/-- Ids grow strictly and stay with their items while these are in the table; and a
`cas` that answers `STORED` replaces the item its id was given to, which has been
bound to the key ever since it was linked, so that a second one on the key with
the id does not answer `STORED`. -/
theorem cas_safe {limit : ℕ} {set : Settings} {mallocOk : ℕ → Bool} {hashpower : ℕ} {s : Cache}
    (hinit : Cache.init limit set mallocOk hashpower = some s) {as : List Action}
    (hrun : run step (start s) as = .ok t) (hlt : t.service.cache.links.length < 2 ^ 64) :
    (t.service.cache.links.Pairwise fun newer older => older.2 < newer.2) ∧
    (∀ pre y, pre <+: as → run step (start s) pre = .ok y → ∀ b p,
      Reach y.service.cache.items.hNext (y.service.cache.hashtable.primaryHashtable b) p →
      ∃ id, (p, id) ∈ y.service.cache.links ∧ ∀ mid y', pre ++ mid <+: as →
        run step y mid = .ok y' → y'.service.cache.items.cas p = id) ∧
    (∀ pre a post x x' k c, as = pre ++ a :: post → run step (start s) pre = .ok x →
      x.step a = .ok x' → CasStored k c x a x' → ∃ p, Replaced x x' k c p ∧
        ∀ pre' y, pre' <+: pre → run step (start s) pre' = .ok y → (p, c) ∈ y.service.cache.links →
          y.service.cache.hashFind k (HashTable.hash k) = .ok (some p)) ∧
    ∀ pre a mid a' post x x' y y' k c, as = pre ++ a :: mid ++ a' :: post →
      run step (start s) pre = .ok x → x.step a = .ok x' → CasStored k c x a x' →
      run step x' mid = .ok y → y.step a' = .ok y' → ¬CasStored k c y a' y' := by
  obtain ⟨g₀, h₀⟩ := start_inv hinit
  refine ⟨?_, ?_, ?_, ?_⟩
  · obtain ⟨g, h, -⟩ := run_spec h₀ hrun
    exact h.service.sound.numbered.pairwise hlt
  · intro pre y _ hy b p hp
    obtain ⟨g, h, -⟩ := run_spec h₀ hy
    have hs := h.service.sound
    obtain ⟨⟨id, hid⟩, -⟩ := hs.linked p ⟨b, ((hs.buckets.chain b).reach_iff p).mp hp⟩
    refine ⟨id, hid, fun mid y' _ hmid => ?_⟩
    obtain ⟨g', h', hlater⟩ := run_spec h hmid
    exact h'.service.sound.stamped p id (Cache.links_mono hlater.trace hid)
  · rintro pre a post x x' k c - hx hstep hc
    obtain ⟨g, h, -⟩ := run_spec h₀ hx
    obtain ⟨g', p, -, -, hrep, hp, -⟩ := replaced_of_casStored h hstep hc
    refine ⟨p, hrep, ?_⟩
    rintro pre' y ⟨mid, rfl⟩ hy hlink
    obtain ⟨y', hy', hmid⟩ := (run_append_eq_ok step).mp hx
    obtain rfl : y = y' := by rw [hy] at hy'; cases hy'; rfl
    obtain ⟨gy, hiy, -⟩ := run_spec h₀ hy
    obtain ⟨g₂, h₂, hlater⟩ := run_spec hiy hmid
    have hpE : p ∈ y.service.cache.everLinked := ⟨c, hlink⟩
    have hfind := (h₂.service.sound.find_some_iff k p).mp hrep.found
    refine (hiy.service.sound.find_some_iff k p).mpr ⟨?_, (hlater.key p hpE).symm.trans hfind.2⟩
    exact (hlater.table p hfind.1).resolve_right (not_not.mpr hpE)
  · rintro pre a mid a' post x x' y y' k c has hx hstep hc hmid hstep' hc'
    obtain ⟨g, h, -⟩ := run_spec h₀ hx
    obtain ⟨g₁, p, h₁, hlater₁, hrep, hp, hgone⟩ := replaced_of_casStored h hstep hc
    obtain ⟨g₂, h₂, hlater₂⟩ := run_spec h₁ hmid
    obtain ⟨g₃, q, h₃, hlater₃, hrep', hq, -⟩ := replaced_of_casStored h₂ hstep' hc'
    -- the id still belongs to the first item, which has left the table
    have hend : run step y' post = .ok t := by
      rw [has, List.append_assoc, run_append, hx] at hrun
      obtain ⟨x₁, hx₁, hrun⟩ := (run_cons_eq_ok step).mp hrun
      obtain rfl : x' = x₁ := by rw [hstep] at hx₁; cases hx₁; rfl
      obtain ⟨y₁, hy₁, hrun⟩ := (run_append_eq_ok step).mp hrun
      obtain rfl : y = y₁ := by rw [hmid] at hy₁; cases hy₁; rfl
      rwa [run_cons_ok step hstep'] at hrun
    obtain ⟨g₄, h₄, hlater₄⟩ := run_spec h₃ hend
    have hp₂ := Cache.links_mono (hlater₁.trace.trans hlater₂.trace) hrep.given
    have hmono := Cache.links_mono (hlater₃.trace.trans hlater₄.trace)
    obtain rfl := h₄.service.sound.numbered.unique hlt (hmono hp₂) (hmono hrep'.given)
    have hpE : p ∈ x'.service.cache.everLinked := Cache.everLinked_mono hlater₁.trace ⟨c, hrep.given⟩
    rcases hlater₂.table p hq with hp' | hp'
    · exact hgone hp'
    · exact hp' hpE

/-- A key is stored on one connection, and a `cas` with its id is sent on another. -/
def casLine : List Action :=
  Service.storing 1 0 (shortLine .set 97 0 0 0) Service.set_ne_error ++
    [⟨1, 1, .store (shortLine .cas 97 0 0 1) Service.cas_ne_error⟩]

theorem cas_safe_casLine : ∃ s x x', Cache.init 1 Service.smallSettings (fun _ => true) 0 = some s ∧
    run step (start s) casLine = .ok x ∧ x.step ⟨1, 1, .block [121, 13, 10]⟩ = .ok x' ∧
    x'.service.reply = .stored .STORED ∧ ∃ p, Replaced x x' [97] 1 p := by
  have hcond : (Cache.init 1 Service.smallSettings (fun _ => true) 0).any (fun s =>
      (run step (start s) casLine).toOption.any fun x =>
        (x.job 1).isNone && (x.service.pending 1).any (fun P => decide (P.line.cmd = .cas) &&
          decide (P.line.key = [97]) && decide (P.line.casId = 1)) &&
        (x.step ⟨1, 1, .block [121, 13, 10]⟩).toOption.any fun x' =>
          decide (x'.service.reply = .stored .STORED) &&
          decide (x'.service.cache.links.length < 2 ^ 64)) = true := by decide +kernel
  obtain ⟨s, hinit, hs⟩ := Service.exists_init hcond
  cases hx : run step (start s) casLine with
  | error e => simp [hx, Except.toOption] at hs
  | ok x =>
    cases hx' : x.step ⟨1, 1, .block [121, 13, 10]⟩ with
    | error e => simp [hx, hx', Except.toOption] at hs
    | ok x' =>
      simp only [hx, hx', Except.toOption, Option.any_some, Bool.and_eq_true, decide_eq_true_eq] at hs
      obtain ⟨⟨hjob, hP⟩, hreply, hlen⟩ := hs
      cases hpend : x.service.pending 1 with
      | none => simp [hpend] at hP
      | some P =>
        simp only [hpend, Option.any_some, Bool.and_eq_true, decide_eq_true_eq] at hP
        have hrun : run step (start s) (casLine ++ [⟨1, 1, .block [121, 13, 10]⟩]) = .ok x' :=
          (run_append_eq_ok step).mpr ⟨x, hx, (run_cons_eq_ok step).mpr ⟨x', hx', rfl⟩⟩
        have hc : CasStored [97] 1 x ⟨1, 1, .block [121, 13, 10]⟩ x' :=
          ⟨by simpa using hjob, P, _, rfl, hpend, hP.1.1, hP.1.2, hP.2, hreply⟩
        obtain ⟨-, -, hrep, -⟩ := cas_safe hinit hrun hlen
        obtain ⟨p, hp, -⟩ := hrep casLine _ [] x x' [97] 1 rfl hx hx' hc
        exact ⟨s, x, x', hinit, hx, hx', hreply, p, hp⟩

end Interleaved

end MiniMemcached
