import MiniMemcached.Protocol.Server

/-! What clients can do to the cache. They may send any bytes, in any pieces, and so leave
storage lines without a block, or give a block to another command than the one of its line. The
cache is still one that well-formed requests could have made: a line without a block
is a connection of the service that waits for ever. -/

namespace MiniMemcached

open Memory Runs

/-! ### The work of a turn -/

namespace World

variable {w w₁ w' : World} {g : Shape} {tokens : List (List UInt8)}

/-- What a turn does to the cache, and to the item of its connection. -/
inductive Work (w w' : World) : Prop
  | idle (hcache : w'.cache = w.cache) (hown : w.KeepsOwn w')
  | looked (k : List UInt8) (hk : k.length ≤ KEY_MAX_LENGTH) (r : Option Ptr)
      (hget : w.cache.itemGet k = .ok (w'.cache, r)) (hown : w.KeepsOwn w')
  | removed (k : List UInt8) (b : Bool) (hremove : w.cache.removeKey k = .ok (w'.cache, b))
    (hown : w.KeepsOwn w')
  | accepted (L : StoreLine) (it : Ptr) (halloc : w.cache.allocLine L = .ok (w'.cache, some it))
      (hown : ∀ q, w'.conn.own = some q → q = it ∧ w'.conn.rnbufLen = L.vlen)
  | refused (L : StoreLine) (hline : w.cache.commandStore L = .ok (w'.cache, none))
    (hown : w'.conn.own = none)
  | stored (it : Ptr) (hit : w.conn.own = some it) (hcmd : w.conn.cmd ≠ .error) (bs : List UInt8)
      (hlen : bs.length = toSizeT w.conn.rnbufLen) (stat : StoreStat) (c : Option UInt64)
      (hblock : w.cache.commandBlock it w.conn.cmd bs = .ok (w'.cache, stat, c)) (hown : w'.conn.own = none)

/-- What follows the work on the cache. -/
theorem Work.andThen (h : Work w w₁) (hcache : w'.cache = w₁.cache) (hown : w₁.KeepsOwn w') : Work w w' := by
  have hnone : w₁.conn.own = none → w'.conn.own = none := fun h₁ =>
    hown.elim id fun hsame => hsame.1.trans h₁
  have hkept : w.KeepsOwn w₁ → w.KeepsOwn w' := by
    rintro (h₁ | ⟨h₁, hlen₁⟩)
    · exact .inl (hnone h₁)
    · rcases hown with h₂ | ⟨h₂, hlen₂⟩
      · exact .inl h₂
      · exact .inr ⟨h₂.trans h₁, hlen₂.trans hlen₁⟩
  cases h with
  | idle hc ho => exact .idle (hcache.trans hc) (hkept ho)
  | looked k hk r hget ho => exact .looked k hk r (hcache ▸ hget) (hkept ho)
  | removed k b hremove ho => exact .removed k b (hcache ▸ hremove) (hkept ho)
  | accepted L it halloc ho =>
    refine .accepted L it (hcache ▸ halloc) fun q hq => ?_
    rcases hown with h₂ | ⟨h₂, hlen₂⟩
    · cases h₂.symm.trans hq
    · obtain ⟨rfl, hlen⟩ := ho q (h₂ ▸ hq)
      exact ⟨rfl, hlen₂.trans hlen⟩
  | refused L hline ho => exact .refused L (hcache ▸ hline) (hnone ho)
  | stored it hit hcmd bs hlen stat c hblock ho =>
    exact .stored it hit hcmd bs hlen stat c (hcache ▸ hblock) (hnone ho)

/-- A start that does not touch the cache, the item and its length, and the command. -/
theorem Work.of_start (h : Work w₁ w') (hcache : w₁.cache = w.cache) (hown : w₁.conn.own = w.conn.own)
    (hlen : w₁.conn.rnbufLen = w.conn.rnbufLen) (hcmd : w₁.conn.cmd = w.conn.cmd) : Work w w' := by
  have hkept : w₁.KeepsOwn w' → w.KeepsOwn w' := Or.imp_right fun ⟨ho, hl⟩ => ⟨ho.trans hown, hl.trans hlen⟩
  cases h with
  | idle hc ho => exact .idle (hc.trans hcache) (hkept ho)
  | looked k hk r hget ho => exact .looked k hk r (hcache ▸ hget) (hkept ho)
  | removed k b hremove ho => exact .removed k b (hcache ▸ hremove) (hkept ho)
  | accepted L it halloc ho => exact .accepted L it (hcache ▸ halloc) ho
  | refused L hline ho => exact .refused L (hcache ▸ hline) ho
  | stored it hit hc bs hl stat c hblock ho =>
    exact .stored it (hown ▸ hit) (hcmd ▸ hc) bs (hlen ▸ hl) stat c (hcache ▸ hcmd ▸ hblock) ho

theorem getCommand_work (heq : w.getCommand tokens = .ok w') : Work w w' := by
  obtain ⟨hget, hown⟩ := getCommand_form heq
  unfold getCommand at heq
  dsimp only at heq
  split at heq
  · obtain ⟨-, rfl⟩ := outString_eq_ok.mp heq
    exact .idle rfl hown
  · rename_i hk
    rcases hget with hcache | ⟨o, hget⟩
    · exact .idle hcache hown
    · exact .looked _ (not_lt.mp hk) o hget hown

theorem deleteCommand_work (heq : w.deleteCommand tokens = .ok w') : Work w w' := by
  obtain ⟨b, text, hremove, hform⟩ := deleteCommand_form heq
  refine .removed _ b hremove ?_
  rw [hform]
  exact .of_same rfl rfl rfl

/-- A storage line without memory is `commandStore`, as long as its connection does not get
the item that it removes. -/
theorem refuseLine_refused (h : Sound w.cache g) {L : StoreLine} {s : Cache}
    (hcalm : L.cmd = .set → (∃ p, w.cache.live L.key p) → ∀ bs, w.conn.rnbuf ≠ .live bs)
    (halloc : w.cache.allocLine L = .ok (s, none))
    (heq : ({ w with cache := s } : World).refuseLine L = .ok w') :
    w.cache.commandStore L = .ok (w'.cache, none) ∧ w'.conn.own = none := by
  obtain ⟨b, t, halloc', hb, hl⟩ : ∃ b t, w.cache.allocLine L =
      .ok ({ w.cache with slab := b, trace := t ++ w.cache.trace }, none) ∧ NothingCarved w.cache.slab b ∧
        Event.links t = [] := by
    rcases Steps.allocLine h L with ⟨-, b, t, halloc', hb, hl, -⟩ | ⟨-, s', g', it, halloc', -⟩
    · exact ⟨b, t, halloc', hb, hl⟩
    · cases halloc'.symm.trans halloc
  cases halloc'.symm.trans halloc
  unfold refuseLine at heq
  obtain ⟨w₁, hout, heq⟩ := Result.bind_eq_ok.mp heq
  obtain ⟨-, rfl⟩ := outString_eq_ok.mp hout
  split at heq
  · rename_i hcmd
    obtain ⟨s₂, g', acts, r, hrem, hsteps, hacts, -⟩ := Steps.removeKey (h.refused hb hl) L.key
    have hacts := hacts.refused
    obtain ⟨⟨s₁, o⟩, hget, heq⟩ := Result.bind_eq_ok.mp heq
    have hget : ({ w.cache with slab := b, trace := t ++ w.cache.trace } : Cache).itemGet L.key =
      .ok (s₁, o) := hget
    have hline : w.cache.commandStore L = .ok (s₂, none) := by
      unfold Cache.commandStore
      rw [halloc, Result.ok_bind]
      dsimp only
      rw [if_pos hcmd, hrem]
      rfl
    unfold Cache.removeKey at hrem
    rw [hget] at hrem
    cases o with
    | none =>
      cases hrem
      cases heq
      refine ⟨hline, ?_⟩
      unfold Conn.own
      split <;> rfl
    | some it =>
      obtain ⟨s₃, hunlink, heq⟩ := Result.bind_eq_ok.mp heq
      simp only [Result.ok_bind, hunlink, Result.pure_eq, Except.ok.injEq, Prod.mk.injEq] at hrem
      obtain ⟨rfl, rfl⟩ := hrem
      cases heq
      refine ⟨hline, ?_⟩
      cases hacts with
      | hit p hp hk hlive =>
        have hdead := hcalm hcmd ⟨p, (h.mem_found_iff _ _).mpr ⟨hp, hk⟩, hlive⟩
        unfold Conn.own
        split
        · rename_i bs hbs
          exact absurd hbs (hdead bs)
        · rfl
  · rename_i hcmd
    cases heq
    refine ⟨?_, ?_⟩
    · unfold Cache.commandStore
      rw [halloc, Result.ok_bind]
      dsimp only
      rw [if_neg hcmd]
      rfl
    · unfold Conn.own
      split <;> rfl

theorem commandFiveSixPara_work (h : Sound w.cache g) {cas : Bool}
    (hcalm : ∀ L, parseStoreLine tokens cas = some L → L.cmd = .set →
      ¬w.cache.slab.allocOk L.key.length L.vlen → (∃ p, w.cache.live L.key p) → ∀ bs, w.conn.rnbuf ≠ .live bs)
    (heq : w.commandFiveSixPara tokens cas = .ok w') : Work w w' := by
  unfold commandFiveSixPara at heq
  dsimp only at heq
  split at heq
  · obtain ⟨-, rfl⟩ := outString_eq_ok.mp heq
    exact .idle rfl (.of_same rfl rfl rfl)
  · rename_i L hparse
    obtain ⟨⟨s, o⟩, halloc, heq⟩ := Result.bind_eq_ok.mp heq
    cases o with
    | none =>
      have hno : ¬w.cache.slab.allocOk L.key.length L.vlen := by
        rcases Steps.allocLine h L with ⟨hno, -⟩ | ⟨-, s', g', it, halloc', -⟩
        · exact hno
        · cases halloc'.symm.trans halloc
      obtain ⟨hline, hown⟩ := refuseLine_refused (w := w.withCmd tokens) h
        (fun hcmd => hcalm L hparse hcmd hno) halloc heq
      exact .refused L hline hown
    | some it =>
      cases heq
      refine .accepted L it halloc fun q hq => ⟨?_, rfl⟩
      unfold Conn.own at hq
      split at hq
      · exact (Option.some.inj hq).symm
      · cases hq

/-- The handlers. An unknown command with five or six words gets an item as well. -/
theorem dispatch_work (h : Sound w.cache g)
    (hcalm : ∀ L, (tokens.length = 5 ∨ tokens.length = 6) →
      parseStoreLine tokens (decide (tokens.length = 6)) = some L → L.cmd = .set →
      ¬w.cache.slab.allocOk L.key.length L.vlen → (∃ p, w.cache.live L.key p) → ∀ bs, w.conn.rnbuf ≠ .live bs)
    (heq : w.dispatch tokens = .ok w') : Work w w' := by
  unfold dispatch at heq
  split at heq
  · unfold commandOnePara at heq
    split at heq
    · cases heq
      exact .idle rfl (.of_same rfl rfl rfl)
    · split at heq
      all_goals
        obtain ⟨-, rfl⟩ := answer_eq_ok.mp heq
        exact .idle rfl (.of_same rfl rfl rfl)
  · unfold commandTwoPara at heq
    split at heq
    · exact getCommand_work heq
    · split at heq
      · exact deleteCommand_work heq
      · obtain ⟨-, rfl⟩ := answer_eq_ok.mp heq
        exact .idle rfl (.of_same rfl rfl rfl)
  · cases heq
    exact .idle rfl (.of_same rfl rfl rfl)
  · rename_i hlen
    obtain ⟨w₁, heq₁, heq⟩ := Result.bind_eq_ok.mp heq
    cases heq
    have hsix : decide (tokens.length = 6) = false := by simp [hlen]
    rw [hsix] at hcalm
    exact (commandFiveSixPara_work h (fun L => hcalm L (.inl hlen)) heq₁).andThen rfl (.of_same rfl rfl rfl)
  · rename_i hlen
    have hsix : decide (tokens.length = 6) = true := by simp [hlen]
    rw [hsix] at hcalm
    exact commandFiveSixPara_work h (fun L => hcalm L (.inr hlen)) heq
  · cases heq
    exact .idle rfl (.of_same rfl rfl rfl)

/-- A complete block is stored for the command that the connection has noted last. -/
theorem Finished.work (hfin : Finished w w') : Work w w' := by
  cases hfin with
  | incomplete hlen => exact .idle rfl (.of_same rfl rfl rfl)
  | unknown hlen hcmd => exact .idle rfl (.of_same rfl rfl rfl)
  | stored hlen hcmd it hitem rnbuf hlive hvalue s stat cas hstore =>
    refine .stored it ?_ hcmd _ ?_ stat cas hstore rfl
    · unfold Conn.own
      rw [hlive]
      exact hitem
    · simp [slice, hvalue]

theorem readValueStored_work (heq : w.readValueStored = .ok w') : Work w w' := by
  cases readValueStored_spec heq with
  | shaken hshake _ hfin => exact hfin.work
  | dry => exact .idle rfl (.of_same rfl rfl rfl)
  | again => exact .idle rfl (.of_same rfl rfl rfl)
  | noRoom hshake hlen _ hfin => exact hfin.work
  | failed hshake hlen reads hlt _ hfin => exact hfin.work.of_start rfl rfl rfl rfl
  | closed => exact .idle rfl (.of_same rfl rfl rfl)
  | part hshake hlen reads hlt rnbuf bs hlive hroom hfit _ hfin =>
    refine hfin.work.of_start rfl ?_ rfl rfl
    unfold Conn.own
    rw [hlive]
    rfl
  | nowhere => exact .idle rfl (.of_same rfl rfl rfl)

theorem parseTurn_work (h : Sound w.cache g) (hstate : w.conn.state = .connParseCmd) (hcalm : ¬w.Snatches)
    (heq : w.parseTurn = .ok w') : Work w w' := by
  obtain ⟨⟨w₂, ret⟩, hread, heq⟩ := Result.bind_eq_ok.mp heq
  cases heq
  obtain ⟨hcache, hown⟩ := settle_same w₂ ret
  rcases tryReadCommand_dispatch hread with rfl | ⟨endflag, next, w₁, hrlen, hscan, hproc, hrest⟩
  · exact .idle hcache hown
  · have hwork : Work w w₁ := (dispatch_work (w := w.logged endflag next) h
      (fun L hlen hparse hset hno hlive bs hbs =>
        hcalm ⟨hstate, hrlen, ⟨bs, hbs⟩, endflag, L, hscan, hlen, hparse, hset, hno,
          hlive⟩) hproc).of_start rfl rfl rfl rfl
    rcases hrest with rfl | hshaken
    · exact (hwork.andThen rfl (.of_same rfl rfl rfl)).andThen hcache hown
    · obtain ⟨hcache', hown'⟩ := hshaken.keepsOwn
      exact (hwork.andThen hcache' hown').andThen hcache hown

/-- One turn of the machine. -/
theorem turn_work (h : Sound w.cache g) (hcalm : ¬w.Snatches) (heq : w.turn = .ok w') : Work w w' := by
  unfold turn at heq
  split at heq
  · cases heq
    exact .idle rfl (.of_same rfl rfl rfl)
  · rename_i hstate
    exact parseTurn_work h hstate hcalm heq
  · rcases readTurn_spec heq with ⟨w₁, hf, hw'⟩ | ⟨w₁, text, hf, rfl⟩
    all_goals obtain ⟨heap, reads, rbuf, now, rlen, rfl⟩ := hf.world
    · rcases hw' with rfl | rfl | ⟨rfl, -⟩
      all_goals exact .idle rfl (.of_same rfl rfl rfl)
    · exact .idle rfl (.of_same rfl rfl rfl)
  · rcases writeTurn_spec heq with ⟨writes, sent, wlen, now, state, rfl, -⟩ |
      ⟨writes, sent, wbuf, now, len, wlen, rfl⟩
    all_goals exact .idle rfl (.of_same rfl rfl rfl)
  · exact readValueStored_work heq
  · cases heq
    exact .idle rfl (.of_same rfl rfl rfl)
  · cases heq
    exact .idle rfl (.of_same rfl rfl rfl)

end World

/-! ### The service that follows -/

/-- The same line for another command. -/
def StoreLine.withCmd (L : StoreLine) (cmd : Nread) : StoreLine := { L with cmd := cmd }

def Pending.withCmd (P : Pending) (cmd : Nread) : Pending := { P with line := P.line.withCmd cmd }

/-- The item of a line does not depend on its command. -/
theorem Cache.allocLine_withCmd (s : Cache) (L : StoreLine) (cmd : Nread) :
    s.allocLine (L.withCmd cmd) = s.allocLine L := rfl

/-- Nor does its refusal, but for `set`. -/
theorem Cache.commandStore_withCmd {s s' : Cache} {L : StoreLine} (h : s.commandStore L = .ok (s', none)) :
    ∃ cmd, cmd ≠ .error ∧ s.commandStore (L.withCmd cmd) = .ok (s', none) := by
  by_cases hcmd : L.cmd = .error
  · refine ⟨.add, by decide, ?_⟩
    unfold commandStore at h ⊢
    rw [allocLine_withCmd]
    obtain ⟨⟨s₁, o⟩, halloc, h⟩ := Result.bind_eq_ok.mp h
    rw [halloc, Result.ok_bind]
    cases o with
    | some it => cases h
    | none =>
      dsimp only at h
      rw [if_neg (by simp [hcmd])] at h
      exact h
  · exact ⟨L.cmd, hcmd, h⟩

namespace Server

/-- For every choice of the commands of the lines that wait, a run of the service has made
the cache and waits with these lines. So a command can be chosen when its block comes. -/
def Made (s₀ s : Cache) (line : ℕ → Option Pending) : Prop :=
  ∀ f : ℕ → Nread, (∀ c, f c ≠ .error) → ∃ bs st, run Service.step (Service.start s₀) bs = .ok st ∧
    st.cache = s ∧ ∀ c, st.pending c = (line c).map fun P => P.withCmd (f c)

variable {s₀ s s' : Cache} {line line' : ℕ → Option Pending}

theorem Made.step (h : Made s₀ s line)
    (hstep : ∀ f : ℕ → Nread, (∀ c, f c ≠ .error) →
      ∃ f' : ℕ → Nread, (∀ c, f' c ≠ .error) ∧ ∃ a, ∀ st : Service,
      st.cache = s → (∀ c, st.pending c = (line c).map fun P => P.withCmd (f' c)) →
        ∃ st', st.step a = .ok st' ∧ st'.cache = s' ∧
        ∀ c, st'.pending c = (line' c).map fun P => P.withCmd (f c)) :
    Made s₀ s' line' := by
  intro f hf
  obtain ⟨f', hf', a, ha⟩ := hstep f hf
  obtain ⟨bs, st, hrun, hcache, hpend⟩ := h f' hf'
  obtain ⟨st', hst, hcache', hpend'⟩ := ha st hcache hpend
  refine ⟨bs ++ [a], st', (run_append_eq_ok _).mpr ⟨st, hrun, ?_⟩, hcache', hpend'⟩
  rw [run_cons_ok _ hst]
  rfl

/-- An action that leaves the lines as they are. -/
theorem Made.request (h : Made s₀ s line) {c : ℕ} (hc : line c = none) (now : UInt32) (req : Request)
    (hstep : ∀ st : Service, st.cache = s → st.pending c = none →
      ∃ st', st.step ⟨now, c, req⟩ = .ok st' ∧ st'.cache = s' ∧ st'.pending = st.pending) :
    Made s₀ s' line := by
  refine h.step fun f hf => ⟨f, hf, ⟨now, c, req⟩, fun st hcache hpend => ?_⟩
  obtain ⟨st', hst, hcache', hpend'⟩ := hstep st hcache (by rw [hpend, hc, Option.map_none])
  exact ⟨st', hst, hcache', fun c => hpend' ▸ hpend c⟩

theorem Made.tick (h : Made s₀ s line) {c : ℕ} (hc : line c = none) (now : UInt32) :
    Made s₀ { s with clock := now } line := by
  refine h.request hc now (.block []) fun st hcache hfree => ?_
  refine ⟨{ st with cache := st.at_ ⟨now, c, .block []⟩, reply := .none }, ?_, ?_, rfl⟩
  · simp only [Service.step, hfree]
  · rw [← hcache]
    rfl

theorem Made.looked (h : Made s₀ s line) {c : ℕ} (hc : line c = none) {k : List UInt8}
    (hk : k.length ≤ KEY_MAX_LENGTH)
    {r : Option Ptr} (hget : s.itemGet k = .ok (s', r)) : Made s₀ s' line := by
  refine h.request hc s.clock (.get k) fun st hcache hfree => ?_
  have hat : st.at_ ⟨s.clock, c, .get k⟩ = s := by
    unfold Service.at_
    rw [hcache]
  have hcommand : s.commandGet k = .ok (s', r) := by
    unfold Cache.commandGet
    rw [if_neg (not_lt.mpr hk), hget]
  simp only [Service.step, hfree, hat, hcommand, if_neg (not_lt.mpr hk), Result.ok_bind]
  cases r with
  | none => exact ⟨_, rfl, rfl, rfl⟩
  | some it => exact ⟨_, rfl, rfl, rfl⟩

theorem Made.removed (h : Made s₀ s line) {c : ℕ} (hc : line c = none) {k : List UInt8} {b : Bool}
    (hremove : s.removeKey k = .ok (s', b)) : Made s₀ s' line := by
  refine h.request hc s.clock (.delete k) fun st hcache hfree => ?_
  have hat : st.at_ ⟨s.clock, c, .delete k⟩ = s := by
    unfold Service.at_
    rw [hcache]
  simp only [Service.step, hfree, hat, hremove, Result.ok_bind]
  cases b with
  | false => exact ⟨_, rfl, rfl, rfl⟩
  | true => exact ⟨_, rfl, rfl, rfl⟩

theorem Made.refused (h : Made s₀ s line) {c : ℕ} (hc : line c = none) {L : StoreLine}
    (hline : s.commandStore L = .ok (s', none)) : Made s₀ s' line := by
  obtain ⟨cmd, hcmd, hline⟩ := Cache.commandStore_withCmd hline
  refine h.request hc s.clock (.store (L.withCmd cmd) hcmd) fun st hcache hfree => ?_
  have hat : st.at_ ⟨s.clock, c, .store (L.withCmd cmd) hcmd⟩ = s := by
    unfold Service.at_
    rw [hcache]
  simp only [Service.step, hfree, hat, hline, Result.ok_bind]
  exact ⟨_, rfl, rfl, rfl⟩

/-- A line that gets an item, on a connection of its own. -/
theorem Made.accepted (h : Made s₀ s line) {c : ℕ} (hc : line c = none) {L : StoreLine} {it : Ptr}
    (halloc : s.allocLine L = .ok (s', some it)) : Made s₀ s' (Function.update line c (some ⟨it, L⟩)) := by
  refine h.step fun f hf => ⟨f, hf, ⟨s.clock, c, .store (L.withCmd (f c)) (hf c)⟩, fun st hcache hpend => ?_⟩
  have hfree : st.pending c = none := by rw [hpend, hc, Option.map_none]
  have hat : st.at_ ⟨s.clock, c, .store (L.withCmd (f c)) (hf c)⟩ = s := by
    unfold Service.at_
    rw [hcache]
  have hline : s.commandStore (L.withCmd (f c)) = .ok (s', some it) := by
    unfold Cache.commandStore
    rw [Cache.allocLine_withCmd, halloc]
    rfl
  simp only [Service.step, hfree, hat, hline, Result.ok_bind]
  refine ⟨_, rfl, rfl, fun d => ?_⟩
  by_cases hd : d = c
  · subst hd
    simp only [Function.update_self]
    rfl
  · simp only [Function.update_of_ne hd]
    exact hpend d

/-- A block, for the command that is noted when it comes. -/
theorem Made.stored (h : Made s₀ s line) {c : ℕ} {P : Pending} (hc : line c = some P) {cmd : Nread}
    (hcmd : cmd ≠ .error)
    {bs : List UInt8} (hlen : (bs.length : ℤ) = P.line.vlen) {stat : StoreStat} {cas : Option UInt64}
    (hblock : s.commandBlock P.it cmd bs = .ok (s', stat, cas)) :
    Made s₀ s' (Function.update line c none) := by
  refine h.step fun f hf => ⟨Function.update f c cmd, fun d => ?_,
    ⟨s.clock, c, .block bs⟩, fun st hcache hpend => ?_⟩
  · by_cases hd : d = c
    · subst hd
      rwa [Function.update_self]
    · rw [Function.update_of_ne hd]
      exact hf d
  · have hwait : st.pending c = some (P.withCmd cmd) := by
      rw [hpend, hc, Function.update_self, Option.map_some]
    have hat : st.at_ ⟨s.clock, c, .block bs⟩ = s := by
      unfold Service.at_
      rw [hcache]
    have hblock' : s.commandBlock (P.withCmd cmd).it (P.withCmd cmd).line.cmd bs =
      .ok (s', stat, cas) := hblock
    have hlen' : (bs.length : ℤ) = (P.withCmd cmd).line.vlen := hlen
    simp only [Service.step, hwait, hat, hblock', Result.ok_bind, if_pos hlen']
    refine ⟨_, rfl, rfl, fun d => ?_⟩
    by_cases hd : d = c
    · subst hd
      simp only [Function.update_self]
      rfl
    · simp only [Function.update_of_ne hd]
      rw [hpend, Function.update_of_ne hd]

/-- A service that follows the server: the item that a connection waits with is waited for on
a connection of the service, its seat. -/
structure Followed (s₀ : Cache) (V : Server) (line : ℕ → Option Pending) (seat : ℕ → ℕ) (n : ℕ) : Prop where
  made : Made s₀ V.cache line
  free : ∀ c, n ≤ c → line c = none
  seats : ∀ i it, (V.conn i).world.conn.own = some it →
    ∃ P, line (seat i) = some P ∧ P.it = it ∧ P.line.vlen = (V.conn i).world.conn.rnbufLen
  apart : ∀ i j, (V.conn i).world.conn.own ≠ none → (V.conn j).world.conn.own ≠ none → seat i = seat j → i = j

variable {V V' : Server} {seat : ℕ → ℕ} {n i : ℕ} {x : Serving} {a : Stir}

theorem conn_stirred_self (V : Server) (i : ℕ) (x : Serving) : (V.stirred i x).conn i = x :=
    Function.update_self ..

theorem conn_stirred_of_ne (V : Server) (x : Serving) {j : ℕ} (hj : j ≠ i) :
    (V.stirred i x).conn j = V.conn j :=
  Function.update_of_ne hj ..

/-- What a connection has after a step in which none takes a new item, it had before. -/
theorem own_stirred (hkeep : (V.serving i).world.KeepsOwn x.world) {j : ℕ} {it : Ptr}
    (hj : ((V.stirred i x).conn j).world.conn.own = some it) : (V.conn j).world.conn.own = some it ∧
      ((V.stirred i x).conn j).world.conn.rnbufLen = (V.conn j).world.conn.rnbufLen := by
  by_cases hji : j = i
  · subst hji
    rw [conn_stirred_self] at hj ⊢
    rcases hkeep with hnone | ⟨hsame, hlen⟩
    · cases hnone.symm.trans hj
    · exact ⟨hsame.symm.trans hj, hlen⟩
  · rw [conn_stirred_of_ne V x hji] at hj ⊢
    exact ⟨hj, rfl⟩

theorem Followed.kept (h : Followed s₀ V line seat n) (hmade : Made s₀ x.world.cache line')
    (hkeep : (V.serving i).world.KeepsOwn x.world) (hfree : ∀ c, line c = none → line' c = none)
    (hline : ∀ j it, ((V.stirred i x).conn j).world.conn.own = some it → line' (seat j) = line (seat j)) :
    Followed s₀ (V.stirred i x) line' seat n := by
  have hsome : ∀ j, ((V.stirred i x).conn j).world.conn.own ≠ none → (V.conn j).world.conn.own ≠ none := by
    intro j hj
    obtain ⟨it, hit⟩ := Option.ne_none_iff_exists'.mp hj
    rw [(own_stirred hkeep hit).1]
    exact Option.some_ne_none it
  refine ⟨hmade, fun c hc => hfree c (h.free c hc), fun j it hj => ?_, fun j k hj hk => h.apart j k
    (hsome j hj) (hsome k hk)⟩
  obtain ⟨hown, hlen⟩ := own_stirred hkeep hj
  obtain ⟨P, hP, hit, hvlen⟩ := h.seats j it hown
  exact ⟨P, (hline j it hj).trans hP, hit, hvlen.trans hlen.symm⟩

/-- A step in which a connection may take a new item: it gets a new seat. -/
theorem Followed.accepted (h : Followed s₀ V line seat n) {L : StoreLine} {it : Ptr}
    (halloc : V.cache.allocLine L = .ok (x.world.cache, some it))
    (hown : ∀ q, x.world.conn.own = some q → q = it ∧ x.world.conn.rnbufLen = L.vlen) :
    Followed s₀ (V.stirred i x) (Function.update line n (some ⟨it, L⟩)) (Function.update seat i n)
    (n + 1) := by
  have hbelow : ∀ j, (V.conn j).world.conn.own ≠ none → seat j ≠ n := by
    intro j hj hseat
    obtain ⟨q, hq⟩ := Option.ne_none_iff_exists'.mp hj
    obtain ⟨P, hP, -⟩ := h.seats j q hq
    rw [h.free _ hseat.ge] at hP
    cases hP
  refine ⟨h.made.accepted (h.free n le_rfl) halloc, fun c hc => ?_, fun j q hj =>
    ?_, fun j k hj hk hseats => ?_⟩
  · rw [Function.update_of_ne (by omega)]
    exact h.free c (by omega)
  · by_cases hji : j = i
    · subst hji
      rw [conn_stirred_self] at hj ⊢
      obtain ⟨rfl, hlen⟩ := hown q hj
      rw [Function.update_self, Function.update_self]
      exact ⟨_, rfl, rfl, hlen.symm⟩
    · rw [conn_stirred_of_ne V x hji] at hj ⊢
      obtain ⟨P, hP, hit, hvlen⟩ := h.seats j q hj
      rw [Function.update_of_ne hji,
        Function.update_of_ne (hbelow j (by rw [hj]; exact Option.some_ne_none q))]
      exact ⟨P, hP, hit, hvlen⟩
  · by_cases hji : j = i <;> by_cases hki : k = i
    · exact hji.trans hki.symm
    · subst hji
      rw [conn_stirred_of_ne V x hki] at hk
      rw [Function.update_self, Function.update_of_ne hki] at hseats
      exact absurd hseats.symm (hbelow k hk)
    · subst hki
      rw [conn_stirred_of_ne V x hji] at hj
      rw [Function.update_self, Function.update_of_ne hji] at hseats
      exact absurd hseats (hbelow j hj)
    · rw [conn_stirred_of_ne V x hji] at hj
      rw [conn_stirred_of_ne V x hki] at hk
      rw [Function.update_of_ne hji, Function.update_of_ne hki] at hseats
      exact h.apart j k hj hk hseats

/-- Whatever a turn does, the service can do as well. -/
theorem Followed.work (h : Followed s₀ V line seat n) (hwork : World.Work (V.serving i).world x.world) :
    ∃ line' seat' n', Followed s₀ (V.stirred i x) line' seat' n' := by
  have hfresh : line n = none := h.free n le_rfl
  have hsame : (V.serving i).world.KeepsOwn x.world → Made s₀ x.world.cache line →
      ∃ line' seat' n', Followed s₀ (V.stirred i x) line' seat' n' := fun hkeep hmade =>
    ⟨line, seat, n, h.kept hmade hkeep (fun _ hc => hc) fun _ _ _ => rfl⟩
  cases hwork with
  | idle hcache hown =>
    refine hsame hown ?_
    rw [hcache]
    exact h.made
  | looked k hk r hget hown => exact hsame hown (h.made.looked hfresh hk hget)
  | removed k b hremove hown => exact hsame hown (h.made.removed hfresh hremove)
  | refused L hline hown => exact hsame (.inl hown) (h.made.refused hfresh hline)
  | accepted L it halloc hown => exact ⟨_, _, _, h.accepted halloc hown⟩
  | stored it hit hcmd bs hlen stat c hblock hown =>
    obtain ⟨P, hP, rfl, hvlen⟩ := h.seats i it hit
    have hvalue : (bs.length : ℤ) = P.line.vlen := by
      have hge := P.line.vlen_ge
      have hlt := P.line.vlen_lt
      have hsize : bs.length = toSizeT P.line.vlen := by
        rw [hvlen]
        exact hlen
      rw [hsize, toSizeT_of_bounds (by omega) (by omega)]
      omega
    refine ⟨_, seat, n, h.kept (h.made.stored hP hcmd hvalue hblock) (.inl hown)
      (fun c hc => ?_) fun j q hj => ?_⟩
    · by_cases hci : c = seat i
      · subst hci
        exact Function.update_self ..
      · rw [Function.update_of_ne hci]
        exact hc
    · -- the item of another connection has another seat
      have hji : j ≠ i := by
        rintro rfl
        rw [conn_stirred_self] at hj
        cases hown.symm.trans hj
      rw [conn_stirred_of_ne V x hji] at hj
      refine Function.update_of_ne (fun hseat => hji (h.apart j i ?_ ?_ hseat)) ..
      · rw [hj]
        exact Option.some_ne_none q
      · rw [show (V.conn i).world.conn.own = some P.it from hit]
        exact Option.some_ne_none _

/-- The invariant of the server, and a service that follows it. -/
structure Contained (s₀ : Cache) (V : Server) : Prop where
  inv : ∃ g, Inv V g
  followed : ∃ line seat n, Followed s₀ V line seat n

theorem Contained.step (h : Contained s₀ V) (hcalm : V.Calm a) (hstep : V.step a = .ok V') :
    Contained s₀ V' := by
  refine ⟨inv_step h.inv hcalm hstep, ?_⟩
  obtain ⟨g, hinv⟩ := h.inv
  obtain ⟨line, seat, n, hfollowed⟩ := h.followed
  have hidle : ∀ i (x : Serving), x.world.cache = V.cache → (V.serving i).world.KeepsOwn x.world →
      ∃ line' seat' n', Followed s₀ (V.stirred i x) line' seat' n' :=
    fun i x hcache hown => hfollowed.work (.idle hcache hown)
  cases a with
  | event i watcher reads writes =>
    obtain ⟨x, hx, hstep⟩ := Result.bind_eq_ok.mp hstep
    cases hstep
    simp only [Serving.step] at hx
    split at hx
    all_goals
      cases hx
      exact hidle i _ rfl (.of_same rfl rfl rfl)
  | turn i =>
    obtain ⟨x, hx, hstep⟩ := Result.bind_eq_ok.mp hstep
    cases hstep
    simp only [Serving.step] at hx
    split at hx
    · rename_i hrun
      obtain ⟨w, hw, hx⟩ := Result.bind_eq_ok.mp hx
      cases hx
      have hwork := World.turn_work hinv.sound (hcalm hrun) hw
      refine hfollowed.work ?_
      unfold Serving.after
      split
      · exact hwork.andThen rfl (.of_same rfl rfl rfl)
      · exact hwork
    · cases hx
      exact hidle i _ rfl (.of_same rfl rfl rfl)
  | clock now =>
    cases hstep
    exact ⟨line, seat, n, hfollowed.made.tick (hfollowed.free n le_rfl) now, hfollowed.free,
      hfollowed.seats, hfollowed.apart⟩

theorem Contained.start {limit : ℕ} {set : Settings} {mallocOk : ℕ → Bool} {hashpower : ℕ}
    (hinit : Cache.init limit set mallocOk hashpower = some s₀) (w : ℕ → World)
    (hnew : ∀ i, ∃ flagPrecmd flagShake noreply rbuf wbuf cas,
      (w i).conn = Conn.new flagPrecmd flagShake noreply rbuf wbuf cas) : Contained s₀ (start s₀ w) := by
  have hown : ∀ i, (w i).conn.own = none := by
    intro i
    obtain ⟨flagPrecmd, flagShake, noreply, rbuf, wbuf, cas, hw⟩ := hnew i
    rw [hw]
    rfl
  refine ⟨start_inv hinit w hnew, fun _ => none, fun i => i, 0,
    ?_, fun _ _ => rfl, fun i it hi => ?_, fun i j hi => ?_⟩
  · exact fun f hf => ⟨[], _, rfl, rfl, fun _ => rfl⟩
  · cases (hown i).symm.trans hi
  · exact absurd (hown i) hi

/-- Whatever bytes the clients send, in whatever pieces, the cache is one that a run of
well-formed requests makes, and every item that a connection holds a buffer for is waited for in it,
until a failed `set` takes such an item away. -/
theorem cache_contained {limit : ℕ} {set : Settings} {mallocOk : ℕ → Bool} {hashpower : ℕ}
    (hinit : Cache.init limit set mallocOk hashpower = some s₀) (w : ℕ → World)
    (hnew : ∀ i, ∃ flagPrecmd flagShake noreply rbuf wbuf cas,
      (w i).conn = Conn.new flagPrecmd flagShake noreply rbuf wbuf cas) {as : List Stir}
    (hcalm : EachStep step Calm (start s₀ w) as) (hrun : run step (start s₀ w) as = .ok V) :
    ∃ bs st, run Service.step (Service.start s₀) bs = .ok st ∧ st.cache = V.cache ∧
      ∀ i it, (V.conn i).world.conn.own = some it → ∃ c P, st.pending c = some P ∧ P.it = it := by
  have hall : Throughout step (Contained s₀) (start s₀ w) as :=
    throughout_of_eachStep (I := fun V _ => Contained s₀ V) (L := fun _ _ => True) (C := Calm)
      (fun V a as V' h _ hc hstep => h.step hc hstep) (fun V as h => h) (.start hinit w hnew)
      (eachStep_of_forall (fun _ _ => trivial) _ _) hcalm
  obtain ⟨line, seat, n, hfollowed⟩ := (hall.last hrun).followed
  obtain ⟨bs, st, hservice, hcache, hpend⟩ := hfollowed.made (fun _ => .set) fun _ => by decide
  refine ⟨bs, st, hservice, hcache, fun i it hi => ?_⟩
  obtain ⟨P, hP, hit, -⟩ := hfollowed.seats i it hi
  exact ⟨seat i, P.withCmd .set, by rw [hpend, hP, Option.map_some], hit⟩

/-- A key is set, and another client sends a storage line for a command that there is not. -/
def unknownLine : List Stir := setShort ++ reading 1 (bytes "foo b 0 0 1" ++ crlf) 2

theorem cache_contained_unknownLine : ∃ s V it,
    Cache.init 1 Service.smallSettings (fun _ => true) 0 = some s ∧
    run step (start s fun _ => Serving.fresh s) unknownLine = .ok V ∧ (V.conn 1).world.conn.own = some it ∧
    ∃ bs st, run Service.step (Service.start s) bs = .ok st ∧ st.cache = V.cache ∧
      ∃ c P, st.pending c = some P ∧ P.it = it := by
  have htrial : (Cache.init 1 Service.smallSettings (fun _ => true) 0).any (fun s =>
      decide (EachStep step Bufferless (start s fun _ => Serving.fresh s) unknownLine) &&
      (run step (start s fun _ => Serving.fresh s) unknownLine).toOption.any fun V =>
        (V.conn 1).world.conn.own.isSome) = true := by
    decide +kernel
  obtain ⟨s, hinit, hs⟩ := Service.exists_init htrial
  obtain ⟨hbufferless, hs⟩ := (Bool.and_eq_true_iff ..).mp hs
  obtain ⟨V, hV, hown⟩ := (Option.any_eq_true _ _).mp hs
  obtain ⟨it, hit⟩ := Option.isSome_iff_exists.mp hown
  have hcalm := (of_decide_eq_true hbufferless).mono (D := Calm) fun _ _ => Bufferless.calm
  have hrun := Result.eq_ok_of_toOption hV
  obtain ⟨bs, st, hservice, hcache, hwaits⟩ := cache_contained hinit (fun _ => Serving.fresh s)
    (fun _ => ⟨false, false, false, _, _, 0, rfl⟩) hcalm hrun
  exact ⟨s, V, it, hinit, hrun, hit, bs, st, hservice, hcache, hwaits 1 it hit⟩

end Server

end MiniMemcached
