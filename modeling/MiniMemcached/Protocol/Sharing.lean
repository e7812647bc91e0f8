import MiniMemcached.Cache.Copies
import MiniMemcached.Protocol.Watchers
import MiniMemcached.Service.Outcomes

/-! Connections that work on one cache. Each owns the item whose block it waits for; a
turn of one connection leaves alone what the others own. So the length that a
connection has noted for its block is the one of its item when the value is copied,
unless a refused `set` has put the item that it removed in the place of its own. -/

namespace MiniMemcached

open Memory Runs

/-- The item whose value a connection is going to copy from its buffer. -/
def Conn.own (c : Conn) : Option Ptr :=
  match c.rnbuf with
  | .live _ => c.item
  | _ => none

namespace World

variable {w w₁ w' : World} {g g' : Shape} {tokens : List (List UInt8)}

/-- The item of the connection is in flight, and its length was noted. -/
def Owns (w : World) (g : Shape) : Prop :=
  ∀ it, w.conn.own = some it → it ∈ g.inFlight ∧ w.conn.rnbufLen = w.cache.items.nbytes it

/-- What a turn of the connection leaves: its own item may be given up or change, and the
other items in flight stay as they are. -/
structure Effect (w : World) (g : Shape) (w' : World) (g' : Shape) : Prop where
  sound : Sound w'.cache g'
  sized : Sized w'.cache g'
  others : ∀ q ∈ g.inFlight, w.conn.own ≠ some q →
    q ∈ g'.inFlight ∧ w'.cache.items.nbytes q = w.cache.items.nbytes q
  owns : w'.Owns g'
  fresh : ∀ it, w'.conn.own = some it → w.conn.own = some it ∨ it ∉ g.inFlight

/-- The connection has given its item up, or it has the one that it had. -/
def KeepsOwn (w w' : World) : Prop :=
  w'.conn.own = none ∨ w'.conn.own = w.conn.own ∧ w'.conn.rnbufLen = w.conn.rnbufLen

/-- A turn whose work on the cache leaves the items in flight alone. -/
theorem Effect.calm {acts : List Act} (h : Sound w.cache g) (hsized : Sized w.cache g) (howns : w.Owns g)
    (hsteps : Steps w.cache g acts w'.cache g') (hfresh : ∀ a ∈ acts, a.fresh = none)
    (hwrites : ∀ a ∈ acts, a.writes = none) (hflight : acts.foldl Act.flight g.inFlight = g.inFlight)
    (hown : w.KeepsOwn w') : Effect w g w' g' := by
  have hev := hsteps.evolves h (K := g.inFlight) (fun _ hp => hp) fun a ha => by simp [hwrites a ha]
  have hsame : g'.inFlight = g.inFlight := hsteps.flight.trans hflight
  refine ⟨hsteps.sound h, hsized.unfresh h hsteps hfresh, fun q hq _ =>
    ⟨by rwa [hsame], hev.nbytes q (.inr hq)⟩, ?_, ?_⟩
  · intro it hit
    rcases hown with hnone | ⟨hown, hlen⟩
    · cases hnone.symm.trans hit
    · obtain ⟨hin, hn⟩ := howns it (hown.symm.trans hit)
      exact ⟨by rwa [hsame], by rw [hlen, hn, hev.nbytes it (.inr hin)]⟩
  · intro it hit
    rcases hown with hnone | ⟨hown, -⟩
    · cases hnone.symm.trans hit
    · exact .inl (hown.symm.trans hit)

/-- A turn that does not work on the cache. -/
theorem Effect.idle (h : Sound w.cache g) (hsized : Sized w.cache g) (howns : w.Owns g)
    (hcache : w'.cache = w.cache) (hown : w.KeepsOwn w') : Effect w g w' g := by
  have hnil : Steps w.cache g [] w'.cache g := by
    rw [hcache]
    exact .nil _
  exact Effect.calm h hsized howns hnil (by simp) (by simp) rfl hown

/-- What follows the work on the cache. -/
theorem Effect.andThen (h : Effect w g w₁ g') (hcache : w'.cache = w₁.cache) (hown : w₁.KeepsOwn w') :
    Effect w g w' g' := by
  refine ⟨hcache ▸ h.sound, hcache ▸ h.sized, hcache ▸ h.others, fun it hit => ?_, fun it hit => ?_⟩
  · rcases hown with hnone | ⟨hown, hlen⟩
    · cases hnone.symm.trans hit
    · rw [hcache, hlen]
      exact h.owns it (hown.symm.trans hit)
  · rcases hown with hnone | ⟨hown, -⟩
    · cases hnone.symm.trans hit
    · exact h.fresh it (hown.symm.trans hit)

/-- A connection that does not touch its item and its buffer. -/
theorem KeepsOwn.of_same (hbuf : w'.conn.rnbuf = w.conn.rnbuf) (hitem : w'.conn.item = w.conn.item)
    (hlen : w'.conn.rnbufLen = w.conn.rnbufLen) : w.KeepsOwn w' := by
  refine .inr ⟨?_, hlen⟩
  unfold Conn.own
  rw [hbuf, hitem]

/-- A storage line that gets an item: it is a new one, with the length that is noted. -/
theorem acceptLine_effect (h : Sound w.cache g) (hsized : Sized w.cache g) {L : StoreLine}
    {s : Cache} {it : Ptr}
    (halloc : w.cache.allocLine L = .ok (s, some it)) :
    ∃ g', Effect w g (({ w with cache := s } : World).acceptLine it L) g' := by
  rcases Steps.allocLine h L with ⟨-, b, t, halloc', -⟩ | ⟨hok, s', g', it', halloc', -, hA, hfill, hsteps⟩
  · cases halloc'.symm.trans halloc
  · cases halloc'.symm.trans halloc
    have hown : ∀ q, (({ w with cache := s } : World).acceptLine it L).conn.own = some q → q = it := by
      intro q hq
      unfold Conn.own at hq
      split at hq
      · exact (Option.some.inj hq).symm
      · cases hq
    have hflight : g'.inFlight = insert it g.inFlight := by
      rw [hsteps.flight]
      rfl
    refine ⟨g', hsteps.sound h, hsized.granted h hok hfill hsteps, fun q hq _ => ⟨?_, ?_⟩, fun q hq => ?_,
      fun q hq => .inr (hown q hq ▸ hA)⟩
    · rw [hflight]
      exact .inr hq
    · have hne : it ≠ q := fun e => hA (e ▸ hq)
      exact (hsteps.evolves h (K := {q}) (by simpa using hq)
        (by simpa [Act.writes] using hne)).nbytes q (.inr rfl)
    · obtain rfl := hown q hq
      rw [hflight]
      exact ⟨.inl rfl, hfill.nbytes.symm⟩

/-- `delete` removes the key and queues its answer. -/
theorem deleteCommand_form (heq : w.deleteCommand tokens = .ok w') :
    ∃ b text, w.cache.removeKey (tokens.getD 1 []) = .ok (w'.cache, b) ∧ w' = w.answered w'.cache text := by
  unfold deleteCommand at heq
  unfold Cache.removeKey
  obtain ⟨⟨s, o⟩, hget, heq⟩ := Result.bind_eq_ok.mp heq
  rw [hget]
  cases o with
  | none =>
    obtain ⟨-, rfl⟩ := answer_eq_ok.mp heq
    exact ⟨false, _, rfl, rfl⟩
  | some it =>
    obtain ⟨s', hunlink, heq⟩ := Result.bind_eq_ok.mp heq
    obtain ⟨-, rfl⟩ := answer_eq_ok.mp heq
    refine ⟨true, _, ?_, rfl⟩
    simp only [Result.ok_bind, hunlink, Result.pure_eq]
    rfl

/-- `get` looks its key up, unless that is too long, and leaves the item of the connection. -/
theorem getCommand_form (heq : w.getCommand tokens = .ok w') :
    (w'.cache = w.cache ∨ ∃ o, w.cache.itemGet (tokens.getD 1 []) = .ok (w'.cache, o)) ∧ w.KeepsOwn w' := by
  unfold getCommand at heq
  dsimp only at heq
  split at heq
  · obtain ⟨-, rfl⟩ := outString_eq_ok.mp heq
    exact ⟨.inl rfl, .of_same rfl rfl rfl⟩
  · obtain ⟨⟨s, o⟩, hget, heq⟩ := Result.bind_eq_ok.mp heq
    cases o with
    | none =>
      obtain ⟨-, rfl⟩ := answer_eq_ok.mp heq
      exact ⟨.inr ⟨none, hget⟩, .of_same rfl rfl rfl⟩
    | some it =>
      obtain ⟨wg, hgrow, heq⟩ := Result.bind_eq_ok.mp heq
      obtain ⟨heap, wbuf, now, len, rfl, -⟩ := growWbuf_spec hgrow
      obtain ⟨wbuf', -, heq⟩ := Result.bind_eq_ok.mp heq
      cases heq
      exact ⟨.inr ⟨some it, hget⟩, .of_same rfl rfl rfl⟩

section Handlers

variable (h : Sound w.cache g) (hsized : Sized w.cache g) (howns : w.Owns g)

include h hsized howns

theorem commandOnePara_effect (heq : w.commandOnePara tokens = .ok w') : Effect w g w' g := by
  unfold commandOnePara at heq
  split at heq
  · cases heq
    exact .idle h hsized howns rfl (.of_same rfl rfl rfl)
  · split at heq
    all_goals
      obtain ⟨-, rfl⟩ := answer_eq_ok.mp heq
      exact .idle h hsized howns rfl (.of_same rfl rfl rfl)

theorem deleteCommand_effect (heq : w.deleteCommand tokens = .ok w') : ∃ g', Effect w g w' g' := by
  obtain ⟨s, g', acts, b, hrem, hsteps, hacts, -⟩ := Steps.removeKey h (tokens.getD 1 [])
  obtain ⟨b', text, hrem', hform⟩ := deleteCommand_form heq
  cases hrem.symm.trans hrem'
  rw [hform]
  exact ⟨g', .calm h hsized howns hsteps hacts.fresh hacts.writes (hacts.flight _) (.of_same rfl rfl rfl)⟩

theorem getCommand_effect (heq : w.getCommand tokens = .ok w') : ∃ g', Effect w g w' g' := by
  obtain ⟨hcache | ⟨o, hget⟩, hown⟩ := getCommand_form heq
  · exact ⟨g, .idle h hsized howns hcache hown⟩
  · obtain ⟨s', g', acts, r, hget', hsteps, hacts, -⟩ := Steps.itemGet h (tokens.getD 1 [])
    cases hget'.symm.trans hget
    have hfresh : ∀ a ∈ Act.quiet :: acts ++ [Act.quiet], a.fresh = none := by
      simpa [or_imp, forall_and, Act.fresh] using hacts.fresh
    have hwrites : ∀ a ∈ Act.quiet :: acts ++ [Act.quiet], a.writes = none := by
      simpa [or_imp, forall_and, Act.writes] using hacts.writes
    have hflight : (Act.quiet :: acts ++ [Act.quiet]).foldl Act.flight g.inFlight = g.inFlight := by
      simp only [List.cons_append, List.foldl_cons, List.foldl_append, List.foldl_nil, hacts.flight]
      rfl
    exact ⟨g', .calm h hsized howns hsteps hfresh hwrites hflight hown⟩

/-- A storage line without memory: its connection gives its item up, for nothing or for the
item that a failed `set` has removed. -/
theorem refuseLine_effect {L : StoreLine} {s : Cache} (hno : ¬w.cache.slab.allocOk L.key.length L.vlen)
    (hcalm : L.cmd = .set → (∃ p, w.cache.live L.key p) → ∀ bs, w.conn.rnbuf ≠ .live bs)
    (halloc : w.cache.allocLine L = .ok (s, none))
    (heq : ({ w with cache := s } : World).refuseLine L = .ok w') :
    ∃ g', Effect w g w' g' := by
  rcases Steps.allocLine h L with ⟨-, b, t, halloc', hb, hl, hf⟩ | ⟨hok, -⟩
  · cases halloc'.symm.trans halloc
    have hrefuse : Steps w.cache g [.refuse] _ g := .single (.refuse hb hl hf)
    unfold refuseLine at heq
    obtain ⟨w₁, hout, heq⟩ := Result.bind_eq_ok.mp heq
    obtain ⟨-, rfl⟩ := outString_eq_ok.mp hout
    split at heq
    · rename_i hcmd
      obtain ⟨s₂, g', acts, r, hrem, hsteps, hacts, -⟩ := Steps.removeKey (h.refused hb hl) L.key
      have hacts := hacts.refused
      obtain ⟨⟨s₁, o⟩, hget, heq⟩ := Result.bind_eq_ok.mp heq
      have hget : ({ w.cache with slab := b, trace := t ++ w.cache.trace } : Cache).itemGet L.key =
        .ok (s₁, o) := hget
      unfold Cache.removeKey at hrem
      rw [hget] at hrem
      have hall : ∀ w' : World, w'.cache = s₂ → w'.conn.own = none → Effect w g w' g' := by
        rintro w' rfl hown
        exact .calm h hsized howns (hrefuse.append hsteps) (List.forall_mem_cons.mpr ⟨rfl, hacts.fresh⟩)
          (List.forall_mem_cons.mpr ⟨rfl, hacts.writes⟩) (hacts.flight _) (.inl hown)
      refine ⟨g', ?_⟩
      cases o with
      | none =>
        cases hrem
        cases heq
        refine hall _ rfl ?_
        unfold Conn.own
        split <;> rfl
      | some it =>
        obtain ⟨s₃, hunlink, heq⟩ := Result.bind_eq_ok.mp heq
        simp only [Result.ok_bind, hunlink, Result.pure_eq, Except.ok.injEq, Prod.mk.injEq] at hrem
        obtain ⟨rfl, rfl⟩ := hrem
        cases heq
        refine hall _ rfl ?_
        cases hacts with
        | hit p hp hk hlive =>
          have hdead := hcalm hcmd ⟨p, (h.mem_found_iff _ _).mpr ⟨hp, hk⟩, hlive⟩
          unfold Conn.own
          split
          · rename_i bs hbs
            exact absurd hbs (hdead bs)
          · rfl
    · cases heq
      refine ⟨g, .calm h hsized howns hrefuse (by simp [Act.fresh]) (by simp [Act.writes]) rfl (.inl ?_)⟩
      unfold Conn.own
      split <;> rfl
  · exact absurd hok hno

theorem commandFiveSixPara_effect {cas : Bool}
    (hcalm : ∀ L, parseStoreLine tokens cas = some L → L.cmd = .set →
      ¬w.cache.slab.allocOk L.key.length L.vlen → (∃ p, w.cache.live L.key p) → ∀ bs, w.conn.rnbuf ≠ .live bs)
    (heq : w.commandFiveSixPara tokens cas = .ok w') : ∃ g', Effect w g w' g' := by
  unfold commandFiveSixPara at heq
  dsimp only at heq
  split at heq
  · obtain ⟨-, rfl⟩ := outString_eq_ok.mp heq
    exact ⟨g, .idle h hsized howns rfl (.of_same rfl rfl rfl)⟩
  · rename_i L hparse
    obtain ⟨⟨s, o⟩, halloc, heq⟩ := Result.bind_eq_ok.mp heq
    cases o with
    | none =>
      have hno : ¬w.cache.slab.allocOk L.key.length L.vlen := by
        rcases Steps.allocLine h L with ⟨hno, -⟩ | ⟨-, s', g', it, halloc', -⟩
        · exact hno
        · cases halloc'.symm.trans halloc
      obtain ⟨g', heff⟩ := refuseLine_effect (w := w.withCmd tokens) h hsized howns hno
        (fun hcmd => hcalm L hparse hcmd hno) halloc heq
      exact ⟨g', heff.sound, heff.sized, heff.others, heff.owns, heff.fresh⟩
    | some it =>
      cases heq
      obtain ⟨g', heff⟩ := acceptLine_effect (w := w.withCmd tokens) h hsized halloc
      exact ⟨g', heff.sound, heff.sized, heff.others, heff.owns, heff.fresh⟩

/-- The handlers, where no failed `set` removes an item while a block is waited for. -/
theorem dispatch_effect
    (hcalm : ∀ L, (tokens.length = 5 ∨ tokens.length = 6) →
      parseStoreLine tokens (decide (tokens.length = 6)) = some L → L.cmd = .set →
      ¬w.cache.slab.allocOk L.key.length L.vlen → (∃ p, w.cache.live L.key p) → ∀ bs, w.conn.rnbuf ≠ .live bs)
    (heq : w.dispatch tokens = .ok w') : ∃ g', Effect w g w' g' := by
  unfold dispatch at heq
  split at heq
  · exact ⟨g, commandOnePara_effect h hsized howns heq⟩
  · unfold commandTwoPara at heq
    split at heq
    · exact getCommand_effect h hsized howns heq
    · split at heq
      · exact deleteCommand_effect h hsized howns heq
      · obtain ⟨-, rfl⟩ := answer_eq_ok.mp heq
        exact ⟨g, .idle h hsized howns rfl (.of_same rfl rfl rfl)⟩
  · cases heq
    exact ⟨g, .idle h hsized howns rfl (.of_same rfl rfl rfl)⟩
  · rename_i hlen
    obtain ⟨w₁, heq₁, heq⟩ := Result.bind_eq_ok.mp heq
    cases heq
    have hsix : decide (tokens.length = 6) = false := by simp [hlen]
    rw [hsix] at hcalm
    obtain ⟨g', heff⟩ := commandFiveSixPara_effect h hsized howns (fun L => hcalm L (.inl hlen)) heq₁
    exact ⟨g', heff.andThen rfl (.of_same rfl rfl rfl)⟩
  · rename_i hlen
    have hsix : decide (tokens.length = 6) = true := by simp [hlen]
    rw [hsix] at hcalm
    exact commandFiveSixPara_effect h hsized howns (fun L => hcalm L (.inr hlen)) heq
  · cases heq
    exact ⟨g, .idle h hsized howns rfl (.of_same rfl rfl rfl)⟩

end Handlers

/-- The end of `read_value_stored`. -/
theorem Finished.effect (hfin : Finished w w') (h : Sound w.cache g) (hsized : Sized w.cache g)
    (howns : w.Owns g) :
    ∃ g', Effect w g w' g' := by
  cases hfin with
  | incomplete hlen => exact ⟨g, .idle h hsized howns rfl (.of_same rfl rfl rfl)⟩
  | unknown hlen hcmd => exact ⟨g, .idle h hsized howns rfl (.of_same rfl rfl rfl)⟩
  | stored hlen hcmd it hitem rnbuf hlive hvalue s stat cas hstore =>
    have hown : w.conn.own = some it := by
      unfold Conn.own
      rw [hlive]
      exact hitem
    obtain ⟨hit, -⟩ := howns it hown
    have hwrite := Steps.writeValue (s := w.cache) hit (slice rnbuf 0 (toSizeT w.conn.rnbufLen))
    have hs := hwrite.sound h
    rcases Steps.storeItem hs hit w.conn.cmd with ⟨-, -, herr⟩ |
      ⟨s', g', acts, stat', c, heq, hsteps, hacts, hlinked, -⟩
    · cases hstore.symm.trans herr
    · cases heq.symm.trans hstore
      have hall : Steps w.cache g
          ([.fill it (w.cache.items.itemFlag it)] ++ (.quiet :: acts ++ [.quiet])) s g' :=
        hwrite.append hsteps
      have hnone : ∀ q, (w.storedWith s (cas.getD w.conn.cas) (storeAnswer w.conn.cmd stat)
          (slice rnbuf 0 (toSizeT w.conn.rnbufLen)) (w.cache.items.key it) stat).conn.own ≠ some q := nofun
      refine ⟨g', hall.sound h, (hsized.writeValue h hit _).storeItem hs hit heq hsteps hacts hlinked,
        fun q hq hne => ?_, fun q hq => absurd hq (hnone q), fun q hq => absurd hq (hnone q)⟩
      have hqi : q ≠ it := fun e => hne (e ▸ hown)
      have hout : ∀ a ∈ [Act.fill it (w.cache.items.itemFlag it)] ++ (.quiet :: acts ++ [.quiet]),
        a.writes ≠ some q := by
        have hin := hacts.writes hq hqi
        have hiq : ¬it = q := fun e => hqi e.symm
        simpa [or_imp, forall_and, Act.writes, hiq] using hin
      exact ⟨hall.inFlight hq hout,
        (hall.evolves h (K := {q}) (by simpa using hq) (by simpa using hout)).nbytes q (.inr rfl)⟩

/-- A start that does not touch the cache, the item and the buffer does not matter. -/
theorem Effect.of_start (h : Effect w₁ g w' g') (hcache : w₁.cache = w.cache)
    (hown : w₁.conn.own = w.conn.own) :
    Effect w g w' g' :=
  ⟨h.sound, h.sized, fun q hq hne => hcache ▸ h.others q hq (hown ▸ hne), h.owns,
    fun it hit => hown ▸ h.fresh it hit⟩

theorem Owns.of_start (howns : w.Owns g) (hcache : w₁.cache = w.cache) (hown : w₁.conn.own = w.conn.own)
    (hlen : w₁.conn.rnbufLen = w.conn.rnbufLen) : w₁.Owns g := by
  intro it hit
  rw [hcache, hlen]
  exact howns it (hown ▸ hit)

/-- The turn in `conn_nread`. -/
theorem readValueStored_effect (h : Sound w.cache g) (hsized : Sized w.cache g) (howns : w.Owns g)
    (heq : w.readValueStored = .ok w') : ∃ g', Effect w g w' g' := by
  have hsame : ∀ w₁ : World, w₁.cache = w.cache → w.KeepsOwn w₁ → ∃ g', Effect w g w₁ g' :=
    fun w₁ hcache hown => ⟨g, .idle h hsized howns hcache hown⟩
  cases readValueStored_spec heq with
  | shaken hshake _ hfin => exact hfin.effect h hsized howns
  | dry => exact hsame _ rfl (.of_same rfl rfl rfl)
  | again => exact hsame _ rfl (.of_same rfl rfl rfl)
  | noRoom hshake hlen _ hfin => exact hfin.effect h hsized howns
  | failed hshake hlen reads hlt _ hfin =>
    obtain ⟨g', heff⟩ := hfin.effect h hsized (howns.of_start rfl rfl rfl)
    exact ⟨g', heff.of_start rfl rfl⟩
  | closed => exact hsame _ rfl (.of_same rfl rfl rfl)
  | part hshake hlen reads hlt rnbuf bs hlive hroom hfit _ hfin =>
    have hown : (w.tookPart reads rnbuf bs).conn.own = w.conn.own := by
      unfold Conn.own
      rw [hlive]
      rfl
    obtain ⟨g', heff⟩ := hfin.effect h hsized (howns.of_start rfl hown rfl)
    exact ⟨g', heff.of_start rfl hown⟩
  | nowhere => exact hsame _ rfl (.of_same rfl rfl rfl)

/-- The handler that a line goes to, and what follows it in `try_read_command`. -/
theorem tryReadCommand_dispatch {ret : Bool} (heq : w.tryReadCommand = .ok (w', ret)) :
    w' = w ∨ ∃ endflag next w₁, w.conn.rbufRlen ≠ 0 ∧
      memchr w.conn.rbuf 0 (toSizeT w.conn.rbufRlen) 10 = .found endflag ∧
      (w.logged endflag next).dispatch (w.tokensAt endflag) = .ok w₁ ∧
      (w' = w₁.passLine (endflag + 1) ∨ Shaken w₁ (endflag + 1) (w₁.conn.rbufRlen - (endflag + 1)) w') := by
  unfold tryReadCommand at heq
  split at heq
  · cases heq
    exact .inl rfl
  · rename_i hrlen
    split at heq
    · cases heq
    · cases heq
    · rename_i endflag hscan
      obtain ⟨next, -, heq⟩ := Result.bind_eq_ok.mp heq
      obtain ⟨w₁, hproc, heq⟩ := Result.bind_eq_ok.mp heq
      refine .inr ⟨endflag, next, w₁, hrlen, hscan, hproc, ?_⟩
      split at heq
      · obtain ⟨w₂, hsh, heq⟩ := Result.bind_eq_ok.mp heq
        cases heq
        exact .inr (connShake_spec hsh)
      · cases heq
        exact .inl rfl

/-- A `set` that gets no memory is about to be parsed while the connection holds the
buffer of an earlier line, and the key has an item that would be found. -/
def Snatches (w : World) : Prop :=
  w.conn.state = .connParseCmd ∧ w.conn.rbufRlen ≠ 0 ∧ (∃ bs, w.conn.rnbuf = .live bs) ∧
  ∃ endflag L, memchr w.conn.rbuf 0 (toSizeT w.conn.rbufRlen) 10 = .found endflag ∧
    ((w.tokensAt endflag).length = 5 ∨ (w.tokensAt endflag).length = 6) ∧
    parseStoreLine (w.tokensAt endflag) (decide ((w.tokensAt endflag).length = 6)) = some L ∧ L.cmd = .set ∧
    ¬w.cache.slab.allocOk L.key.length L.vlen ∧ ∃ p, w.cache.live L.key p

theorem Shaken.keepsOwn {tempEnd : ℕ} {valueLen : ℤ} (h : Shaken w tempEnd valueLen w') :
    w'.cache = w.cache ∧ w.KeepsOwn w' := by
  cases h with
  | kept => exact ⟨rfl, .of_same rfl rfl rfl⟩
  | block i hscan hprecmd rnbuf hlive =>
    refine ⟨rfl, .inr ⟨?_, rfl⟩⟩
    unfold Conn.own
    rw [hlive]
    rfl
  | line => exact ⟨rfl, .of_same rfl rfl rfl⟩

theorem settle_same (w : World) (ret : Bool) :
    (w.settle ret).cache = w.cache ∧ w.KeepsOwn (w.settle ret) := by
  unfold settle
  dsimp only
  split_ifs <;> exact ⟨rfl, .of_same rfl rfl rfl⟩

/-- The turn in `conn_parse_cmd`. -/
theorem parseTurn_effect (h : Sound w.cache g) (hsized : Sized w.cache g) (howns : w.Owns g)
    (hstate : w.conn.state = .connParseCmd) (hcalm : ¬w.Snatches) (heq : w.parseTurn = .ok w') :
    ∃ g', Effect w g w' g' := by
  obtain ⟨⟨w₂, ret⟩, hread, heq⟩ := Result.bind_eq_ok.mp heq
  cases heq
  obtain ⟨hcache, hown⟩ := settle_same w₂ ret
  rcases tryReadCommand_dispatch hread with rfl | ⟨endflag, next, w₁, hrlen, hscan, hproc, hrest⟩
  · exact ⟨g, .idle h hsized howns hcache hown⟩
  · obtain ⟨g', heff⟩ := dispatch_effect (w := w.logged endflag next) h hsized howns
      (fun L hlen hparse hset hno hlive bs hbs =>
        hcalm ⟨hstate, hrlen, ⟨bs, hbs⟩, endflag, L, hscan, hlen, hparse, hset, hno, hlive⟩) hproc
    have heff₁ : Effect w g w₁ g' := heff.of_start rfl rfl
    refine ⟨g', ?_⟩
    rcases hrest with rfl | hshaken
    · exact (heff₁.andThen rfl (.of_same rfl rfl rfl)).andThen hcache hown
    · obtain ⟨hcache', hown'⟩ := hshaken.keepsOwn
      exact (heff₁.andThen hcache' hown').andThen hcache hown

/-- One turn of the machine. -/
theorem turn_effect (h : Sound w.cache g) (hsized : Sized w.cache g) (howns : w.Owns g)
    (hcalm : ¬w.Snatches) (heq : w.turn = .ok w') : ∃ g', Effect w g w' g' := by
  have hsame : ∀ w₁ : World, w₁.cache = w.cache → w.KeepsOwn w₁ → ∃ g', Effect w g w₁ g' :=
    fun w₁ hcache hown => ⟨g, .idle h hsized howns hcache hown⟩
  unfold turn at heq
  split at heq
  · cases heq
    exact hsame _ rfl (.of_same rfl rfl rfl)
  · rename_i hstate
    exact parseTurn_effect h hsized howns hstate hcalm heq
  · rcases readTurn_spec heq with ⟨w₁, hf, hw'⟩ | ⟨w₁, text, hf, rfl⟩
    all_goals obtain ⟨heap, reads, rbuf, now, rlen, rfl⟩ := hf.world
    · rcases hw' with rfl | rfl | ⟨rfl, -⟩
      all_goals exact hsame _ rfl (.of_same rfl rfl rfl)
    · exact hsame _ rfl (.of_same rfl rfl rfl)
  · rcases writeTurn_spec heq with ⟨writes, sent, wlen, now, state, rfl, -⟩ |
      ⟨writes, sent, wbuf, now, len, wlen, rfl⟩
    all_goals exact hsame _ rfl (.of_same rfl rfl rfl)
  · exact readValueStored_effect h hsized howns heq
  · cases heq
    exact hsame _ rfl (.of_same rfl rfl rfl)
  · cases heq
    exact hsame _ rfl (.of_same rfl rfl rfl)

end World

end MiniMemcached
