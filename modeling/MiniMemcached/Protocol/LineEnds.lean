import MiniMemcached.Protocol.Reading
import MiniMemcached.Protocol.Refusals

/-! Values and their line ends. `read_value_stored` takes the bytes of a block as they come
and looks at none of them, so that the value of a key ends in CR LF just when every block
that was bound to a key did. A prepended block goes to the front, and the end of the old
value stays. -/

namespace MiniMemcached

open Memory Runs

/-- The last two bytes of the value are CR LF. -/
def Items.EndsLine (m : Items) (p : Ptr) : Prop := crlf <:+ m.value p

/-- Every value that a lookup can find ends in CR LF. -/
def Cache.LinesEnd (s : Cache) : Prop := ∀ k p, p ∈ s.found k → s.items.EndsLine p

/-- `do_store_item` is going to link an item whose value ends as the block of `it` does. -/
def Cache.BindsBlock (s : Cache) (it : Ptr) (cmd : Nread) : Prop :=
  s.stores it cmd ∧ cmd ≠ .prepend ∧
    (cmd = .append ∨ s.items.itemFlag it &&& (Slab.ITEM_LINKED ||| Slab.ITEM_SLABBED) = 0)

theorem crlf_suffix_append {a b : List UInt8} (hb : 2 ≤ b.length) : crlf <:+ a ++ b ↔ crlf <:+ b :=
  ⟨fun h => List.suffix_of_suffix_length_le h (List.suffix_append a b) hb,
    fun h => h.trans (List.suffix_append a b)⟩

variable {s s' : Cache} {g g' : Shape} {it : Ptr} {cmd : Nread} {acts : List Act} {stat : StoreStat}

/-- On a path the values of linked items stay, so that only the newly linked ones count. -/
theorem Cache.LinesEnd.steps (hl : s.LinesEnd) (h : Sound s g) (hsteps : Steps s g acts s' g')
    (hnew : ∀ k p, p ∈ s'.found k → .link p ∈ acts → s'.items.EndsLine p) : s'.LinesEnd := by
  intro k p hp
  have hs' := hsteps.sound h
  have hev := hsteps.evolves h (K := ∅) (by simp) (by simp)
  have htable := ((hs'.mem_found_iff k p).mp hp).1
  by_cases hlink : .link p ∈ acts
  · exact hnew k p hp hlink
  · have hold : p ∈ s.everLinked :=
      (hsteps.link_of_everLinked (hs'.linked p htable).1).resolve_right hlink
    have hmem : p ∈ g.table := (hev.table p htable).resolve_right (not_not.mpr hold)
    have hvalue : s'.items.value p = s.items.value p := (hsteps.kept_linked h hold).value
    unfold Items.EndsLine
    rw [hvalue]
    exact hl _ p ((h.mem_found_iff _ p).mpr ⟨hmem, rfl⟩)

theorem Cache.linesEnd_init {limit : ℕ} {set : Settings} {mallocOk : ℕ → Bool} {hashpower : ℕ}
    (hinit : Cache.init limit set mallocOk hashpower = some s) : s.LinesEnd := by
  obtain ⟨F, hs, -⟩ := Sound.init hinit
  exact fun k p hp => absurd ((hs.mem_found_iff k p).mp hp).1 (Shape.notMem_table_fresh F p)

theorem RemoveActs.noLink {k : List UInt8} {b : Bool} (h : RemoveActs s g k acts b) (p : Ptr) :
    .link p ∉ acts := by
  cases h with
  | miss acts hget => simp [(hget.noLink p).1]
  | hit => simp

/-- The end of the value of an item that `store_item` links: that of the block, or the end
of the old value behind a prepended block. -/
theorem storeItem_linked (h : Sound s g) (hsized : Sized s g) (hit : it ∈ g.inFlight)
    {c : Option UInt64} (heq : s.storeItem it cmd = .ok (s', stat, c))
    (hsteps : Steps s g (.quiet :: acts ++ [.quiet]) s' g') (hacts : StoreActs s g it cmd acts stat)
    {p : Ptr} (hp : p ∈ s'.found (s.items.key it)) (hl : .link p ∈ acts) :
    (cmd ≠ .prepend ∧ ∃ front, s'.items.value p = front ++ s.items.value it) ∨
      cmd = .prepend ∧ ∃ old ∈ g.table, ∃ front, s'.items.value p = front ++ s.items.value old := by
  by_cases hjoin : cmd = .append ∨ cmd = .prepend
  · have hstat : stat = .STORED := hacts.stored_of_link hl
    subst hstat
    obtain ⟨old, hold, -, hspliced, -⟩ := storeItem_joined h hsized hit hjoin heq hp
    rcases hjoin with rfl | rfl
    · exact .inl ⟨by simp, _, hspliced.value⟩
    · exact .inr ⟨rfl, old, hold, _, hspliced.value⟩
  · obtain ⟨happend, hprepend⟩ := not_or.mp hjoin
    obtain rfl := hacts.eq_of_link (.inl ⟨happend, hprepend⟩) hl
    obtain ⟨hnf, hnd⟩ := hacts.link_self hit hl
    have hkept := hsteps.kept h (.inr hit) (by simp [hnf]) (by simp [hnd])
    exact .inl ⟨hprepend, [], hkept.value⟩

/-- The values still end in CR LF after a block that does, or that is not bound. -/
theorem Cache.LinesEnd.commandBlock (hl : s.LinesEnd) (h : Sound s g) (hsized : Sized s g)
    (hit : it ∈ g.inFlight) {block : List UInt8} (hlen : block.length = (s.items.nbytes it).toNat)
    (hends : s.BindsBlock it cmd → crlf <:+ block) {c : Option UInt64}
    (heq : s.commandBlock it cmd block = .ok (s', stat, c)) : s'.LinesEnd := by
  have hwrite := Steps.writeValue (s := s) hit block
  have hs := hwrite.sound h
  have hsized' := hsized.writeValue h hit block
  have hlines : (s.writeValue it block).LinesEnd := hl.steps h hwrite (by simp)
  have hblock : (s.writeValue it block).items.value it = block := value_writeValue s it hlen
  have hge : 2 ≤ block.length := by
    have := (hsized.fits it (.inr hit)).nbytes_ge
    omega
  rcases Steps.storeItem hs hit cmd with ⟨-, -, herr⟩ |
    ⟨s₁, g₁, acts, stat₁, c₁, heq₁, hsteps, hacts, hlinked, -⟩
  · cases herr.symm.trans heq
  · cases heq₁.symm.trans heq
    refine hlines.steps hs hsteps fun k p hp hlink => ?_
    have hlink : .link p ∈ acts := by simpa using hlink
    have htable := (((hsteps.sound hs).mem_found_iff k p).mp hp).1
    have hfound : p ∈ s'.found ((s.writeValue it block).items.key it) :=
      ((hsteps.sound hs).mem_found_iff _ p).mpr ⟨htable, hlinked p hlink⟩
    unfold Items.EndsLine
    rcases storeItem_linked hs hsized' hit heq₁ hsteps hacts hfound hlink with
      ⟨hprepend, front, hvalue⟩ | ⟨-, old, hold, front, hvalue⟩
    · rw [hvalue, hblock, crlf_suffix_append hge]
      refine hends ⟨(hacts.writeValue.stored_iff h).mp (hacts.stored_of_link hlink), hprepend, ?_⟩
      by_contra hno
      obtain ⟨happend, hflags⟩ := not_or.mp hno
      exact hacts.writeValue.noLink hflags ⟨happend, hprepend⟩ p hlink
    · rw [hvalue]
      refine List.IsSuffix.trans ?_ (List.suffix_append _ _)
      exact hlines _ old ((hs.mem_found_iff _ old).mpr ⟨hold, rfl⟩)

/-- A bound block that does not end in CR LF leaves its key with such a value. -/
theorem Cache.not_linesEnd_commandBlock (h : Sound s g) (hsized : Sized s g) (hit : it ∈ g.inFlight)
    {block : List UInt8} (hlen : block.length = (s.items.nbytes it).toNat)
    (hbinds : s.BindsBlock it cmd) (hno : ¬crlf <:+ block) {c : Option UInt64}
    (heq : s.commandBlock it cmd block = .ok (s', stat, c)) : ¬s'.LinesEnd := by
  have hwrite := Steps.writeValue (s := s) hit block
  have hs := hwrite.sound h
  have hsized' := hsized.writeValue h hit block
  have hblock : (s.writeValue it block).items.value it = block := value_writeValue s it hlen
  have hge : 2 ≤ block.length := by
    have := (hsized.fits it (.inr hit)).nbytes_ge
    omega
  obtain ⟨hstores, hprepend, hflags⟩ := hbinds
  rcases Steps.storeItem hs hit cmd with ⟨-, -, herr⟩ |
    ⟨s₁, g₁, acts, stat₁, c₁, heq₁, hsteps, hacts, hlinked, -⟩
  · cases herr.symm.trans heq
  · cases heq₁.symm.trans heq
    intro hlines
    have hstat := (hacts.writeValue.stored_iff h).mpr hstores
    obtain ⟨p, as, bs, rfl, hbs, -⟩ := hacts.exists_link hstat (hflags.symm.imp_right .inl)
    have hlink : .link p ∈ as ++ .link p :: bs := by simp
    have htable : p ∈ g₁.table := by
      have hpath : Steps (s.writeValue it block) g ((.quiet :: as) ++ .link p :: (bs ++ [.quiet])) s' g₁ := by
        simpa using hsteps
      exact hpath.mem_table_of_link (by simp [hbs])
    have hfound : p ∈ s'.found ((s.writeValue it block).items.key it) :=
      ((hsteps.sound hs).mem_found_iff _ p).mpr ⟨htable, hlinked p hlink⟩
    have hend := hlines _ p hfound
    unfold Items.EndsLine at hend
    rcases storeItem_linked hs hsized' hit heq₁ hsteps hacts hfound hlink with
      ⟨-, front, hvalue⟩ | ⟨hcmd, -⟩
    · rw [hvalue, hblock, crlf_suffix_append hge] at hend
      exact hno hend
    · exact hprepend hcmd

/-! ### The turn of a connection -/

namespace World

variable {w w' : World} {tokens : List (List UInt8)}

/-- What a line does to the cache links no item. -/
theorem commandFiveSixPara_steps {cas : Bool} (h : Sound w.cache g)
    (heq : w.commandFiveSixPara tokens cas = .ok w') :
    ∃ g' acts, Steps w.cache g acts w'.cache g' ∧ ∀ p, .link p ∉ acts := by
  cases hparse : parseStoreLine tokens cas with
  | none =>
    rw [commandFiveSixPara_bad hparse] at heq
    obtain ⟨-, rfl⟩ := outString_eq_ok.mp heq
    exact ⟨g, [], .nil _, by simp⟩
  | some L =>
    rcases Steps.allocLine h L with ⟨-, b, t, halloc, hb, hl, hf⟩ | ⟨-, s, g', it, halloc, -, -, -, hsteps⟩
    · have hrefuse : Steps w.cache g [.refuse] _ g := .single (.refuse hb hl hf)
      rw [commandFiveSixPara_refused hparse halloc] at heq
      obtain ⟨item, -, hcache⟩ := refuseLine_form heq
      split at hcache
      · obtain ⟨b', hrem⟩ := hcache
        obtain ⟨s', g', acts, b'', hrem', hsteps, hacts, -⟩ := Steps.removeKey (h.refused hb hl) L.key
        cases hrem'.symm.trans hrem
        exact ⟨g', _, hrefuse.append hsteps, fun p hp => by simp [hacts.noLink p] at hp⟩
      · rw [hcache]
        exact ⟨g, _, hrefuse, by simp⟩
    · rw [commandFiveSixPara_accepted hparse halloc] at heq
      cases heq
      exact ⟨g', _, hsteps, by simp⟩

theorem dispatch_steps (h : Sound w.cache g) (heq : w.dispatch tokens = .ok w') :
    ∃ g' acts, Steps w.cache g acts w'.cache g' ∧ ∀ p, .link p ∉ acts := by
  have hsame : ∀ w₁ : World, w₁.cache = w.cache →
      ∃ g' acts, Steps w.cache g acts w₁.cache g' ∧ ∀ p, .link p ∉ acts := by
    intro w₁ hcache
    rw [hcache]
    exact ⟨g, [], .nil _, by simp⟩
  unfold dispatch at heq
  split at heq
  · unfold commandOnePara at heq
    split at heq
    · cases heq
      exact hsame _ rfl
    · split at heq
      all_goals
        obtain ⟨-, rfl⟩ := answer_eq_ok.mp heq
        exact hsame _ rfl
  · unfold commandTwoPara at heq
    split at heq
    · obtain ⟨hcache | ⟨o, hget⟩, -⟩ := getCommand_form heq
      · exact hsame _ hcache
      · obtain ⟨s', g', acts, r, hget', hsteps, hacts, -⟩ := Steps.itemGet h (tokens.getD 1 [])
        cases hget'.symm.trans hget
        exact ⟨g', _, hsteps, fun p hp => by simp [(hacts.noLink p).1] at hp⟩
    · split at heq
      · obtain ⟨s, g', acts, b, hrem, hsteps, hacts, -⟩ := Steps.removeKey h (tokens.getD 1 [])
        obtain ⟨b', text, hrem', -⟩ := deleteCommand_form heq
        cases hrem.symm.trans hrem'
        exact ⟨g', acts, hsteps, hacts.noLink⟩
      · obtain ⟨-, rfl⟩ := answer_eq_ok.mp heq
        exact hsame _ rfl
  · cases heq
    exact hsame _ rfl
  · obtain ⟨w₁, heq₁, heq⟩ := Result.bind_eq_ok.mp heq
    cases heq
    obtain ⟨g', acts, hsteps, hno⟩ := commandFiveSixPara_steps h heq₁
    exact ⟨g', acts, hsteps, hno⟩
  · exact commandFiveSixPara_steps h heq
  · cases heq
    exact hsame _ rfl

theorem Taken.conn {n : ℕ} {r : ReadResult} (h : Taken w n w' r) : w'.conn = w.conn := by
  cases h <;> rfl

/-- The bytes that the socket has for the rest of the block. -/
def arriving (w : World) : List UInt8 :=
  if w.conn.flagShake then []
  else (w.read (toSizeT (w.conn.rnbufLen - w.conn.rnbufRlen))).2.bytes

/-- What the socket has completes the block of the item. -/
structure Completes (w : World) (it : Ptr) (block : List UInt8) : Prop where
  state : w.conn.state = .connNread
  cmd : w.conn.cmd ≠ .error
  item : w.conn.item = some it
  len : w.conn.rnbufLen = w.conn.rnbufRlen + w.arriving.length
  buf : ∃ b, w.conn.rnbuf = .live b ∧ block = slice (put b 0 w.arriving) 0 (toSizeT w.conn.rnbufLen)

/-- A block that is complete and is going to be bound to a key ends in CR LF. -/
def Ended (w : World) : Prop :=
  ∀ it block, w.Completes it block → w.cache.BindsBlock it w.conn.cmd → crlf <:+ block

/-- What the first half of `read_value_stored` does to the buffer. -/
theorem readBlock_arriving {b : Bool} (heq : w.readBlock = .ok (w', b)) :
    (b = false ∧ w.conn.rnbufLen ≠ w.conn.rnbufRlen + w.arriving.length) ∨
    (b = true ∧ w' = w ∧ w.conn.rnbuf = .null ∧ w.conn.rnbufLen ≠ w.conn.rnbufRlen) ∨
    b = true ∧ w'.conn.rnbufRlen = w.conn.rnbufRlen + w.arriving.length ∧ w'.conn.cmd = w.conn.cmd ∧
      w'.conn.item = w.conn.item ∧
      ∀ bs, w'.conn.rnbuf = .live bs ↔ ∃ old, w.conn.rnbuf = .live old ∧ bs = put old 0 w.arriving := by
  have hkeep : ∀ w₁ : World, w.arriving = [] → w₁.conn = w.conn →
      w₁.conn.rnbufRlen = w.conn.rnbufRlen + w.arriving.length ∧ w₁.conn.cmd = w.conn.cmd ∧
        w₁.conn.item = w.conn.item ∧
        ∀ bs, w₁.conn.rnbuf = .live bs ↔ ∃ old, w.conn.rnbuf = .live old ∧ bs = put old 0 w.arriving := by
    intro w₁ harr hconn
    rw [harr, hconn]
    exact ⟨by simp, rfl, rfl, fun bs => by simp [put]⟩
  unfold readBlock at heq
  split at heq
  · rename_i hshake
    cases heq
    exact .inr (.inr ⟨rfl, hkeep _ (by simp [arriving, hshake]) rfl⟩)
  · rename_i hshake
    have harr : w.arriving = (w.read (toSizeT (w.conn.rnbufLen - w.conn.rnbufRlen))).2.bytes :=
      if_neg hshake
    split at heq
    all_goals rename_i hread
    all_goals rw [hread] at harr
    all_goals have htaken := read_spec hread
    all_goals have hconn := htaken.conn
    · cases heq
      have hne : w.conn.rnbufLen ≠ w.conn.rnbufRlen := by
        cases htaken with
        | dry hn | took hn => exact ne_of_room hn
      exact .inl ⟨rfl, by simpa [harr, ReadResult.bytes] using hne⟩
    · cases heq
      exact .inr (.inr ⟨rfl, hkeep _ harr hconn⟩)
    · split at heq
      · rename_i hne
        rw [hconn] at hne
        cases heq
        exact .inl ⟨rfl, by simpa [harr, ReadResult.bytes, eq_comm] using hne⟩
      · cases heq
        exact .inr (.inr ⟨rfl, hkeep _ harr hconn⟩)
    · rename_i hbs
      split at heq
      · rename_i hnull
        cases heq
        have hne : w.conn.rnbufLen ≠ w.conn.rnbufRlen := by
          cases htaken with
          | noRoom => exact absurd rfl hbs
          | took hn => exact ne_of_room hn
        exact .inr (.inl ⟨rfl, rfl, hnull, hne⟩)
      · obtain ⟨rnbuf, hlive, heq⟩ := Result.bind_eq_ok.mp heq
        obtain ⟨rnbuf', hwrite, heq⟩ := Result.bind_eq_ok.mp heq
        obtain ⟨-, rfl⟩ := write_eq_ok.mp hwrite
        have hlive := Block.deref_eq_ok.mp hlive
        rw [hconn] at hlive
        cases heq
        rw [harr, hconn]
        exact .inr (.inr ⟨rfl, rfl, rfl, rfl, fun bs => by simp [hlive, ReadResult.bytes, eq_comm]⟩)

/-- A turn in `conn_nread` changes the cache by the block that it completes. -/
theorem readValueStored_cache (hstate : w.conn.state = .connNread) (heq : w.readValueStored = .ok w') :
    (∃ it block s stat cas, w.Completes it block ∧ block.length = toSizeT w.conn.rnbufLen ∧
      w.conn.own = some it ∧ w.cache.commandBlock it w.conn.cmd block = .ok (s, stat, cas) ∧ w'.cache = s) ∨
    w'.cache = w.cache ∧ ∀ it block, ¬w.Completes it block := by
  rw [readValueStored_eq] at heq
  obtain ⟨⟨w₁, b⟩, hread, heq⟩ := Result.bind_eq_ok.mp heq
  obtain ⟨hcache, hown, hlen⟩ := readBlock_keeps hread
  rcases readBlock_arriving hread with ⟨rfl, hne⟩ | ⟨rfl, hsame, hnull, hne⟩ | ⟨rfl, hrlen, hcmd, hitem, hbuf⟩
  · cases heq
    exact .inr ⟨hcache, fun it block hc => hne hc.len⟩
  · rw [if_pos rfl, hsame, show w.finishValue = .ok w from if_pos hne] at heq
    cases heq
    refine .inr ⟨rfl, fun it block hc => ?_⟩
    obtain ⟨b, hlive, -⟩ := hc.buf
    cases hnull.symm.trans hlive
  · cases finishValue_spec heq with
    | incomplete hne => exact .inr ⟨hcache, fun it block hc => hne (by rw [hlen, hrlen, hc.len])⟩
    | unknown _ herr => exact .inr ⟨hcache, fun it block hc => hc.cmd (by rw [← hcmd, herr])⟩
    | stored hfull hknown it hmine rnbuf hlive hvalue s stat cas hstore =>
      obtain ⟨old, hold, rfl⟩ := (hbuf rnbuf).mp hlive
      rw [hcache, hcmd, hlen] at hstore
      refine .inl ⟨it, _, s, stat, cas, ⟨hstate, ?_, ?_, ?_, old, hold, rfl⟩, ?_, ?_, hstore, rfl⟩
      · rwa [← hcmd]
      · rwa [← hitem]
      · rw [← hlen, hfull, hrlen]
      · rw [← hlen]
        exact length_slice ((Nat.zero_add _).trans_le hvalue)
      · unfold Conn.own
        rw [hold, ← hitem]
        exact hmine

theorem Completes.unique {it it' : Ptr} {block block' : List UInt8} (h : w.Completes it block)
    (h' : w.Completes it' block') : it = it' ∧ block = block' := by
  obtain ⟨b, hb, rfl⟩ := h.buf
  obtain ⟨b', hb', rfl⟩ := h'.buf
  cases hb.symm.trans hb'
  exact ⟨Option.some.inj (h.item.symm.trans h'.item), rfl⟩

/-- The other turns link nothing. -/
theorem turn_steps (h : Sound w.cache g) (hstate : w.conn.state ≠ .connNread) (heq : w.turn = .ok w') :
    ∃ g' acts, Steps w.cache g acts w'.cache g' ∧ ∀ p, .link p ∉ acts := by
  have hsame : ∀ w₁ : World, w₁.cache = w.cache →
      ∃ g' acts, Steps w.cache g acts w₁.cache g' ∧ ∀ p, .link p ∉ acts := by
    intro w₁ hcache
    rw [hcache]
    exact ⟨g, [], .nil _, by simp⟩
  unfold turn at heq
  split at heq
  · cases heq
    exact hsame _ rfl
  · obtain ⟨⟨w₁, ret⟩, hread, heq⟩ := Result.bind_eq_ok.mp heq
    cases heq
    rw [(settle_same w₁ ret).1]
    rcases tryReadCommand_dispatch hread with rfl | ⟨endflag, next, w₂, -, -, hproc, hrest⟩
    · exact hsame _ rfl
    · obtain ⟨g', acts, hsteps, hno⟩ := dispatch_steps (w := w.logged endflag next) h hproc
      refine ⟨g', acts, ?_, hno⟩
      rcases hrest with rfl | hshaken
      · exact hsteps
      · rw [hshaken.keepsOwn.1]
        exact hsteps
  · rcases readTurn_spec heq with ⟨w₁, hf, hw'⟩ | ⟨w₁, text, hf, rfl⟩
    all_goals obtain ⟨heap, reads, rbuf, now, rlen, rfl⟩ := hf.world
    · rcases hw' with rfl | rfl | ⟨rfl, -⟩
      all_goals exact hsame _ rfl
    · exact hsame _ rfl
  · rcases writeTurn_spec heq with ⟨writes, sent, wlen, now, state, rfl, -⟩ |
      ⟨writes, sent, wbuf, now, len, wlen, rfl⟩
    all_goals exact hsame _ rfl
  · rename_i hnread
    exact absurd hnread hstate
  · cases heq
    exact hsame _ rfl
  · cases heq
    exact hsame _ rfl

/-- The block of an item that a connection owns has the length of the item. -/
theorem Owns.toSizeT_eq (howns : w.Owns g) (hsized : Sized w.cache g) (hown : w.conn.own = some it) :
    it ∈ g.inFlight ∧ toSizeT w.conn.rnbufLen = (w.cache.items.nbytes it).toNat := by
  obtain ⟨hit, hlen⟩ := howns it hown
  have hfits := hsized.fits it (.inr hit)
  have hge := hfits.nbytes_ge
  obtain ⟨id, -, hroom⟩ := hfits.room
  have hsmall := hsized.small id
  unfold sizeofBaseItem at hroom
  rw [hlen, toSizeT_of_bounds (by omega) (by omega)]
  exact ⟨hit, rfl⟩

/-- A turn keeps the line ends of the values where the block that it binds is ended. -/
theorem turn_linesEnd (h : Sound w.cache g) (hsized : Sized w.cache g) (howns : w.Owns g)
    (hl : w.cache.LinesEnd) (hended : w.Ended) (heq : w.turn = .ok w') : w'.cache.LinesEnd := by
  by_cases hstate : w.conn.state = .connNread
  · have hvalue : w.readValueStored = .ok w' := by simpa only [turn, hstate] using heq
    rcases readValueStored_cache hstate hvalue with
      ⟨it, block, s, stat, cas, hcomp, hlen, hown, hstore, rfl⟩ | ⟨hcache, -⟩
    · obtain ⟨hit, hn⟩ := howns.toSizeT_eq hsized hown
      exact hl.commandBlock h hsized hit (hlen.trans hn) (hended it block hcomp) hstore
    · rw [hcache]
      exact hl
  · obtain ⟨g', acts, hsteps, hno⟩ := turn_steps h hstate heq
    exact hl.steps h hsteps fun k p _ hlink => absurd hlink (hno p)

/-- A turn that binds a block which does not end in CR LF. -/
theorem not_linesEnd_turn (h : Sound w.cache g) (hsized : Sized w.cache g) (howns : w.Owns g)
    (hended : ¬w.Ended) (heq : w.turn = .ok w') : ¬w'.cache.LinesEnd := by
  simp only [Ended, not_forall] at hended
  obtain ⟨it, block, hcomp, hbinds, hno⟩ := hended
  have hvalue : w.readValueStored = .ok w' := by simpa only [turn, hcomp.state] using heq
  rcases readValueStored_cache hcomp.state hvalue with
    ⟨it', block', s, stat, cas, hcomp', hlen, hown, hstore, rfl⟩ | ⟨-, hnone⟩
  · obtain ⟨rfl, rfl⟩ := hcomp.unique hcomp'
    obtain ⟨hit, hn⟩ := howns.toSizeT_eq hsized hown
    exact Cache.not_linesEnd_commandBlock h hsized hit (hlen.trans hn) hbinds hno hstore
  · exact absurd hcomp (hnone it block)

end World

/-! ### The server -/

namespace Server

variable {V V' : Server} {a : Stir}

/-- Whatever block a turn completes and binds to a key ends in CR LF. -/
def Ended (V : Server) : Stir → Prop
  | .turn i => (V.conn i).running = true → (V.serving i).world.Ended
  | _ => True

theorem linesEnd_step (h : Inv V g) (hl : V.cache.LinesEnd) (hended : V.Ended a) (hstep : V.step a = .ok V') :
    V'.cache.LinesEnd := by
  cases a with
  | event i watcher reads writes =>
    obtain ⟨s, hs, hstep⟩ := Result.bind_eq_ok.mp hstep
    cases hstep
    simp only [Serving.step] at hs
    split at hs
    all_goals
      cases hs
      exact hl
  | turn i =>
    obtain ⟨s, hs, hstep⟩ := Result.bind_eq_ok.mp hstep
    cases hstep
    simp only [Serving.step] at hs
    split at hs
    · rename_i hrun
      obtain ⟨w, hw, hs⟩ := Result.bind_eq_ok.mp hs
      cases hs
      have hlines : w.cache.LinesEnd := World.turn_linesEnd h.sound h.sized (h.owns i) hl (hended hrun) hw
      unfold Serving.after
      split
      · exact hlines
      · exact hlines
    · cases hs
      exact hl
  | clock now =>
    cases hstep
    exact hl

theorem not_linesEnd_step (h : Inv V g) (hended : ¬V.Ended a) (hstep : V.step a = .ok V') :
    ¬V'.cache.LinesEnd := by
  cases a with
  | event | clock => exact absurd trivial hended
  | turn i =>
    simp only [Ended, Classical.not_imp] at hended
    obtain ⟨hrun, hended⟩ := hended
    obtain ⟨s, hs, hstep⟩ := Result.bind_eq_ok.mp hstep
    cases hstep
    have hrun : (V.serving i).running = true := hrun
    simp only [Serving.step, hrun, if_true] at hs
    obtain ⟨w, hw, hs⟩ := Result.bind_eq_ok.mp hs
    cases hs
    have hlines : ¬w.cache.LinesEnd := World.not_linesEnd_turn h.sound h.sized (h.owns i) hended hw
    unfold Serving.after
    split
    · exact hlines
    · exact hlines

/-- In a run in which no failed `set` takes away the item of a connection that holds a
buffer, the values of all keys end in CR LF at all times just when each block that was
bound to a key did. -/
theorem linesEnd_throughout {limit : ℕ} {set : Settings} {mallocOk : ℕ → Bool} {hashpower : ℕ} {s₀ : Cache}
    (hinit : Cache.init limit set mallocOk hashpower = some s₀) (w : ℕ → World)
    (hnew : ∀ i, ∃ flagPrecmd flagShake noreply rbuf wbuf cas,
      (w i).conn = Conn.new flagPrecmd flagShake noreply rbuf wbuf cas) (as : List Stir)
    (hcalm : EachStep step Calm (start s₀ w) as) (hrun : run step (start s₀ w) as = .ok V) :
    Throughout step (fun V => V.cache.LinesEnd) (start s₀ w) as ↔ EachStep step Ended (start s₀ w) as := by
  refine throughout_iff_eachStep (I := fun V _ => (∃ g, Inv V g) ∧ V.cache.LinesEnd)
    (L := fun V a => Calm V a ∧ ∃ V', step V a = .ok V') ?_ (fun V _ h => h.2) ?_
    ⟨start_inv hinit w hnew, Cache.linesEnd_init hinit⟩ (hcalm.and (eachStep_ok hrun))
  · rintro V a as V' ⟨⟨g, h⟩, hl⟩ ⟨hc, -⟩ hended hstep
    exact ⟨inv_step ⟨g, h⟩ hc hstep, linesEnd_step h hl hended hstep⟩
  · rintro V a as ⟨⟨g, h⟩, -⟩ ⟨-, V', hstep⟩ hended
    exact ⟨V', hstep, not_linesEnd_step h hended hstep⟩

instance (o : Block) (P : List UInt8 → Prop) [DecidablePred P] : Decidable (∀ b, o = .live b → P b) :=
  match o with
  | .live b => decidable_of_iff (P b) (by simp)
  | .null | .dangling => isTrue nofun

/-- What the buffer for a block holds after this turn ends in CR LF. -/
def EndsBuffer (V : Server) : Stir → Prop
  | .turn i => (V.serving i).world.conn.state = .connNread → ∀ b, (V.serving i).world.conn.rnbuf = .live b →
      crlf <:+ slice (put b 0 (V.serving i).world.arriving) 0 (toSizeT (V.serving i).world.conn.rnbufLen)
  | _ => True

instance (V : Server) : ∀ a, Decidable (V.EndsBuffer a)
  | .turn i => by
    unfold EndsBuffer
    infer_instance
  | .event .. | .clock _ => isTrue trivial

theorem EndsBuffer.ended (h : V.EndsBuffer a) : V.Ended a := by
  cases a with
  | turn i =>
    intro _ it block hcomplete _
    obtain ⟨b, hlive, rfl⟩ := hcomplete.buf
    exact h hcomplete.state b hlive
  | event => trivial
  | clock => trivial

theorem linesEnd_setShort : ∃ s, Cache.init 1 Service.smallSettings (fun _ => true) 0 = some s ∧
    Throughout step (fun V => V.cache.LinesEnd) (start s fun _ => Serving.fresh s) setShort := by
  have htrial : (Cache.init 1 Service.smallSettings (fun _ => true) 0).any (fun s =>
      decide (EachStep step Bufferless (start s fun _ => Serving.fresh s) setShort) &&
        decide (EachStep step EndsBuffer (start s fun _ => Serving.fresh s) setShort) &&
        (run step (start s fun _ => Serving.fresh s) setShort).toOption.isSome) = true := by decide +kernel
  obtain ⟨s, hinit, hp⟩ := Service.exists_init htrial
  simp only [Bool.and_eq_true, decide_eq_true_eq] at hp
  obtain ⟨⟨hquiet, hends⟩, hsome⟩ := hp
  obtain ⟨V, hV⟩ := Option.isSome_iff_exists.mp hsome
  exact ⟨s, hinit, (linesEnd_throughout hinit (fun _ => Serving.fresh s)
    (fun _ => ⟨false, false, false, _, _, 0, rfl⟩) setShort (hquiet.mono fun _ _ => Bufferless.calm)
    (Result.eq_ok_of_toOption hV)).mpr (hends.mono fun _ _ => EndsBuffer.ended)⟩

/-- The three bytes of the block are taken as they come. -/
def setUnended : List Stir := reading 0 (bytes "set a 0 0 1" ++ crlf) 2 ++ reading 0 (bytes "xyz") 3

theorem not_linesEnd_setUnended : ∃ s, Cache.init 1 Service.smallSettings (fun _ => true) 0 = some s ∧
    ¬Throughout step (fun V => V.cache.LinesEnd) (start s fun _ => Serving.fresh s) setUnended := by
  have htrial : (Cache.init 1 Service.smallSettings (fun _ => true) 0).any (fun s =>
      (run step (start s fun _ => Serving.fresh s) setUnended).toOption.any fun V =>
        (V.cache.found (bytes "a")).any fun p =>
          decide (V.cache.items.value p = bytes "xyz")) = true := by decide +kernel
  obtain ⟨s, hinit, hp⟩ := Service.exists_init htrial
  obtain ⟨V, hV, hp⟩ := (Option.any_eq_true _ _).mp hp
  obtain ⟨p, hfound, hvalue⟩ := (Option.any_eq_true _ _).mp hp
  refine ⟨s, hinit, fun h => ?_⟩
  have hend := h.last (Result.eq_ok_of_toOption hV) (bytes "a") p hfound
  unfold Items.EndsLine at hend
  rw [of_decide_eq_true hvalue] at hend
  exact absurd hend (by decide)

end Server

end MiniMemcached
