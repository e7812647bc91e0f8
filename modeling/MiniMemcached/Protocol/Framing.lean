import MiniMemcached.Lists.Pieces
import MiniMemcached.Protocol.Confusion
import MiniMemcached.Protocol.Cutting

/-! Lines and segments. Beside a connection stands one whose socket brings the same bytes in
whole lines, each in a read of its own. As long as every line that the first one parses is
alone in its buffer, the two go the same way. -/

namespace MiniMemcached

open Memory MiniMemcached.Lists Runs

/-- The same bytes, where each line comes in a read of its own, once its last byte is there;
`held` are the bytes of a line that have come before. -/
def lineByLine : List UInt8 → List Happening → List Happening
  | _, [] => []
  | held, .event watcher reads writes :: as =>
    .event watcher ((pieces 10 (held ++ reads.flatMap ReadResult.bytes)).1.map .data) writes ::
      lineByLine (pieces 10 (held ++ reads.flatMap ReadResult.bytes)).2 as
  | held, .turn :: as => .turn :: lineByLine held as
  | held, .others cache :: as => .others cache :: lineByLine held as

namespace World

/-- A line is looked for, and there is no line feed. -/
def NoNewline (w : World) : Prop :=
  w.conn.state = .connParseCmd ∧ w.conn.rbufRlen ≠ 0 ∧
    memchr w.conn.rbuf 0 (toSizeT w.conn.rbufRlen) 10 = .missing

/-- The line that is parsed is alone in the buffer, and the buffer gets the memory it needs. -/
def LineAlone (w : World) : Prop :=
  (w.conn.state = .connParseCmd → w.conn.rbufRlen ≠ 0 → ∃ e, w.Whole e) ∧
    (w.conn.state = .connRead → w.Roomy 0)

end World

/-- A connection that awaits no block. -/
structure Conn.Bare (c : Conn) : Prop where
  stop : c.flagStop = false
  state : c.state ≠ .connNread
  rnbuf : c.rnbuf = .dangling
  held : c.Held
  pos : 0 < c.rbuf.length
  front : c.rbufNow = 0 → c.rbufRlen ≤ capacity c.rbuf

namespace World

variable {w w' : World}

theorem Short.not_accepts {tokens : List (List UInt8)} (h : Short tokens) (s : Cache) :
    ¬Accepts s tokens := by
  rintro ⟨hlen | hlen, -⟩
  · exact h.1 hlen
  · exact h.2 hlen

/-- A line that is no storage line leaves the connection without a block. -/
theorem Handled.bare {tokens : List (List UInt8)} (h : Handled w tokens w') (hshort : Short tokens)
    (hstate : w.conn.state = .connParseCmd) : w'.conn.state ≠ .connNread ∧ w'.conn.rnbuf = w.conn.rnbuf := by
  refine ⟨(h.nread_iff hstate).not.mpr (hshort.not_accepts _), ?_⟩
  cases h
  case accepted hlen _ _ =>
    rcases hlen with hlen | hlen
    · exact absurd hlen hshort.1
    · exact absurd hlen hshort.2
  all_goals rfl

theorem Whole.le {e : ℕ} (h : w.Whole e) : w.conn.rbufRlen ≤ capacity w.conn.rbuf := by
  obtain ⟨-, -, hbyte⟩ := memchr_found h.scan
  obtain ⟨hlt, -⟩ := List.getElem?_eq_some_iff.mp hbyte
  have := h.last
  unfold capacity
  omega

/-- The connection that is left when the machine goes on or returns. -/
theorem after_bare {c : Conn} (hstate : w.conn.state ≠ .connNread) (hrnbuf : w.conn.rnbuf = c.rnbuf)
    (hc : c.rnbuf = .dangling) (hheld : w.conn.Held) (hpos : 0 < w.conn.rbuf.length)
    (hfront : w.conn.rbufNow = 0 → w.conn.rbufRlen ≤ capacity w.conn.rbuf) :
    (Serving.after w).world.conn.Bare := by
  unfold Serving.after
  split
  · exact ⟨rfl, hstate, hrnbuf.trans hc, hheld.congr rfl rfl rfl, hpos, hfront⟩
  · rename_i hstop
    exact ⟨by simpa using hstop, hstate, hrnbuf.trans hc, hheld, hpos, hfront⟩

@[simp] theorem settle_rnbuf (w : World) (ret : Bool) : (w.settle ret).conn.rnbuf = w.conn.rnbuf := by
  unfold settle
  dsimp only
  split_ifs <;> rfl

@[simp] theorem settle_rbufNow (w : World) (ret : Bool) : (w.settle ret).conn.rbufNow = w.conn.rbufNow := by
  unfold settle
  dsimp only
  split_ifs <;> rfl

@[simp] theorem settle_rbufRlen (w : World) (ret : Bool) :
    (w.settle ret).conn.rbufRlen = w.conn.rbufRlen := by
  unfold settle
  dsimp only
  split_ifs <;> rfl

theorem parseTurn_bare (h : w.conn.Bare) (hstate : w.conn.state = .connParseCmd) (halone : w.LineAlone)
    (hturn : w.parseTurn = .ok w') : (Serving.after w').world.conn.Bare := by
  have hheld := parseTurn_held h.held hturn
  obtain ⟨w₁, ret, hparsed, rfl⟩ := parseTurn_spec hturn
  have hwhole := halone.1 hstate
  cases hparsed with
  | nothing =>
    refine after_bare ?_ (settle_rnbuf _ _) h.rnbuf hheld ?_ ?_
    · rw [settle_nothing_state]
      simp
    · simpa using h.pos
    · simpa using h.front
  | alone e hrlen hscan hroom hnext w₁ hhandled =>
    obtain ⟨e', hw⟩ := hwhole hrlen
    cases hscan.symm.trans hw.scan
    obtain ⟨hnread, hrnbuf⟩ := hhandled.bare hw.short hstate
    have hlength : w₁.conn.rbuf.length = w.conn.rbuf.length :=
      hhandled.framed.length.trans (List.length_set ..)
    refine after_bare ?_ ((settle_rnbuf _ _).trans hrnbuf) h.rnbuf hheld ?_ ?_
    · rw [settle_state]
      exact hnread
    · rw [settle_rbuf]
      exact h.pos.trans_eq hlength.symm
    · rw [settle_rbufNow, settle_rbufRlen, settle_rbuf]
      intro hzero
      have hnow : w₁.conn.rbufNow = 0 := by
        by_contra hne
        rw [show (w₁.passLine (e + 1)).conn.rbufNow = e + 1 from if_pos hne] at hzero
        omega
      have hrlen₁ : w₁.conn.rbufRlen = 0 ∨ w₁.conn.rbufRlen = w.conn.rbufRlen := by
        rcases hhandled.lengths with ⟨-, hzero⟩ | ⟨-, -, hsame, -, -⟩
        · exact .inl hzero
        · exact .inr hsame
      have hlast := hw.last
      have hcap : 0 ≤ capacity (w₁.passLine (e + 1)).conn.rbuf := Int.natCast_nonneg _
      show (if w₁.conn.rbufRlen ≠ 0 then w₁.conn.rbufRlen - (((e + 1 : ℕ) : ℤ) - w₁.conn.rbufNow) else 0) ≤ _
      rw [hnow]
      split
      · rcases hrlen₁ with hz | hsame
        · omega
        · rw [hsame]
          push_cast
          omega
      · exact hcap
  | followed e hrlen hscan hroom next hnext hne w₁ w₂ hhandled hshaken =>
    obtain ⟨e', hw⟩ := hwhole hrlen
    cases hscan.symm.trans hw.scan
    obtain ⟨hnread, hrnbuf⟩ := hhandled.bare hw.short hstate
    have hlength : w₁.conn.rbuf.length = w.conn.rbuf.length :=
      hhandled.framed.length.trans (List.length_set ..)
    rcases hhandled.lengths with ⟨hclears, -⟩ | ⟨hkeeps, -, hsame, -, -⟩
    · exact absurd hshaken (hhandled.not_shaken h.held hroom hclears)
    · have hsame : w₁.conn.rbufRlen = w.conn.rbufRlen := hsame
      have hnone : w₁.conn.rbufRlen - (e + 1) = 0 := by
        rw [hsame, ← hw.last, sub_self]
      rw [hnone] at hshaken
      cases hshaken with
      | kept =>
        refine after_bare ?_ ((settle_rnbuf _ _).trans hrnbuf) h.rnbuf hheld ?_ ?_
        · rw [settle_state]
          exact hnread
        · rw [settle_rbuf]
          exact h.pos.trans_eq hlength.symm
        · rw [settle_rbufRlen, settle_rbuf, hsame]
          intro _
          unfold capacity
          rw [hlength]
          exact hw.le
      | block i hscan' => exact absurd hscan' memchr_nothing
      | line i hscan' => exact absurd hscan' memchr_nothing

/-- A turn that does not read leaves the connection without a block. -/
theorem turn_bare (h : w.conn.Bare) (hread : w.conn.state ≠ .connRead) (halone : w.LineAlone)
    (hturn : w.turn = .ok w') : (Serving.after w').world.conn.Bare := by
  have hheld := held_turn h.held hturn
  unfold turn at hturn
  split at hturn
  · rename_i hlisten
    cases hturn
    exact after_bare (by simp [setStop, hlisten]) rfl h.rnbuf hheld h.pos h.front
  · rename_i hparse
    exact parseTurn_bare h hparse halone hturn
  · rename_i hstate
    exact absurd hstate hread
  · rename_i hwrite
    rcases writeTurn_spec hturn with ⟨_, _, _, _, state, rfl, hstate, -⟩ | ⟨_, _, _, _, _, _, rfl⟩
    · refine after_bare ?_ rfl h.rnbuf hheld h.pos h.front
      rcases hstate with rfl | rfl
      · exact h.state
      · simp
    · exact after_bare (by simp) rfl h.rnbuf hheld h.pos h.front
  · rename_i hnread
    exact absurd hnread h.state
  · cases hturn
    exact after_bare (by simp [setStop, setState]) rfl h.rnbuf hheld h.pos h.front
  · rename_i hclosed
    cases hturn
    exact after_bare (by simp [setStop, connClose, hclosed]) rfl h.rnbuf hheld h.pos h.front

/-- The bytes held are moved to the front, or there are none. -/
theorem moveDown_bare (h : w.conn.Bare) (hmove : w.moveDown = .ok w') :
    ∃ rbuf, w' = { w with conn := { w.conn with rbuf := rbuf, rbufNow := 0 } } ∧
      rbuf.length = w.conn.rbuf.length ∧ w.conn.rbufRlen ≤ capacity rbuf := by
  have hnonneg := h.held.rlen
  unfold moveDown at hmove
  split at hmove
  · rename_i hnow
    cases hmove
    refine ⟨w.conn.rbuf, ?_, rfl, h.front hnow⟩
    rw [← hnow]
  · split at hmove
    · rename_i hrlen
      cases hmove
      refine ⟨w.conn.rbuf, rfl, rfl, ?_⟩
      rw [hrlen]
      exact Int.natCast_nonneg _
    · obtain ⟨held, hload, hmove⟩ := Result.bind_eq_ok.mp hmove
      obtain ⟨rbuf, hwrite, hmove⟩ := Result.bind_eq_ok.mp hmove
      obtain ⟨hinside, -⟩ := load_eq_ok.mp hload
      obtain ⟨hroom, rfl⟩ := write_eq_ok.mp hwrite
      cases hmove
      have htotal := h.held.total
      have hlen := h.held.length
      unfold capacity at htotal ⊢
      rw [toSizeT_of_bounds hnonneg (by omega)] at hinside
      refine ⟨_, rfl, length_put hroom, ?_⟩
      rw [length_put hroom]
      omega

theorem moveDown_withReads (w : World) (reads : List ReadResult) :
    (w.withReads reads).moveDown = w.moveDown.map (·.withReads reads) := by
  unfold moveDown withReads
  dsimp only
  split_ifs
  · rfl
  · rfl
  · cases load w.conn.rbuf w.conn.rbufNow (toSizeT w.conn.rbufRlen) with
    | error e => rfl
    | ok held =>
      simp only [Result.ok_bind]
      cases write w.conn.rbuf 0 held <;> rfl

/-- Bytes that a line is parsed from end in a line feed, behind those that were held. -/
theorem Whole.ends {e : ℕ} {T before : List UInt8} (h : w.Whole e) (h0 : 0 ≤ w.conn.rbufRlen)
    (hlen : w.conn.rbuf.length < 2 ^ 31) (hle : w.conn.rbufRlen ≤ capacity w.conn.rbuf)
    (hheld : w.held = before ++ T) (hT : T ≠ []) : Ends 10 T := by
  unfold capacity at hle
  have hscan := h.scan
  rw [toSizeT_of_bounds h0 (by omega)] at hscan
  unfold memchr at hscan
  unfold World.held at hheld
  rw [hheld] at hscan
  have hlength : (before ++ T).length = w.conn.rbufRlen.toNat := by
    rw [← hheld, slice, List.drop_zero, List.length_take]
    omega
  have hlast := h.last
  split at hscan
  · rename_i i hidx
    cases hscan
    obtain ⟨q, b, rfl⟩ : ∃ q b, T = q ++ [b] := ⟨_, _, (List.dropLast_concat_getLast hT).symm⟩
    obtain ⟨hlt, hget, hfirst⟩ := List.idxOf?_eq_some_iff.mp hidx
    rw [← List.append_assoc, List.length_append, List.length_singleton] at hlength
    have hi : i = (before ++ q).length := by omega
    have hb : b = 10 := by
      simp only [← List.append_assoc] at hget
      rw [List.getElem_append_right hi.ge] at hget
      simpa using hget
    refine ⟨q, by rw [hb], fun hmem => ?_⟩
    obtain ⟨j, hj, hten⟩ := List.getElem_of_mem (List.mem_append_right before hmem)
    refine hfirst j (by omega) ?_
    simp only [← List.append_assoc]
    rw [List.getElem_append_left hj]
    exact hten
  · split at hscan <;> cases hscan

/-- A turn that reads has taken the bytes `T` of the pieces, and takes them in the same way
when they are the first piece. -/
structure Took (w : World) (ps : List (List UInt8)) (w' : World) (T : List UInt8) (rest : List (List UInt8)) :
    Prop where
  bytes : ps.flatten = T ++ rest.flatten
  turn : (w.withReads (dataOf ps)).readTurn = .ok (w'.withReads (dataOf rest))
  joined : ∀ ls, (rest.flatten = [] → ls.flatten = []) →
    (w.withReads (dataOf (T :: ls))).readTurn = .ok (w'.withReads (dataOf ls))
  state : w'.conn.state = .connParseCmd ∨ T = [] ∧ w'.conn.state = .connWaiting
  held : ∃ before, w'.held = before ++ T
  nonneg : 0 ≤ w'.conn.rbufRlen
  le : w'.conn.rbufRlen ≤ capacity w'.conn.rbuf
  pos : 0 < w'.conn.rbuf.length
  stop : w'.conn.flagStop = w.conn.flagStop
  rnbuf : w'.conn.rnbuf = w.conn.rnbuf
  seen : w'.deeds = w.deeds ∧ w'.sent = w.sent ∧ w'.cache = w.cache

theorem readTurn_took {w₀ : World} (h : w.conn.Bare) (hroomy : w.Roomy 0) (hmove : w.moveDown = .ok w₀)
    (ps : List (List UInt8)) : ∃ w' T rest, w.Took ps w' T rest := by
  obtain ⟨rbuf, rfl, hlength, hle⟩ := moveDown_bare h hmove
  have hpos : 0 < rbuf.length := h.pos.trans_eq hlength.symm
  have hroomy₀ : ({ w with conn := { w.conn with rbuf := rbuf, rbufNow := 0 } } : World).Roomy 0 :=
    ⟨hroomy.1, by show rbuf.length * _ < _; rw [hlength]; exact hroomy.2⟩
  obtain ⟨w₁, res, T, rest, hd⟩ := readLoop_draws .noData hroomy₀ h.held.rlen hle hpos ps
  have hres : res ≠ .memoryError := by
    rcases hd.got with rfl | ⟨rfl, -⟩ <;> simp
  have hturn : ∀ r r', readLoop 6 0 .noData
      ((({ w with conn := { w.conn with rbuf := rbuf, rbufNow := 0 } } : World)).withReads r) =
      .ok (w₁.withReads r', res) → (w.withReads r).readTurn =
      .ok ((w₁.setState (if res = .received then .connParseCmd else .connWaiting)).withReads r') := by
    intro r r' hloop
    unfold readTurn tryReadTcp
    rw [moveDown_withReads, hmove]
    show (readLoop 6 0 .noData _ >>= _) = _
    rw [hloop]
    rcases hd.got with rfl | ⟨rfl, -⟩ <;> rfl
  obtain ⟨-, ⟨heap, reads, rbuf', now, rlen, hw₁⟩⟩ : res ≠ .memoryError ∧ ∃ heap reads rbuf' now rlen,
      w₁.withReads (dataOf rest) = { w with
        heap := heap
        reads := reads
        conn := { w.conn with rbuf := rbuf', rbufNow := now, rbufRlen := rlen } } := by
    rcases readLoop_spec hd.loop (by simp) with ⟨hno, hf, -⟩ | ⟨w₂, text, hmem, -, -⟩
    · obtain ⟨heap, reads, rbuf', now, rlen, hw⟩ := hf.world
      exact ⟨hno, heap, reads, rbuf', now, rlen, hw⟩
    · exact absurd hmem hres
  have hconn : w₁.conn = { w.conn with rbuf := rbuf', rbufNow := now, rbufRlen := rlen } :=
    congrArg World.conn hw₁
  have hdeeds : w₁.deeds = w.deeds := (congrArg World.deeds hw₁ :)
  have hsent : w₁.sent = w.sent := (congrArg World.sent hw₁ :)
  have hcache : w₁.cache = w.cache := (congrArg World.cache hw₁ :)
  refine ⟨w₁.setState (if res = .received then .connParseCmd else .connWaiting), T, rest, hd.bytes,
    hturn _ _ hd.loop, fun ls hls => hturn _ _ (hd.joined ls hls), ?_, ⟨_, hd.held⟩, hd.nonneg, hd.le, hd.pos,
    ?_, ?_, ?_⟩
  · rcases hd.got with rfl | ⟨rfl, hT⟩
    · exact .inl rfl
    · exact .inr ⟨hT, rfl⟩
  · show w₁.conn.flagStop = _
    rw [hconn]
  · show w₁.conn.rnbuf = _
    rw [hconn]
  · exact ⟨hdeeds, hsent, hcache⟩

end World

namespace Serving

/-- What is compared: the commands run, the bytes sent, and the cache. -/
def seen (s : Serving) : List Deed × List UInt8 × Cache := (s.world.deeds, s.world.sent, s.world.cache)

/-- A watcher that is started fires on a machine at rest, and every read has bytes. -/
def Fires (s : Serving) : Happening → Prop
  | .event watcher reads _ =>
    s.running = false ∧ s.world.conn.started watcher = true ∧ ∀ r ∈ reads, r.bytes ≠ []
  | _ => True

/-- So it is with the line of this turn. -/
def LineAlone (s : Serving) (a : Happening) : Prop := a = .turn → s.running = true → s.world.LineAlone

/-- The two connections differ in what their sockets have: the second has the lines, and
the first has the same bytes, with those of the line that is not complete. -/
structure Alike (held : List UInt8) (s s' : Serving) : Prop where
  running : s'.running = s.running
  sockets : ∃ ps ls, s.world.reads = World.dataOf ps ∧ s'.world = s.world.withReads (World.dataOf ls) ∧
    ps.flatten = ls.flatten ++ held ∧ ∀ l ∈ ls, Ends 10 l
  open_ : 10 ∉ held
  bare : s.world.conn.Bare

/-- The first connection is about to parse what is no line of its own. -/
structure Parted (s s' : Serving) : Prop where
  running : s.running = true
  state : s.world.conn.state = .connParseCmd
  broken : ¬s.world.LineAlone
  seen : s'.seen = s.seen

theorem after_going {w : World} (hstop : w.conn.flagStop = false) : after w = ⟨w, true⟩ :=
  if_neg (by simp [hstop])

theorem after_withReads (w : World) (reads : List ReadResult) :
    after (w.withReads reads) = ⟨(after w).world.withReads reads, (after w).running⟩ := by
  unfold after
  rw [World.conn_withReads]
  split <;> rfl

theorem after_reads (w : World) : (after w).world.reads = w.reads := by
  unfold after
  split <;> rfl

theorem withReads_reads (w : World) (reads : List ReadResult) (h : w.reads = reads) :
    w.withReads reads = w := by
  subst h
  rfl

/-- A turn of both that reads. -/
theorem Alike.read {held : List UInt8} {s s' t : Serving} (h : Alike held s s') (hrun : s.running = true)
    (hstate : s.world.conn.state = .connRead) (hroomy : s.world.Roomy 0) (hturn : step s .turn = .ok t) :
    ∃ t', step s' .turn = .ok t' ∧ (Alike held t t' ∨ Parted t t') := by
  obtain ⟨ps, ls, hps, hs', hflat, hls⟩ := h.sockets
  have hrun' : s'.running = true := h.running.trans hrun
  have hread : s.world.turn = (s.world.withReads (World.dataOf ps)).readTurn := by
    rw [withReads_reads _ _ hps]
    unfold World.turn
    rw [hstate]
  have hread' : s'.world.turn = (s.world.withReads (World.dataOf ls)).readTurn := by
    rw [hs']
    unfold World.turn
    rw [World.conn_withReads, hstate]
  simp only [step, hrun, if_true, hread] at hturn
  obtain ⟨w₁, hw₁, hturn⟩ := Result.bind_eq_ok.mp hturn
  cases hturn
  have hmove : ∃ w₀, s.world.moveDown = .ok w₀ := by
    cases hmove : s.world.moveDown with
    | ok w₀ => exact ⟨w₀, rfl⟩
    | error e =>
      unfold World.readTurn World.tryReadTcp at hw₁
      rw [World.moveDown_withReads, hmove] at hw₁
      cases hw₁
  obtain ⟨w₀, hmove⟩ := hmove
  obtain ⟨w', T, rest, htook⟩ := World.readTurn_took h.bare hroomy hmove ps
  rw [htook.turn] at hw₁
  cases hw₁
  have hstop : w'.conn.flagStop = false := htook.stop.trans h.bare.stop
  have hturned : s.world.turn = .ok (w'.withReads (World.dataOf rest)) := hread.trans htook.turn
  have hheld : w'.conn.Held := (World.held_turn h.bare.held hturned).congr rfl rfl rfl
  have hbare : w'.conn.Bare := by
    refine ⟨hstop, ?_, htook.rnbuf.trans h.bare.rnbuf, hheld, htook.pos, fun _ => htook.le⟩
    rcases htook.state with hstate | ⟨-, hstate⟩ <;> rw [hstate] <;> simp
  have hbytes := hflat.symm.trans htook.bytes
  -- the second connection takes the same bytes when they are its next line
  have hsame : ∀ ls', (World.dataOf ls = World.dataOf (T :: ls')) → rest.flatten = ls'.flatten ++ held →
      (∀ l ∈ ls', Ends 10 l) → ∃ t', step s' .turn = .ok t' ∧
        (Alike held (after (w'.withReads (World.dataOf rest))) t' ∨
          Parted (after (w'.withReads (World.dataOf rest))) t') := by
    intro ls' hls' hrest hends
    have hturn' : s'.world.turn = .ok (w'.withReads (World.dataOf ls')) := by
      rw [hread', hls']
      refine htook.joined ls' fun hnil => ?_
      rw [hrest] at hnil
      exact (List.append_eq_nil_iff.mp hnil).1
    refine ⟨after (w'.withReads (World.dataOf ls')), by simp [step, hrun', hturn'], .inl ?_⟩
    rw [after_going (w := w'.withReads (World.dataOf ls')) hstop,
      after_going (w := w'.withReads (World.dataOf rest)) hstop]
    exact ⟨rfl, ⟨rest, ls', rfl, rfl, hrest, hends⟩, h.open_, hbare⟩
  by_cases hT : T = []
  · subst hT
    exact hsame ls rfl hbytes.symm hls
  by_cases hends : Ends 10 T
  · obtain ⟨ls', rfl⟩ := hends.head hbytes.symm hls h.open_
    rw [List.flatten_cons, List.append_assoc] at hbytes
    exact hsame ls' rfl (List.append_cancel_left hbytes).symm fun l hl => hls l (List.mem_cons_of_mem T hl)
  · -- the first has taken what is no line
    obtain ⟨w₂, T', rest', htook'⟩ := World.readTurn_took h.bare hroomy hmove ls
    have hturn' : s'.world.turn = .ok (w₂.withReads (World.dataOf rest')) := hread'.trans htook'.turn
    refine ⟨after (w₂.withReads (World.dataOf rest')), by simp [step, hrun', hturn'], .inr ?_⟩
    have hstop' : w₂.conn.flagStop = false := htook'.stop.trans h.bare.stop
    rw [after_going (w := w₂.withReads (World.dataOf rest')) hstop',
      after_going (w := w'.withReads (World.dataOf rest)) hstop]
    have hparse : w'.conn.state = .connParseCmd := by
      rcases htook.state with hstate | ⟨hnil, -⟩
      · exact hstate
      · exact absurd hnil hT
    obtain ⟨before, hb⟩ := htook.held
    refine ⟨rfl, hparse, fun halone => hends ?_, ?_⟩
    · have hrlen : w'.conn.rbufRlen ≠ 0 := by
        intro hzero
        have hnil : w'.held = [] := by
          unfold World.held
          rw [hzero]
          rfl
        rw [hnil] at hb
        exact hT (List.append_eq_nil_iff.mp hb.symm).2
      obtain ⟨e, hw⟩ := halone.1 hparse hrlen
      exact World.Whole.ends (w := w') ⟨hw.scan, hw.last, hw.short⟩ htook.nonneg hheld.length htook.le hb hT
    · obtain ⟨hdeeds, hsent, hcache⟩ := htook.seen
      obtain ⟨hdeeds', hsent', hcache'⟩ := htook'.seen
      exact Prod.ext (hdeeds'.trans hdeeds.symm)
        (Prod.ext (hsent'.trans hsent.symm) (hcache'.trans hcache.symm))

theorem Alike.seen {held : List UInt8} {s s' : Serving} (h : Alike held s s') : s'.seen = s.seen := by
  obtain ⟨ps, ls, -, hs', -⟩ := h.sockets
  unfold Serving.seen
  rw [hs']
  rfl

/-- A turn of both. -/
theorem Alike.turn {held : List UInt8} {s s' t : Serving} (h : Alike held s s') (halone : s.LineAlone .turn)
    (hturn : step s .turn = .ok t) : ∃ t', step s' .turn = .ok t' ∧ (Alike held t t' ∨ Parted t t') := by
  obtain ⟨ps, ls, hps, hs', hflat, hls⟩ := h.sockets
  by_cases hrun : s.running = true
  · by_cases hstate : s.world.conn.state = .connRead
    · exact h.read hrun hstate ((halone rfl hrun).2 hstate) hturn
    have hrun' : s'.running = true := h.running.trans hrun
    simp only [step, hrun, if_true] at hturn
    obtain ⟨w₁, hw₁, hturn⟩ := Result.bind_eq_ok.mp hturn
    cases hturn
    have hbare := World.turn_bare h.bare hstate (halone rfl hrun) hw₁
    have hcommute : ∀ reads, (s.world.withReads reads).turn = s.world.turn.map (·.withReads reads) :=
      fun _ => World.turn_withReads hstate h.bare.state (halone rfl hrun).1
    have hturn' : s'.world.turn = .ok (w₁.withReads (World.dataOf ls)) := by
      rw [hs', hcommute, hw₁]
      rfl
    have hreads : w₁.reads = World.dataOf ps := by
      have hself := hcommute (World.dataOf ps)
      rw [withReads_reads _ _ hps, hw₁] at hself
      rw [Except.ok.inj hself]
      rfl
    refine ⟨after (w₁.withReads (World.dataOf ls)), by simp [step, hrun', hturn'], .inl ?_⟩
    rw [after_withReads]
    exact ⟨rfl, ⟨ps, ls, (after_reads w₁).trans hreads, rfl, hflat, hls⟩, h.open_, hbare⟩
  · have hrun' : s'.running ≠ true := fun hr => hrun (h.running.symm.trans hr)
    simp only [step, hrun] at hturn
    cases hturn
    exact ⟨s', by simp [step, hrun'], .inl h⟩

/-- A turn that fails does so in both. -/
theorem Alike.fails {held : List UInt8} {s s' : Serving} {e : Fault} (h : Alike held s s')
    (halone : s.LineAlone .turn) (hturn : step s .turn = .error e) : step s' .turn = .error e := by
  obtain ⟨ps, ls, hps, hs', hflat, hls⟩ := h.sockets
  by_cases hrun : s.running = true
  · have hrun' : s'.running = true := h.running.trans hrun
    have hw : s.world.turn = .error e := by
      simp only [step, hrun, if_true] at hturn
      cases hworld : s.world.turn with
      | error e' =>
        rw [hworld] at hturn
        cases hturn
        rfl
      | ok w =>
        rw [hworld] at hturn
        cases hturn
    have hw' : s'.world.turn = .error e := by
      by_cases hstate : s.world.conn.state = .connRead
      · cases hmove : s.world.moveDown with
        | ok w₀ =>
          obtain ⟨w', T, rest, htook⟩ := World.readTurn_took h.bare ((halone rfl hrun).2 hstate) hmove ps
          have hturn := htook.turn
          rw [withReads_reads _ _ hps] at hturn
          rw [World.turn, hstate] at hw
          cases hturn.symm.trans hw
        | error e' =>
          have hread : ∀ w : World, w.moveDown = .error e' → w.readTurn = .error e' := by
            intro w hw
            unfold World.readTurn World.tryReadTcp
            rw [hw]
            rfl
          rw [World.turn, hstate] at hw
          cases (hread _ hmove).symm.trans hw
          rw [hs', World.turn, World.conn_withReads, hstate]
          exact hread _ (by rw [World.moveDown_withReads, hmove]; rfl)
      · rw [hs', World.turn_withReads hstate h.bare.state (halone rfl hrun).1, hw]
        rfl
    simp [step, hrun', hw']
  · simp only [step, hrun] at hturn
    cases hturn

/-- Both get what an event brings, the second as soon as a line is complete. -/
theorem Alike.event {held : List UInt8} {s s' t : Serving} {watcher : Watcher} {reads : List ReadResult}
    {writes : List WriteResult} (h : Alike held s s') (hfires : s.Fires (.event watcher reads writes))
    (hstep : step s (.event watcher reads writes) = .ok t) :
    ∃ t', step s' (.event watcher
        ((pieces 10 (held ++ reads.flatMap ReadResult.bytes)).1.map .data) writes) = .ok t' ∧
      Alike (pieces 10 (held ++ reads.flatMap ReadResult.bytes)).2 t t' := by
  obtain ⟨ps, ls, hps, hs', hflat, hls⟩ := h.sockets
  obtain ⟨hrest, hstarted, hbytes⟩ := hfires
  have hrest' : s'.running = false := h.running.trans hrest
  have hstarted' : s'.world.conn.started watcher = true := by
    rw [hs']
    exact hstarted
  obtain ⟨hends, hopen⟩ := pieces_spec (10 : UInt8) (held ++ reads.flatMap ReadResult.bytes)
  have hcut := pieces_flatten (10 : UInt8) (held ++ reads.flatMap ReadResult.bytes)
  generalize pieces (10 : UInt8) (held ++ reads.flatMap ReadResult.bytes) = cut at hends hopen hcut ⊢
  rw [step, if_neg (by simp [hrest, hstarted])] at hstep
  cases hstep
  refine ⟨⟨{ s'.world with
      reads := s'.world.reads ++ cut.1.map .data
      writes := s'.world.writes ++ writes }, true⟩, ?_, rfl,
        ⟨ps ++ reads.map ReadResult.bytes, ls ++ cut.1, ?_, ?_, ?_, ?_⟩,
    hopen, h.bare⟩
  · simp [step, hrest', hstarted']
  · show s.world.reads ++ reads = _
    rw [hps, World.dataOf_append, World.dataOf_bytes hbytes]
  · have hlines : World.dataOf cut.1 = cut.1.map .data :=
      World.dataOf_of_ne_nil fun l hl => (hends l hl).ne_nil
    rw [hs', World.dataOf_append, hlines]
    rfl
  · rw [List.flatten_append, List.flatten_append, hflat, List.append_assoc, List.append_assoc, hcut,
      ← List.flatMap_def]
  · intro l hl
    rcases List.mem_append.mp hl with hl | hl
    · exact hls l hl
    · exact hends l hl

theorem run_others (s : Serving) (cache : Cache) (as : List Happening) :
    Runs.run step s (.others cache :: as) =
    Runs.run step { s with world := { s.world with cache := cache } } as := run_cons_ok step rfl as

/-- From two such connections the runs show the same. -/
theorem run_alike {held : List UInt8} {s s' : Serving} (h : Alike held s s' ∨ Parted s s')
    {as : List Happening}
    (hfires : EachStep step Fires s as) (halone : EachStep step LineAlone s as) :
    (run step s as).map seen = (run step s' (lineByLine held as)).map seen := by
  induction as generalizing held s s' with
  | nil =>
    refine congrArg Except.ok ?_
    rcases h with h | h
    · exact h.seen.symm
    · exact h.seen.symm
  | cons a as ih =>
    rcases h with h | h
    · cases a with
      | event watcher reads writes =>
        have hstep : ∃ t, step s (.event watcher reads writes) = .ok t := by
          simp only [step]
          split <;> exact ⟨_, rfl⟩
        obtain ⟨t, ht⟩ := hstep
        obtain ⟨t', ht', hnext⟩ := h.event hfires.1 ht
        rw [lineByLine, run_cons_ok step ht, run_cons_ok step ht']
        exact ih (.inl hnext) (hfires.2 t ht) (halone.2 t ht)
      | turn =>
        rw [lineByLine]
        cases ht : step s .turn with
        | error e => rw [run_cons, run_cons, ht, h.fails halone.1 ht]; rfl
        | ok t =>
          obtain ⟨t', ht', hnext⟩ := h.turn halone.1 ht
          rw [run_cons_ok step ht, run_cons_ok step ht']
          exact ih hnext (hfires.2 t ht) (halone.2 t ht)
      | others cache =>
        rw [lineByLine, run_others, run_others]
        refine ih (.inl ?_) (hfires.2 _ rfl) (halone.2 _ rfl)
        obtain ⟨ps, ls, hps, hs', hflat, hls⟩ := h.sockets
        exact ⟨h.running, ⟨ps, ls, hps, by rw [hs']; rfl, hflat, hls⟩, h.open_, h.bare⟩
    · cases a with
      | event watcher reads writes =>
        have hrest := hfires.1.1
        rw [h.running] at hrest
        cases hrest
      | turn => exact absurd (halone.1 rfl h.running) h.broken
      | others cache =>
        rw [lineByLine, run_others, run_others]
        have hbroken : ¬({ s.world with cache := cache } : World).LineAlone := by
          refine fun hno => h.broken ⟨fun hstate hrlen => ?_, hno.2⟩
          obtain ⟨e, hw⟩ := hno.1 hstate hrlen
          exact ⟨e, hw.scan, hw.last, hw.short⟩
        refine @ih held _ _ (.inr ⟨h.running, h.state, hbroken, ?_⟩) (hfires.2 _ rfl) (halone.2 _ rfl)
        have hseen := h.seen
        exact Prod.ext (congrArg Prod.fst hseen :) (Prod.ext (congrArg (fun p => p.2.1) hseen :) rfl)

/-- The segments do not matter: no turn looks for a line feed that is not there, and the run
shows what it shows when each line comes in a read of its own. -/
structure Framed (s : Serving) (as : List Happening) : Prop where
  newline : EachStep step (fun s a => a = .turn → s.running = true → ¬s.world.NoNewline) s as
  same : (Runs.run step s as).map seen = (Runs.run step s (lineByLine [] as)).map seen

theorem framed_throughout (w : World) (flagPrecmd flagShake noreply : Bool) (rbuf wbuf : List UInt8)
    (cas : UInt64)
    (hrbuf : rbuf.length = READBUF_LEN) (hw : w.conn = Conn.new flagPrecmd flagShake noreply rbuf wbuf cas)
    (hreads : w.reads = []) (as : List Happening) (hfires : EachStep step Fires (start w) as)
    (halone : EachStep step LineAlone (start w) as) : Framed (start w) as := by
  constructor
  · refine halone.mono fun s a h ha hrun hno => ?_
    obtain ⟨e, hwhole⟩ := (h ha hrun).1 hno.1 hno.2.1
    cases hwhole.scan.symm.trans hno.2.2
  · have hheld : w.conn.Held := held_start hrbuf hw
    refine run_alike (.inl ⟨rfl, ⟨[], [], hreads, (withReads_reads w [] hreads).symm, rfl, nofun⟩,
      nofun, ?_⟩) hfires halone
    show w.conn.Bare
    have hlen : (0 : ℕ) < READBUF_LEN := by decide
    rw [hw] at hheld ⊢
    exact ⟨rfl, nofun, rfl, hheld, hlen.trans_eq hrbuf.symm, fun _ => Int.natCast_nonneg _⟩

instance (w : World) : Decidable (∃ e, w.Whole e) :=
  decidable_of_iff (∃ e, memchr w.conn.rbuf 0 (toSizeT w.conn.rbufRlen) 10 = .found e ∧
      (e : ℤ) + 1 = w.conn.rbufRlen ∧ World.Short (w.tokensAt e))
    ⟨fun ⟨e, hscan, hlast, hshort⟩ => ⟨e, hscan, hlast, hshort⟩, fun ⟨e, h⟩ => ⟨e, h.scan, h.last, h.short⟩⟩

instance (w : World) (n : ℕ) : Decidable (w.Roomy n) := by
  unfold World.Roomy
  infer_instance

instance (w : World) : Decidable w.LineAlone := by
  unfold World.LineAlone
  infer_instance

instance (s : Serving) (a : Happening) : Decidable (s.LineAlone a) := by
  unfold LineAlone
  infer_instance

instance (s : Serving) : ∀ a, Decidable (s.Fires a)
  | .event watcher reads _ => inferInstanceAs (Decidable (s.running = false ∧
      s.world.conn.started watcher = true ∧ ∀ r ∈ reads, r.bytes ≠ []))
  | .turn | .others _ => .isTrue trivial

/-- A line of more than 2048 bytes in two pieces, the first of which fills the buffer. -/
def twoPieces : List Happening :=
  [.event .read [.data (bytes "version" ++ List.replicate 2041 32), .data (32 :: crlf)] [], .turn, .turn]

theorem framed_throughout_twoPieces : ∃ s t, Cache.init 1 Service.smallSettings (fun _ => true) 0 = some s ∧
    run step (start (fresh s)) twoPieces = .ok t ∧ t.world.deeds = [.command [bytes "version"]] ∧
    Framed (start (fresh s)) twoPieces := by
  have htrial : (Cache.init 1 Service.smallSettings (fun _ => true) 0).any (fun s =>
      decide (EachStep step Fires (start (fresh s)) twoPieces) &&
      decide (EachStep step LineAlone (start (fresh s)) twoPieces) &&
      (run step (start (fresh s)) twoPieces).toOption.any fun t =>
        decide (t.world.deeds = [.command [bytes "version"]])) = true := by
    decide +kernel
  obtain ⟨s, hinit, hs⟩ := Service.exists_init htrial
  simp only [Bool.and_eq_true, decide_eq_true_eq] at hs
  obtain ⟨⟨hfires, halone⟩, hs⟩ := hs
  obtain ⟨t, ht, hdeeds⟩ := (Option.any_eq_true _ _).mp hs
  exact ⟨s, t, hinit, Result.eq_ok_of_toOption ht, of_decide_eq_true hdeeds,
    framed_throughout (fresh s) false false false _ _ 0 (length_zeros _) rfl rfl _ hfires halone⟩

/-- How a run fails. -/
def faultOf : Result Serving → Option Fault
  | .ok _ => none
  | .error e => some e

theorem eq_error_of_faultOf {r : Result Serving} {e : Fault} (h : faultOf r = some e) : r = .error e := by
  cases r with
  | ok s => cases h
  | error e' =>
    cases h
    rfl

/-- A line that comes in two reads. -/
def halfLine : List Happening :=
  [.event .read [.data (bytes "vers"), .data (bytes "ion\r\n")] [], .turn, .turn]

/-- The half of a line is parsed, where the whole line is run. -/
theorem not_framed_halfLine : ∃ s t, Cache.init 1 Service.smallSettings (fun _ => true) 0 = some s ∧
    run step (start (fresh s)) halfLine = .error .nullPointer ∧
    run step (start (fresh s)) (lineByLine [] halfLine) = .ok t ∧
    t.world.deeds = [.command [bytes "version"]] ∧ ¬Framed (start (fresh s)) halfLine := by
  have htrial : (Cache.init 1 Service.smallSettings (fun _ => true) 0).any (fun s =>
      decide (faultOf (run step (start (fresh s)) halfLine) = some .nullPointer) &&
      (run step (start (fresh s)) (lineByLine [] halfLine)).toOption.any fun t =>
        decide (t.world.deeds = [.command [bytes "version"]])) = true := by
    decide +kernel
  obtain ⟨s, hinit, hs⟩ := Service.exists_init htrial
  obtain ⟨hfault, hs⟩ := (Bool.and_eq_true_iff ..).mp hs
  obtain ⟨t, ht, hdeeds⟩ := (Option.any_eq_true _ _).mp hs
  have hfails := eq_error_of_faultOf (of_decide_eq_true hfault)
  have hlines := Result.eq_ok_of_toOption ht
  refine ⟨s, t, hinit, hfails, hlines, of_decide_eq_true hdeeds, fun h => ?_⟩
  have hsame := h.same
  rw [hfails, hlines] at hsame
  cases hsame

end Serving

end MiniMemcached
