import MiniMemcached.Protocol.Returning

/-! The lengths with which `conn_shake` copies. `try_read_command` takes what is behind
the line from `rbuf_rlen` after the handler has run, which may have set it to zero, and
`conn_shake` compares it neither with the data that was announced nor with the buffers. -/

namespace MiniMemcached

open Memory Runs

/-- The lengths are those of bytes inside the buffers: what is behind the line is not
longer than `rbuf`, a block is not shorter than its CRLF and has room in `rnbuf`, and
`rbuf` has room for a line and its zero. -/
def Conn.CopiesInside (c : Conn) (tempEnd : ℕ) (valueLen : ℤ) : Prop :=
  0 ≤ valueLen ∧ valueLen ≤ capacity c.rbuf ∧
    ∀ i, memchr c.rbuf tempEnd (toSizeT valueLen) 13 = .found i →
      if c.flagPrecmd then 0 ≤ valueLen - 2 ∧ valueLen - 2 + 1 ≤ c.rnbufLen + 3
      else valueLen < capacity c.rbuf

/-- The handler of such a line clears the read buffer. -/
def Clears (tokens : List (List UInt8)) : Prop :=
  match tokens.length with
  | 1 => tokens.getD 0 [] ≠ bytes "quit"
  | 2 => ¬World.LongGet tokens
  | 3 | 5 | 6 => False
  | _ => True

namespace World

/-- `rnbuf_len` behind the handler: a storage line that gets memory announces its block. -/
def blockLen (w : World) (tokens : List (List UInt8)) : ℤ :=
  if tokens.length = 5 ∨ tokens.length = 6 then
    match parseStoreLine tokens (decide (tokens.length = 6)) with
    | none => w.conn.rnbufLen
    | some L =>
      match w.cache.allocLine L with
      | .ok (_, some _) => L.vlen
      | _ => w.conn.rnbufLen
  else w.conn.rnbufLen

/-- A line with bytes behind it is about to be parsed, and its handler returns. -/
structure Followed (w : World) (endflag : ℕ) (next : List UInt8) : Prop where
  state : w.conn.state = .connParseCmd
  rlen : w.conn.rbufRlen ≠ 0
  scan : memchr w.conn.rbuf 0 (toSizeT w.conn.rbufRlen) 10 = .found endflag
  behind : load w.conn.rbuf (endflag + 1) 1 = .ok next
  nonzero : next ≠ [0]
  returns : ∃ w₁, (w.cutLine endflag next).processCommand = .ok w₁

/-- The call of `conn_shake` in this turn, if there is one, gets lengths in range. -/
def ShakesInRange (w : World) : Prop :=
  ∀ endflag next w₁, w.Followed endflag next → (w.cutLine endflag next).processCommand = .ok w₁ →
    w₁.conn.CopiesInside (endflag + 1) (w₁.conn.rbufRlen - (endflag + 1))

/-- The bytes behind a line do not fit: the handler clears the buffer, or they are more
than `rbuf` takes, or a carriage return stands among them and they are too few or too
many for a block, where the flag of the last command says so, or fill `rbuf`. -/
def Overruns (w : World) (endflag : ℕ) : Prop :=
  Clears (w.tokensAt endflag) ∨ capacity w.conn.rbuf < w.conn.rbufRlen - (endflag + 1) ∨
    (∃ i, memchr w.conn.rbuf (endflag + 1) (toSizeT (w.conn.rbufRlen - (endflag + 1))) 13 = .found i) ∧
      if w.conn.flagPrecmd = true ∨ (w.tokensAt endflag).length = 5 then
        w.conn.rbufRlen - (endflag + 1) < 2 ∨
          w.blockLen (w.tokensAt endflag) + 3 < w.conn.rbufRlen - (endflag + 1) - 1
      else capacity w.conn.rbuf ≤ w.conn.rbufRlen - (endflag + 1)

instance (tokens : List (List UInt8)) : Decidable (Clears tokens) := by
  unfold Clears LongGet
  split <;> infer_instance

instance (r : Memory.Scan) : Decidable (∃ i, r = .found i) :=
  decidable_of_iff (∃ i, r = .found i ∧ True) (by simp)

instance (w : World) (endflag : ℕ) : Decidable (w.Overruns endflag) := by
  unfold Overruns
  infer_instance

/-- What a handler leaves for `conn_shake`. -/
theorem Handled.lengths {w w' : World} {tokens : List (List UInt8)} (h : Handled w tokens w') :
    Clears tokens ∧ w'.conn.rbufRlen = 0 ∨
    ¬Clears tokens ∧ w'.conn.rbuf = w.conn.rbuf ∧ w'.conn.rbufRlen = w.conn.rbufRlen ∧
      w'.conn.flagPrecmd = (decide (tokens.length = 5) || w.conn.flagPrecmd) ∧
      w'.conn.rnbufLen = w.blockLen tokens := by
  unfold Clears
  cases h
  case answered s text hlen hquit hlong =>
    left
    rcases hlen with hlen | hlen
    · simp only [hlen]
      exact ⟨hquit.resolve_right (by omega), rfl⟩
    · simp only [hlen]
      exact ⟨hlong, rfl⟩
  case value s it hlen hget hkey _ _ _ _ _ _ _ _ =>
    left
    simp only [hlen]
    exact ⟨fun hlong => absurd hlong.2.2 (by omega), rfl⟩
  case longKey hlong =>
    right
    have hlen := hlong.1
    refine ⟨?_, rfl, rfl, ?_, ?_⟩
    · simpa only [hlen] using not_not.mpr hlong
    · simp [hlen, queued, Conn.queue]
    · simp [blockLen, hlen, queued, Conn.queue]
  case badFormat hlen hparse =>
    right
    refine ⟨?_, rfl, rfl, rfl, ?_⟩
    · rcases hlen with hlen | hlen <;> simp [hlen]
    · simp [blockLen, hlen, hparse, markPrecmd, queued, Conn.queue, withCmd]
  case noMemory L s s' item text hlen hparse halloc =>
    right
    refine ⟨?_, rfl, rfl, rfl, ?_⟩
    · rcases hlen with hlen | hlen <;> simp [hlen]
    · simp [blockLen, hlen, hparse, halloc, markPrecmd, setItem, queued, Conn.queue, withCmd]
  case accepted L s it hlen hparse halloc =>
    right
    refine ⟨?_, rfl, rfl, rfl, ?_⟩
    · rcases hlen with hlen | hlen <;> simp [hlen]
    · simp [blockLen, hlen, hparse, halloc, markPrecmd, acceptLine]
  case quit hlen hquit =>
    right
    refine ⟨?_, rfl, rfl, ?_, ?_⟩
    · simpa only [hlen] using not_not.mpr hquit
    · simp [hlen]
    · simp [blockLen, hlen]
  case ignored hlen =>
    right
    refine ⟨?_, rfl, rfl, ?_, ?_⟩
    · simp [hlen]
    · simp [hlen]
    · simp [blockLen, hlen]
  case empty hlen =>
    left
    simp only [List.mem_cons, List.not_mem_nil, or_false, not_or] at hlen
    refine ⟨?_, rfl⟩
    split <;> simp_all

/-- The bytes behind the line are in the buffer where they were. -/
theorem Followed.scan_behind {w w₁ : World} {endflag : ℕ} {next : List UInt8}
    (hrbuf : w₁.conn.rbuf = (w.cutLine endflag next).conn.rbuf) (n : ℕ) :
    memchr w₁.conn.rbuf (endflag + 1) n 13 = memchr w.conn.rbuf (endflag + 1) n 13 := by
  have hcut : cutAt w.conn endflag < endflag + 1 := by
    unfold cutAt
    split <;> omega
  rw [hrbuf]
  exact memchr_set hcut 0 n 13

end World

/-- The read position and the number of bytes held, between the turns: what a read
brings is counted in both, and a line that was passed may be counted twice. -/
structure Conn.Held (c : Conn) : Prop where
  rlen : 0 ≤ c.rbufRlen
  total : c.rbufNow + c.rbufRlen ≤ 2 * capacity c.rbuf
  length : c.rbuf.length < 2 ^ 31

theorem Conn.Held.congr {c c' : Conn} (h : c.Held) (hrbuf : c'.rbuf.length = c.rbuf.length)
    (hnow : c'.rbufNow = c.rbufNow) (hrlen : c'.rbufRlen = c.rbufRlen) : c'.Held := by
  obtain ⟨hpos, htotal, hlen⟩ := h
  unfold capacity at htotal
  exact ⟨by omega, by unfold capacity; omega, by omega⟩

theorem Conn.Held.cleared {c c' : Conn} (h : c.Held) (hrbuf : c'.rbuf.length = c.rbuf.length)
    (hnow : c'.rbufNow ≤ 2 * c.rbuf.length) (hrlen : c'.rbufRlen = 0) : c'.Held := by
  obtain ⟨hpos, htotal, hlen⟩ := h
  exact ⟨by omega, by unfold capacity; omega, by omega⟩

namespace World

/-- The line stands within the bytes that are held. -/
theorem line_le {w : World} {endflag : ℕ} (hw : w.conn.Held)
    (hscan : memchr w.conn.rbuf 0 (toSizeT w.conn.rbufRlen) 10 = .found endflag) :
    (endflag : ℤ) + 1 ≤ w.conn.rbufRlen := by
  obtain ⟨-, hlt, -⟩ := memchr_found hscan
  have hpos := hw.rlen
  have htotal := hw.total
  have hlen := hw.length
  unfold capacity at htotal
  rw [toSizeT_of_bounds hpos (by omega)] at hlt
  omega

theorem Followed.behind_nonneg {w : World} {endflag : ℕ} {next : List UInt8} (hw : w.conn.Held)
    (h : w.Followed endflag next) : 0 ≤ w.conn.rbufRlen - (endflag + 1) := by
  have := line_le hw h.scan
  omega

/-- A call of `conn_shake` behind a line gets lengths in range just when the bytes
behind the line do not overrun the buffers. -/
theorem Followed.copiesInside_iff {w w₁ : World} {endflag : ℕ} {next : List UInt8} (hw : w.conn.Held)
    (h : w.Followed endflag next) (hproc : (w.cutLine endflag next).processCommand = .ok w₁) :
    w₁.conn.CopiesInside (endflag + 1) (w₁.conn.rbufRlen - (endflag + 1)) ↔ ¬w.Overruns endflag := by
  have hhandled : Handled (w.logged endflag next) (w.tokensAt endflag) w₁ := dispatch_spec hproc
  unfold Overruns
  rcases hhandled.lengths with ⟨hclears, hrlen⟩ | ⟨hkeeps, hrbuf, hrlen, hflag, hblock⟩
  · rw [hrlen]
    refine iff_of_false (fun hinside => ?_) (fun hno => hno (.inl hclears))
    have hneg := hinside.1
    omega
  · have hrlen : w₁.conn.rbufRlen = w.conn.rbufRlen := hrlen
    have hflag : w₁.conn.flagPrecmd = (decide ((w.tokensAt endflag).length = 5) || w.conn.flagPrecmd) := hflag
    have hblock : w₁.conn.rnbufLen = w.blockLen (w.tokensAt endflag) := hblock
    have hcap : capacity w₁.conn.rbuf = capacity w.conn.rbuf := by
      rw [hrbuf]
      exact congrArg Nat.cast (List.length_set ..)
    have hbehind := h.behind_nonneg hw
    unfold Conn.CopiesInside
    rw [hrlen, hcap, hblock]
    simp only [scan_behind hrbuf, hkeeps, false_or, not_or, not_and, not_lt]
    by_cases hmark : w.conn.flagPrecmd = true ∨ (w.tokensAt endflag).length = 5
    · have hflag : w₁.conn.flagPrecmd = true := by
        rcases hmark with hmark | hmark <;> simp [hflag, hmark]
      rw [if_pos hmark]
      simp only [hflag, if_true]
      constructor
      · rintro ⟨-, hle, hscan⟩
        refine ⟨hle, fun ⟨i, hi⟩ hno => ?_⟩
        have := hscan i hi
        omega
      · rintro ⟨hle, hscan⟩
        refine ⟨hbehind, hle, fun i hi => ?_⟩
        have := hscan ⟨i, hi⟩
        omega
    · have hflag : w₁.conn.flagPrecmd = false := by
        simp only [not_or, Bool.not_eq_true] at hmark
        simp [hflag, hmark]
      rw [if_neg hmark]
      simp only [hflag, Bool.false_eq_true, if_false]
      constructor
      · rintro ⟨-, hle, hscan⟩
        exact ⟨hle, fun ⟨i, hi⟩ => not_le.mpr (hscan i hi)⟩
      · rintro ⟨hle, hscan⟩
        exact ⟨hbehind, hle, fun i hi => not_le.mp (hscan ⟨i, hi⟩)⟩

/-- In such a state every call of `conn_shake` gets lengths in range just when no bytes
behind a line overrun the buffers. -/
theorem shakesInRange_iff {w : World} (hw : w.conn.Held) :
    w.ShakesInRange ↔ ∀ endflag next, w.Followed endflag next → ¬w.Overruns endflag := by
  constructor
  · intro h endflag next hf
    obtain ⟨w₁, hproc⟩ := hf.returns
    exact (hf.copiesInside_iff hw hproc).mp (h endflag next w₁ hf hproc)
  · intro h endflag next w₁ hf hproc
    exact (hf.copiesInside_iff hw hproc).mpr (h endflag next hf)

theorem Handled.held {w w' : World} {tokens : List (List UInt8)} (h : Handled w tokens w')
    (hw : w.conn.Held) : w'.conn.Held := by
  have hnow : (w.conn.rbufNow : ℤ) ≤ 2 * w.conn.rbuf.length := by
    have hpos := hw.rlen
    have htotal := hw.total
    unfold capacity at htotal
    omega
  cases h
  case answered => exact hw.cleared (length_zeros _) (by exact_mod_cast hnow) rfl
  case value => exact hw.cleared (length_zeros _) (by exact_mod_cast hnow) rfl
  case empty => exact hw.cleared (length_zeros _) (Nat.zero_le _) rfl
  all_goals exact hw.congr rfl rfl rfl

theorem passLine_held {w : World} {endp : ℕ} (hw : w.conn.Held)
    (hrlen : w.conn.rbufRlen = 0 ∨ (endp : ℤ) ≤ w.conn.rbufRlen) (hend : endp ≤ w.conn.rbuf.length) :
    (w.passLine endp).conn.Held := by
  obtain ⟨hpos, htotal, hlen⟩ := hw
  unfold capacity at htotal
  refine ⟨?_, ?_, hlen⟩
  · show 0 ≤ if w.conn.rbufRlen ≠ 0 then w.conn.rbufRlen - (endp - w.conn.rbufNow) else 0
    split <;> omega
  · show ((if w.conn.rbufNow ≠ 0 then endp else 0 : ℕ) : ℤ) +
      (if w.conn.rbufRlen ≠ 0 then w.conn.rbufRlen - (endp - w.conn.rbufNow) else 0) ≤
      2 * (w.conn.rbuf.length : ℤ)
    split <;> split <;> omega

theorem Shaken.held {w w' : World} {endp : ℕ} (h : Shaken w endp (w.conn.rbufRlen - endp) w')
    (hw : w.conn.Held) (hend : endp ≤ w.conn.rbuf.length) : w'.conn.Held := by
  cases h with
  | kept => exact hw
  | block => exact hw.congr rfl rfl rfl
  | line i hscan hprecmd hload hroom =>
    obtain ⟨hpos, htotal, hlen⟩ := hw
    unfold capacity at htotal
    have hsame : (put w.conn.rbuf 0 (slice w.conn.rbuf endp
      (toSizeT (w.conn.rbufRlen - endp)) ++ [0])).length =
        w.conn.rbuf.length := by
      apply length_put
      rw [List.length_append, length_slice hload, List.length_singleton]
      omega
    -- a negative length would be a scan over almost all of the address space
    have hbehind : 0 ≤ w.conn.rbufRlen - endp := by
      by_contra hneg
      unfold toSizeT at hload
      omega
    rw [toSizeT_of_bounds hbehind (by omega)] at hload
    refine ⟨hbehind, ?_, hsame.trans_lt hlen⟩
    show (((0 : ℕ) : ℤ) + (w.conn.rbufRlen - endp)) ≤ 2 * ((put w.conn.rbuf 0 _).length : ℤ)
    rw [hsame]
    omega

theorem settle_held {w : World} {ret : Bool} (hw : w.conn.Held) : (w.settle ret).conn.Held := by
  unfold settle
  dsimp only
  split_ifs
  all_goals exact hw.congr rfl rfl rfl

theorem parseTurn_held {w w' : World} (hw : w.conn.Held) (h : w.parseTurn = .ok w') : w'.conn.Held := by
  obtain ⟨w₁, ret, hparsed, rfl⟩ := parseTurn_spec h
  apply settle_held
  cases hparsed with
  | nothing => exact hw
  | alone endflag hrlen hscan hroom hnext w₁ hhandled =>
    have hline := line_le hw hscan
    have hlogged : (w.logged endflag [0]).conn.Held := hw.congr (List.length_set ..) rfl rfl
    refine passLine_held (hhandled.held hlogged) ?_ ?_
    · rcases hhandled.lengths with ⟨-, hrlen⟩ | ⟨-, -, hrlen, -, -⟩
      · exact .inl hrlen
      · right
        rw [hrlen]
        exact_mod_cast hline
    · have hsame : w₁.conn.rbuf.length = w.conn.rbuf.length :=
        hhandled.framed.length.trans (List.length_set ..)
      omega
  | followed endflag hrlen hscan hroom next hnext hne w₁ w₂ hhandled hshaken =>
    have hlogged : (w.logged endflag next).conn.Held := hw.congr (List.length_set ..) rfl rfl
    have hsame : w₁.conn.rbuf.length = w.conn.rbuf.length := hhandled.framed.length.trans (List.length_set ..)
    exact Shaken.held (by exact_mod_cast hshaken) (hhandled.held hlogged) (by omega)

end World

/-- The bytes held while they are read: they start the buffer, or they fill it. -/
structure Conn.Loading (c : Conn) : Prop where
  rlen : 0 ≤ c.rbufRlen
  length : c.rbuf.length < 2 ^ 31
  room : c.rbufNow = 0 ∧ c.rbufRlen ≤ 2 * capacity c.rbuf ∨
    c.rbufRlen = capacity c.rbuf ∧ c.rbufNow ≤ c.rbuf.length

theorem Conn.Loading.held {c : Conn} (h : c.Loading) : c.Held := by
  obtain ⟨hpos, hlen, hroom⟩ := h
  refine ⟨hpos, ?_, hlen⟩
  unfold capacity at hroom ⊢
  omega

namespace World

theorem moveDown_loading {w w' : World} (hw : w.conn.Held) (h : w.moveDown = .ok w') :
    w'.conn.Loading := by
  obtain ⟨hpos, htotal, hlen⟩ := hw
  unfold moveDown at h
  split at h
  · rename_i hnow
    cases h
    exact ⟨hpos, hlen, .inl ⟨hnow, by omega⟩⟩
  · split at h
    · rename_i hrlen
      cases h
      refine ⟨hpos, hlen, .inl ⟨rfl, ?_⟩⟩
      show w.conn.rbufRlen ≤ 2 * (w.conn.rbuf.length : ℤ)
      omega
    · obtain ⟨held, hload, h⟩ := Result.bind_eq_ok.mp h
      obtain ⟨rbuf, hwrite, h⟩ := Result.bind_eq_ok.mp h
      obtain ⟨hroom, rfl⟩ := write_eq_ok.mp hwrite
      cases h
      have hsame := length_put hroom
      refine ⟨hpos, hsame.trans_lt hlen, .inl ⟨rfl, ?_⟩⟩
      show w.conn.rbufRlen ≤ 2 * ((put w.conn.rbuf 0 held).length : ℤ)
      rw [hsame]
      unfold capacity at htotal
      omega

/-- Where there is room, the bytes held start the buffer. -/
theorem makeRoom_loading {w w' : World} (hw : w.conn.Loading) (h : w.makeRoom = (w', true)) :
    w'.conn.rbufNow = 0 ∧ w'.conn.Loading := by
  obtain ⟨hpos, hlen, hroom⟩ := hw
  have hlen' := (makeRoom_spec h).length hlen
  unfold makeRoom at h
  split at h
  · unfold growRbuf Heap.new at h
    dsimp only at h
    split at h
    · rename_i heap b hnew
      cases h
      simp only [Prod.mk.injEq] at hnew
      obtain ⟨-, hb⟩ := hnew
      split at hb
      · cases hb
        have hsame : (put ((List.range (w.conn.rbuf.length * 2)).map (w.heap.garbage w.heap.calls)) 0
            w.conn.rbuf).length = w.conn.rbuf.length * 2 := by
          rw [length_put (by simp; omega)]
          simp
        have hle : w.conn.rbufRlen ≤ (w.conn.rbuf.length * 2 : ℕ) := by
          unfold capacity at hroom
          omega
        refine ⟨rfl, hpos, hlen', .inl ⟨rfl, ?_⟩⟩
        show w.conn.rbufRlen ≤ 2 * ((put _ 0 w.conn.rbuf).length : ℤ)
        rw [hsame]
        omega
      · cases hb
    · cases h
  · rename_i hless
    cases h
    have hnow : w.conn.rbufNow = 0 := by omega
    exact ⟨hnow, hpos, hlen, hroom⟩

/-- Without room the bytes are dropped. -/
theorem makeRoom_failed {w w' : World} (hw : w.conn.Loading) (h : w.makeRoom = (w', false)) :
    w'.conn.Held := by
  have hheld := hw.held
  unfold makeRoom at h
  split at h
  · unfold growRbuf at h
    dsimp only at h
    split at h
    · cases h
    · cases h
      refine hheld.cleared rfl ?_ rfl
      have hpos := hheld.rlen
      have htotal := hheld.total
      unfold capacity at htotal
      show w.conn.rbufNow ≤ _
      omega
  · cases h

/-- A read without bytes leaves the connection alone. -/
theorem readRound_idle {w w' : World} {round : Round} (h : w.readRound = .ok (w', round))
    (hround : round ≠ .part ∧ round ≠ .full) : w'.conn = w.conn := by
  unfold readRound at h
  dsimp only at h
  split at h
  all_goals rename_i hread
  all_goals have htaken := read_spec hread
  · cases h
    cases htaken
    rfl
  · cases h
    cases htaken <;> rfl
  · cases h
    cases htaken <;> rfl
  · split at h
    · cases h
    · obtain ⟨rbuf, -, h⟩ := Result.bind_eq_ok.mp h
      cases h
      split at hround <;> simp at hround

theorem readRound_loading {w w' : World} {round : Round} (hw : w.conn.Loading) (hnow : w.conn.rbufNow = 0)
    (h : w.readRound = .ok (w', round)) :
    w'.conn.Held ∧ (round = .full → w'.conn.Loading) := by
  by_cases hgot : round = .part ∨ round = .full
  · have hfull : round = .full → capacity w'.conn.rbuf ≤ w'.conn.rbufRlen := by
      rintro rfl
      exact readRound_full h
    obtain ⟨reads, bs, -, -, hpos, hroom, rfl, -⟩ := readRound_got h hgot
    have hsame := length_put hroom
    have hlen := hw.length
    have hcap : capacity (w.gotBytes reads bs).conn.rbuf = w.conn.rbuf.length := congrArg Nat.cast hsame
    have hrlen : (w.gotBytes reads bs).conn.rbufRlen = w.conn.rbufRlen + bs.length := rfl
    have hnow' : (w.gotBytes reads bs).conn.rbufNow = bs.length := by
      show w.conn.rbufNow + bs.length = _
      omega
    refine ⟨⟨?_, ?_, hsame.trans_lt hlen⟩, fun hf => ⟨?_, hsame.trans_lt hlen, .inr ⟨?_, ?_⟩⟩⟩
    · omega
    · rw [hnow', hrlen, hcap]
      omega
    · omega
    · have := hfull hf
      omega
    · have hbuf : (w.gotBytes reads bs).conn.rbuf.length = w.conn.rbuf.length := hsame
      omega
  · have hround : round ≠ .part ∧ round ≠ .full := not_or.mp hgot
    rw [readRound_idle h hround]
    exact ⟨hw.held, fun hf => absurd hf hround.2⟩

theorem readLoop_held {fuel numAlloc : ℕ} {st res : ReadState} {w w' : World} (hw : w.conn.Loading)
    (h : readLoop fuel numAlloc st w = .ok (w', res)) : w'.conn.Held := by
  induction fuel generalizing numAlloc st w with
  | zero => cases h
  | succ fuel ih =>
    unfold readLoop at h
    dsimp only at h
    split at h
    · cases h
      exact hw.held
    · split at h
      · rename_i w₁ hroom
        obtain ⟨w₂, hout, h⟩ := Result.bind_eq_ok.mp h
        obtain ⟨-, rfl⟩ := outString_eq_ok.mp hout
        cases h
        exact (makeRoom_failed hw hroom).congr rfl rfl rfl
      · rename_i w₁ hroom
        obtain ⟨hnow, hloading⟩ := makeRoom_loading hw hroom
        obtain ⟨⟨w₂, round⟩, hround, h⟩ := Result.bind_eq_ok.mp h
        obtain ⟨hheld, hfull⟩ := readRound_loading hloading hnow hround
        cases round with
        | full => exact ih (hfull rfl) h
        | again => cases h; exact hheld
        | error => cases h; exact hheld
        | part => cases h; exact hheld

theorem readTurn_held {w w' : World} (hw : w.conn.Held) (h : w.readTurn = .ok w') : w'.conn.Held := by
  obtain ⟨⟨w₁, res⟩, hread, h⟩ := Result.bind_eq_ok.mp h
  obtain ⟨w₂, hmove, hloop⟩ := Result.bind_eq_ok.mp hread
  have hheld := readLoop_held (moveDown_loading hw hmove) hloop
  cases res <;> cases h
  all_goals exact hheld.congr rfl rfl rfl

theorem Finished.held {w w' : World} (h : Finished w w') (hw : w.conn.Held) : w'.conn.Held := by
  cases h with
  | incomplete => exact hw
  | unknown => exact hw.congr rfl rfl rfl
  | stored =>
    refine hw.cleared (length_zeros _) ?_ rfl
    have hpos := hw.rlen
    have htotal := hw.total
    unfold capacity at htotal
    show w.conn.rbufNow ≤ _
    omega

theorem Valued.held {w w' : World} (h : Valued w w') (hw : w.conn.Held) : w'.conn.Held := by
  cases h with
  | shaken _ w' hfin => exact hfin.held hw
  | dry => exact hw
  | again => exact hw
  | noRoom _ _ w' hfin => exact hfin.held hw
  | failed _ _ _ _ w' hfin => exact hfin.held hw
  | closed => exact hw.congr rfl rfl rfl
  | part _ _ _ _ _ _ _ _ _ w' hfin => exact hfin.held (hw.congr rfl rfl rfl)
  | nowhere => exact hw

theorem held_turn {w w' : World} (hw : w.conn.Held) (h : w.turn = .ok w') : w'.conn.Held := by
  unfold turn at h
  split at h
  · cases h
    exact hw.congr rfl rfl rfl
  · exact parseTurn_held hw h
  · exact readTurn_held hw h
  · rcases writeTurn_spec h with ⟨_, _, _, _, _, rfl, -⟩ | ⟨_, _, _, _, _, _, rfl⟩
    all_goals exact hw.congr rfl rfl rfl
  · exact (readValueStored_spec h).held hw
  · cases h
    exact hw.congr rfl rfl rfl
  · cases h
    exact hw.congr rfl rfl rfl

end World

namespace Serving

theorem held_step {s s' : Serving} {a : Happening} (h : s.world.conn.Held) (hstep : step s a = .ok s') :
    s'.world.conn.Held :=
  step_kept (P := fun w => w.conn.Held) (fun _ _ hw hturn => World.held_turn hw hturn)
    (fun w w' b hw hconn => hw.congr (by rw [hconn]) (by rw [hconn]) (by rw [hconn])) h hstep

theorem held_start {w : World} {flagPrecmd flagShake noreply : Bool} {rbuf wbuf : List UInt8}
    {cas : UInt64} (hrbuf : rbuf.length = READBUF_LEN)
    (hw : w.conn = Conn.new flagPrecmd flagShake noreply rbuf wbuf cas) : (start w).world.conn.Held := by
  show w.conn.Held
  rw [hw]
  have hlen : READBUF_LEN < 2 ^ 31 := by decide
  refine ⟨le_rfl, ?_, hrbuf.trans_lt hlen⟩
  show ((0 : ℕ) : ℤ) + 0 ≤ 2 * capacity rbuf
  unfold capacity
  omega

/-- Whatever the connection did before, and at every turn on the way: the lengths of
`conn_shake` are in range just when no bytes behind a line overrun the buffers. -/
theorem shakesInRange_throughout (w : World) (flagPrecmd flagShake noreply : Bool) (rbuf wbuf : List UInt8)
    (cas : UInt64) (hrbuf : rbuf.length = READBUF_LEN)
    (hw : w.conn = Conn.new flagPrecmd flagShake noreply rbuf wbuf cas) (as : List Happening) :
    Throughout step (fun s => s.world.ShakesInRange) (start w) as ↔
      Throughout step (fun s => ∀ endflag next, s.world.Followed endflag next → ¬s.world.Overruns endflag)
        (start w) as := by
  rw [throughout_iff, throughout_iff]
  have hheld : ∀ pre t, run step (start w) pre = .ok t → t.world.conn.Held := fun pre t hrun =>
    invariant_run (I := fun t => t.world.conn.Held) (fun _ _ _ => held_step) (held_start hrbuf hw) hrun
  constructor
  · intro h pre hpre t hrun
    exact (World.shakesInRange_iff (hheld pre t hrun)).mp (h pre hpre t hrun)
  · intro h pre hpre t hrun
    exact (World.shakesInRange_iff (hheld pre t hrun)).mpr (h pre hpre t hrun)

/-- A `get` of a key of 251 bytes, whose handler leaves the buffer alone, and a line behind
it in the same read. -/
def longGetThenVersion : List Happening :=
  oneLine (bytes "get " ++ List.replicate 251 97 ++ crlf ++ bytes "version\r\n")

theorem shakesInRange_longGet : ∃ s t, Cache.init 1 Service.smallSettings (fun _ => true) 0 = some s ∧
    run step (start (fresh s)) (longGetThenVersion.take 2) = .ok t ∧ t.world.Followed 256 [118] ∧
    Throughout step (fun s => s.world.ShakesInRange) (start (fresh s)) longGetThenVersion := by
  have htrial : (Cache.init 1 Service.smallSettings (fun _ => true) 0).any (fun s =>
      decide (Throughout step (fun s => ¬∃ e, memchr s.world.conn.rbuf 0 (toSizeT s.world.conn.rbufRlen) 10 =
        .found e ∧ slice s.world.conn.rbuf (e + 1) 1 ≠ [0] ∧ s.world.Overruns e)
        (start (fresh s)) longGetThenVersion) &&
      (run step (start (fresh s)) (longGetThenVersion.take 2)).toOption.any fun t =>
        decide (t.world.conn.state = .connParseCmd ∧ t.world.conn.rbufRlen ≠ 0 ∧
          memchr t.world.conn.rbuf 0 (toSizeT t.world.conn.rbufRlen) 10 = .found 256 ∧
          257 + 1 ≤ t.world.conn.rbuf.length ∧ slice t.world.conn.rbuf 257 1 = [118]) &&
        (t.world.cutLine 256 [118]).processCommand.toOption.isSome) = true := by
    decide +kernel
  obtain ⟨s, hinit, hs⟩ := Service.exists_init htrial
  obtain ⟨hnone, hs⟩ := (Bool.and_eq_true_iff ..).mp hs
  obtain ⟨t, ht, hs⟩ := (Option.any_eq_true _ _).mp hs
  obtain ⟨hline, hproc⟩ := (Bool.and_eq_true_iff ..).mp hs
  obtain ⟨hstate, hrlen, hscan, hinside, hnext⟩ := of_decide_eq_true hline
  obtain ⟨w, hw⟩ := Option.isSome_iff_exists.mp hproc
  refine ⟨s, t, hinit, Result.eq_ok_of_toOption ht,
    ⟨hstate, hrlen, hscan, load_eq_ok.mpr ⟨hinside, hnext.symm⟩,
    by decide, w, Result.eq_ok_of_toOption hw⟩, ?_⟩
  refine (shakesInRange_throughout (fresh s) false false false _ _ 0 (length_zeros _) rfl _).mpr ?_
  rw [throughout_iff]
  intro pre hpre u hrun e next hfollowed hover
  refine throughout_iff.mp (of_decide_eq_true hnone) pre hpre u hrun ⟨e, hfollowed.scan, ?_, hover⟩
  rw [← (load_eq_ok.mp hfollowed.behind).2]
  exact hfollowed.nonzero

/-- Two lines in one read. -/
def twoVersions : List Happening := [.event .read [.data (bytes "version\r\nversion\r\n")] [], .turn]

/-- The handler of the first of two lines returns and has cleared the buffer. -/
def clearsBefore (t : Serving) : Bool :=
  decide (t.world.conn.state = .connParseCmd ∧ t.world.conn.rbufRlen ≠ 0 ∧
    memchr t.world.conn.rbuf 0 (toSizeT t.world.conn.rbufRlen) 10 = .found 8) &&
  match load t.world.conn.rbuf 9 1 with
  | .error _ => false
  | .ok next => decide (next ≠ [0]) &&
    match (t.world.cutLine 8 next).processCommand with
    | .ok w => decide (w.conn.rbufRlen = 0)
    | .error _ => false

/-- The answer to the first line clears the buffer, and the length of what is behind it
is taken to be minus nine. -/
theorem not_shakesInRange_twoVersions : ∃ s, Cache.init 1 Service.smallSettings (fun _ => true) 0 = some s ∧
    ¬Throughout step (fun s => s.world.ShakesInRange) (start (fresh s)) twoVersions := by
  have htrial : (trial twoVersions).any clearsBefore = true := by decide +kernel
  obtain ⟨s, t, hinit, hrun, hp⟩ := exists_of_trial htrial
  refine ⟨s, hinit, fun h => ?_⟩
  have hrange : t.world.ShakesInRange := h.last hrun
  simp only [clearsBefore, Bool.and_eq_true, decide_eq_true_eq] at hp
  obtain ⟨⟨hstate, hrlen, hscan⟩, hp⟩ := hp
  split at hp
  · cases hp
  · rename_i next hload
    simp only [Bool.and_eq_true, decide_eq_true_eq] at hp
    obtain ⟨hne, hp⟩ := hp
    split at hp
    · rename_i w hproc
      have hcleared : w.conn.rbufRlen = 0 := of_decide_eq_true hp
      have hinside := hrange 8 next w ⟨hstate, hrlen, hscan, hload, hne, ⟨w, hproc⟩⟩ hproc
      have hneg := hinside.1
      rw [hcleared] at hneg
      norm_num at hneg
    · cases hp

end Serving

end MiniMemcached
