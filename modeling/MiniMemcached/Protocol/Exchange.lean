import MiniMemcached.Protocol.Blocks
import MiniMemcached.Protocol.Phases
import MiniMemcached.Protocol.Refusals

/-! The turns that carry out a request: the parse of its line, and the read of its data
block. Both find what the client has sent, do what the service does at that time, and
leave the answer in the write buffer. -/

namespace MiniMemcached

open Memory Runs

namespace World

variable {w w' : World} {st st' : Service} {g : Shape} {i : ℕ} {coming : List (List UInt8)}
    {left : List UInt8}

/-! ### The turn in `conn_nread` -/

/-- A text that is queued in a buffer that is ready. -/
theorem phase_writing {c : Conn} {text : List UInt8} (hready : c.Ready)
    (hlen : text.length + 2 < WRITEBUF_LEN)
    (hclear : w.conn.Clear) (hnone : arrivals w.reads = []) (hstate : w.conn.state = .connWrite)
    (hbuf : w.conn.wbuf = (c.queue text).wbuf) (hnow : w.conn.wbufNow = some 0)
    (hwlen : w.conn.wbufWlen = c.wbufWlen) (hwbufLen : w.conn.wbufLen = text.length + 2) :
    Phase w none [] (text ++ crlf) := by
  have hc : ({ w with conn := c } : World).conn.Writable := hready.rested.writable
  have hroom : (text.length : ℤ) + 2 < ({ w with conn := c } : World).conn.wbufLen := by
    show _ < c.wbufLen
    rw [hready.len]
    exact_mod_cast hlen
  obtain ⟨-, hpart⟩ := partway_queue hc hready.rested.wlen hroom
  have hsize : (c.queue text).wbuf.length = WRITEBUF_LEN := by
    refine (length_put ?_).trans hready.size
    rw [hready.size, List.length_append]
    exact (Nat.zero_add _).trans_le hlen.le
  refine .writing (k := 0) hstate hclear ?_ (hbuf ▸ hsize) hnone
  exact ⟨hwbufLen.trans hpart.length, hbuf ▸ hpart.front, hpart.int, hbuf ▸ hpart.room, hpart.lt,
    hwlen.trans hready.rested.wlen, hnow⟩

theorem outLine_of_ready {c : Conn} {text : List UInt8} (hready : c.Ready)
    (hlen : text.length + 2 < WRITEBUF_LEN) :
    c.outLine text = text := by
  have hlt : (text.length : ℤ) + 2 < WRITEBUF_LEN := by exact_mod_cast hlen
  refine if_neg ?_
  rw [hready.len]
  omega

theorem length_storeAnswer (cmd : Nread) (stat : StoreStat) :
    (storeAnswer cmd stat).length + 2 < WRITEBUF_LEN := by
  unfold storeAnswer
  split_ifs <;> decide

/-- The clock of the service is set to that of the connection. -/
theorem at_eq (hcache : w.cache = { st.cache with clock := w.cache.clock }) (req : Request) :
    st.at_ ⟨w.cache.clock, i, req⟩ = w.cache := hcache.symm

/-- The turn in which the block comes. -/
theorem advance_block {P : Pending} {bs : List UInt8} {rest : List ReadResult}
    (hcache : w.cache = { st.cache with clock := w.cache.clock })
    (hP : st.pending i = some P) (hstate : w.conn.state = .connNread) (hshake : w.conn.flagShake = false)
    (hcmd : w.conn.cmd = P.line.cmd) (hne : P.line.cmd ≠ .error) (hitem : w.conn.item = some P.it)
    (hlen : w.conn.rnbufLen = P.line.vlen) (hnread : w.conn.rnbufRlen = 0)
    (hlive : ∃ b, w.conn.rnbuf = .live b ∧ (b.length : ℤ) = P.line.vlen + 3)
    (hrbuf : w.conn.rbuf.length = READBUF_LEN) (hready : w.conn.Ready) (hreads : w.reads = .data bs :: rest)
    (hbs : bs ≠ []) (hbytes : (bs.length : ℤ) = P.line.vlen) (hone : arrivals w.reads = [bs])
    (hnone : arrivals rest = []) (hturn : w.turn = .ok w') : Advance st i w (arrivals w.reads) [] w' := by
  have hge := P.line.vlen_ge
  have hlt := P.line.vlen_lt
  have hsize : toSizeT w.conn.rnbufLen = bs.length := by
    rw [hlen, toSizeT_of_bounds (by omega) (by omega)]
    omega
  have hroom : toSizeT (w.conn.rnbufLen - w.conn.rnbufRlen) = bs.length := by rw [hnread, sub_zero, hsize]
  obtain ⟨b, hlive, hb⟩ := hlive
  rw [turn_piece hstate hshake hreads hlive hbs (by omega) hroom.ge] at hturn
  have hput : (put b 0 bs).length = b.length := length_put (by omega)
  have hslice : slice (put b 0 bs) 0 (toSizeT w.conn.rnbufLen) = bs := by
    rw [hsize, put_front, slice, List.drop_zero, List.take_left]
  have hfin := finishValue_complete (w := w.tookPart rest b bs) (b := put b 0 bs)
    (by show w.conn.rnbufLen = w.conn.rnbufRlen + bs.length; omega)
      (by show w.conn.cmd ≠ .error; rwa [hcmd]) hitem rfl
    (by show 0 ≤ w.conn.rnbufLen; omega) (by show w.conn.rnbufLen < _; omega)
    (by show w.conn.rnbufLen + 3 ≤ _; omega) (hready.rested.congr rfl rfl rfl rfl)
  rw [show (w.tookPart rest b bs).conn.rnbufLen = w.conn.rnbufLen from rfl, hslice] at hfin
  rw [hfin] at hturn
  obtain ⟨⟨s, stat, cas⟩, hblock, hturn⟩ := Result.bind_eq_ok.mp hturn
  cases hturn
  have hstep : st.step ⟨w.cache.clock, i, .block bs⟩ =
      .ok ⟨s, Function.update st.pending i none, .stored stat⟩ := by
    unfold Service.step
    simp only [hP, hbytes, if_true, at_eq hcache, ← hcmd]
    rw [show w.cache.commandBlock P.it w.conn.cmd bs = .ok (s, stat, cas) from hblock]
    rfl
  have hlong := length_storeAnswer w.conn.cmd stat
  have hfree : Function.update st.pending i none i = none := Function.update_self ..
  have hready' : ({ (w.tookPart rest b bs).conn.clearRbuf with
    rnbuf := .dangling, rnbufRlen := 0, cas := cas.getD w.conn.cas } : Conn).Ready :=
      hready.congr rfl rfl rfl rfl
  have hline := outLine_of_ready (c := (w.tookPart rest b bs).conn) (hready.congr rfl rfl rfl rfl) hlong
  refine .request hstep rfl (?_ : Exchange _ _ _ bs (storeAnswer w.conn.cmd stat ++ crlf) _) hone rfl ?_ rfl
  · show Exchange ((st.pending i).map Pending.line) _ (.stored stat) _ _
      ((Function.update st.pending i none i).map Pending.line)
    rw [hP, hfree, hcmd]
    exact .block hbytes stat
  · show Phase _ (Function.update st.pending i none i) _ _
    rw [hfree]
    unfold storedWith
    rw [show (w.tookPart rest b bs).conn.cmd = w.conn.cmd from rfl, hline]
    refine phase_writing hready' hlong ⟨?_, rfl, rfl⟩ hnone rfl rfl rfl rfl rfl
    show zeros w.conn.rbuf.length = _
    rw [hrbuf]

/-- The turn of a connection that waits for a block. -/
theorem advance_nread {P : Pending} (hcache : w.cache = { st.cache with clock := w.cache.clock })
    (hP : st.pending i = some P) (hstate : w.conn.state = .connNread) (hshake : w.conn.flagShake = false)
    (hcmd : w.conn.cmd = P.line.cmd) (hne : P.line.cmd ≠ .error) (hitem : w.conn.item = some P.it)
    (hlen : w.conn.rnbufLen = P.line.vlen) (hnread : w.conn.rnbufRlen = 0)
    (hbuf : w.conn.Buffers P.line.vlen)
    (hrbuf : w.conn.rbuf.length = READBUF_LEN) (hready : w.conn.Ready)
    (hcoming : ∀ chunk ∈ arrivals w.reads, arrivals w.reads = [chunk] ∧ (chunk.length : ℤ) = P.line.vlen)
    (hturn : w.turn = .ok w') : Advance st i w (arrivals w.reads) [] w' := by
  have hge := P.line.vlen_ge
  have hlt := P.line.vlen_lt
  have hsize : toSizeT (w.conn.rnbufLen - w.conn.rnbufRlen) = P.line.vlen.toNat := by
    rw [hlen, hnread, toSizeT_of_bounds (by omega) (by omega), sub_zero]
  have hincomplete : w.conn.rnbufLen ≠ w.conn.rnbufRlen := by omega
  have hstay : ∀ rs, arrivals rs = arrivals w.reads →
      Phase { w with reads := rs } (st.pending i) (arrivals w.reads) [] := by
    intro rs hrs
    rw [hP, ← hrs]
    exact .awaiting hstate hshake hcmd hne hitem hlen hnread hbuf hrbuf hready (hrs ▸ hcoming)
  have hfin : ∀ rs, finishValue { w with reads := rs } = .ok { w with reads := rs } := fun rs =>
    finishValue_incomplete (w := { w with reads := rs }) hincomplete
  have hrun : w.readValueStored = .ok w' := by
    unfold turn at hturn
    rwa [hstate] at hturn
  by_cases hdry : w.reads = []
  · have hread : w.read (toSizeT (w.conn.rnbufLen - w.conn.rnbufRlen)) = (w, .again) := by
      unfold read
      rw [if_neg (by omega)]
      simp only [hdry]
    unfold readValueStored at hrun
    rw [if_neg (by simp [hshake]), hread] at hrun
    cases hrun
    exact .silent rfl (hstay w.reads rfl) rfl
  obtain ⟨r, rest, hreads⟩ := List.exists_cons_of_ne_nil hdry
  have harrive : arrivals w.reads = if r.bytes = [] then arrivals rest else r.bytes :: arrivals rest := by
    rw [hreads, arrivals_cons]
  by_cases hr : r.bytes = []
  · rw [if_pos hr] at harrive
    have hread := read_head (w := w) (n := toSizeT (w.conn.rnbufLen - w.conn.rnbufRlen)) (by omega) hreads
      (by rw [hr]; exact Nat.zero_le _)
    unfold readValueStored at hrun
    rw [if_neg (by simp [hshake]), hread] at hrun
    cases r with
    | again =>
      cases hrun
      exact .silent rfl (hstay rest harrive.symm) rfl
    | failed =>
      cases (hfin rest).symm.trans hrun
      exact .silent rfl (hstay rest harrive.symm) rfl
    | data bs =>
      obtain rfl : bs = [] := hr
      have hrun : (if w.conn.rnbufRlen ≠ w.conn.rnbufLen then _ else _) = Except.ok w' := hrun
      rw [if_pos hincomplete.symm] at hrun
      cases hrun
      exact .silent rfl (.closed rfl) rfl
  · rw [if_neg hr] at harrive
    obtain ⟨hone, hbytes⟩ := hcoming r.bytes (harrive ▸ List.mem_cons_self)
    have hnone : arrivals rest = [] := (List.cons.inj (harrive.symm.trans hone)).2
    obtain ⟨bs, rfl⟩ : ∃ bs, r = .data bs := by
      cases r with
      | data bs => exact ⟨bs, rfl⟩
      | again | failed => exact absurd rfl hr
    rcases hbuf with hnull | hlive
    · rw [readValueStored_nowhere hshake ⟨hnull, by omega, bs, rest, hr, hreads⟩] at hrun
      cases hrun
      exact .silent rfl (hstay w.reads rfl) rfl
    · exact advance_block hcache hP hstate hshake hcmd hne hitem hlen hnread hlive hrbuf hready hreads
        hr hbytes hone hnone hturn

/-! ### The turn in `conn_parse_cmd` -/

/-- The line that has come is found, and nothing follows it. -/
theorem loaded_line {chunk l : List UInt8} (hline : Brings chunk l)
    (hrbuf : w.conn.rbuf = chunk ++ zeros (READBUF_LEN - chunk.length))
    (hrlen : w.conn.rbufRlen = chunk.length) :
    w.conn.rbufRlen ≠ 0 ∧ memchr w.conn.rbuf 0 (toSizeT w.conn.rbufRlen) 10 = .found (l.length + 1) ∧
      slice w.conn.rbuf (l.length + 1 + 1) 1 = [0] ∧ w.tokensAt (l.length + 1) = tokensOf l := by
  have hsmall := hline.small
  have hchunk : chunk.length = l.length + 2 := by
    rw [hline.eq]
    exact List.length_append
  have hlength : w.conn.rbuf.length = READBUF_LEN := by
    rw [hrbuf, List.length_append, length_zeros]
    omega
  have hlt : READBUF_LEN < 2 ^ 31 := by decide
  set w₀ : World := { w with
    reads := []
    deeds := []
    conn := { w.conn with state := .connParseCmd, flagStop := false, rnbufRlen := 0 } } with hw₀
  have hheld : w₀.held = l ++ crlf ++ [] := by
    show slice w.conn.rbuf 0 w.conn.rbufRlen.toNat = _
    rw [hrlen, hrbuf, slice, List.drop_zero, Int.toNat_natCast, List.take_left, List.append_nil]
    exact hline.eq
  have hle : w.conn.rbufRlen ≤ capacity w.conn.rbuf := by
    unfold capacity
    omega
  have hloaded : Loaded (l ++ crlf ++ []) w₀ :=
    ⟨rfl, rfl, hheld, by show 0 ≤ w.conn.rbufRlen; omega, hle, rfl,
    hlength.trans_lt hlt, rfl, rfl⟩
  obtain ⟨-, hscan, htokens⟩ := hloaded.line hline.clean
  refine ⟨by omega, hscan, ?_, htokens⟩
  rw [show l.length + 1 + 1 = chunk.length by omega, hrbuf, slice, List.drop_left]
  obtain ⟨n, hn⟩ : ∃ n, READBUF_LEN - chunk.length = n + 1 := ⟨READBUF_LEN - chunk.length - 1, by omega⟩
  rw [hn]
  rfl

/-- The parse of a line that nothing follows. -/
theorem parseTurn_alone {e : ℕ} (hrlen : w.conn.rbufRlen ≠ 0)
    (hscan : memchr w.conn.rbuf 0 (toSizeT w.conn.rbufRlen) 10 = .found e)
    (hnext : slice w.conn.rbuf (e + 1) 1 = [0]) (hturn : w.parseTurn = .ok w') :
    ∃ w₁, (w.logged e [0]).dispatch (w.tokensAt e) = .ok w₁ ∧ w₁.conn.flagShake = false ∧
      w' = (w₁.passLine (e + 1)).settle true := by
  obtain ⟨⟨w₂, ret⟩, hread, hturn⟩ := Result.bind_eq_ok.mp hturn
  cases hturn
  unfold tryReadCommand at hread
  rw [if_neg hrlen, hscan] at hread
  obtain ⟨next, hload, hread⟩ := Result.bind_eq_ok.mp hread
  obtain ⟨-, rfl⟩ := load_eq_ok.mp hload
  rw [hnext] at hread
  obtain ⟨w₁, hproc, hread⟩ := Result.bind_eq_ok.mp hread
  have hdispatch : (w.logged e [0]).dispatch (w.tokensAt e) = .ok w₁ := hproc
  have hshake : w₁.conn.flagShake = false := (dispatch_spec hdispatch).framed.flagShake
  rw [if_neg (by simp [hshake])] at hread
  cases hread
  exact ⟨w₁, hdispatch, hshake, rfl⟩

/-- A connection whose line was cut off for its handler. -/
structure AtLine (w : World) : Prop where
  ready : w.conn.Ready
  length : w.conn.rbuf.length = READBUF_LEN
  nread : w.conn.rnbufRlen = 0
  shake : w.conn.flagShake = false
  none : arrivals w.reads = []

/-- What follows the handler of a line that nothing follows. -/
theorem settle_passLine (hshake : w.conn.flagShake = false) (endp : ℕ) : ∃ stop now rlen,
    (w.passLine endp).settle true =
      { w with conn := { w.conn with flagStop := stop, rbufNow := now, rbufRlen := rlen } } ∧
    (w.conn.rbufRlen = 0 → rlen = 0) := by
  have hrlen : w.conn.rbufRlen = 0 → (w.passLine endp).conn.rbufRlen = 0 := fun h => if_neg (not_not.mpr h)
  rw [settle_of_alone (w := w.passLine endp) hshake]
  split
  · exact ⟨false, _, _, rfl, hrlen⟩
  · exact ⟨true, _, _, rfl, hrlen⟩

theorem phase_answered (h : AtLine w) (s : Cache) {text : List UInt8} (hlen : text.length + 2 < WRITEBUF_LEN)
    (endp : ℕ) : Phase (((w.answered s text).passLine endp).settle true) none [] (text ++ crlf) ∧
      (((w.answered s text).passLine endp).settle true).cache = s ∧
      (((w.answered s text).passLine endp).settle true).sent = w.sent := by
  obtain ⟨stop, now, rlen, heq, hrlen⟩ := settle_passLine (w := w.answered s text) h.shake endp
  obtain rfl : rlen = 0 := hrlen rfl
  have hready : (w.conn.clearRbuf.startWrite).Ready := h.ready.congr rfl rfl rfl rfl
  rw [heq]
  unfold answered
  rw [outLine_of_ready h.ready hlen]
  refine ⟨phase_writing hready hlen ⟨?_, rfl, h.nread⟩ h.none rfl rfl rfl rfl rfl, rfl, rfl⟩
  show zeros w.conn.rbuf.length = _
  rw [h.length]

theorem length_bad_command : BAD_COMMAND.length + 2 < WRITEBUF_LEN := by decide

/-- A line of one word. -/
theorem advance_word {w₀ w₁ : World} {l : List UInt8} (h : AtLine w₀) (hcache : w₀.cache = w.cache)
    (hsent : w₀.sent = w.sent) (hfree : st.pending i = none) (hlen : (tokensOf l).length = 1)
    (hdispatch : w₀.dispatch (tokensOf l) = .ok w₁) (endp : ℕ) :
    Advance st i w [l ++ crlf] [] ((w₁.passLine endp).settle true) := by
  obtain ⟨t, ht⟩ := List.length_eq_one_iff.mp hlen
  rw [ht] at hdispatch
  have hone : w₀.commandOnePara [t] = .ok w₁ := hdispatch
  unfold commandOnePara at hone
  have hanswer : ∀ text, w₀.answer text = .ok w₁ → text.length + 2 < WRITEBUF_LEN →
      Aside (l ++ crlf) (text ++ crlf) → Advance st i w [l ++ crlf] [] ((w₁.passLine endp).settle true) := by
    intro text heq hsmall haside
    obtain ⟨-, rfl⟩ := answer_eq_ok.mp heq
    obtain ⟨hphase, hc, hs⟩ := phase_answered h w₀.cache hsmall endp
    exact .aside (hc.trans hcache) haside hfree rfl rfl (hfree ▸ hphase) (hs.trans hsent)
  split at hone
  · cases hone
    obtain ⟨stop, now, rlen, heq, -⟩ :=
      settle_passLine (w := { w₀ with conn := { w₀.conn with state := .connClosed } }) h.shake endp
    rw [heq]
    exact .silent hcache (.closed rfl) (by rw [hsent])
  · rename_i hquit
    split at hone
    · rename_i hversion
      exact hanswer _ hone (by decide) (.version (by rw [ht, show t = _ from hversion]))
    · rename_i hversion
      exact hanswer _ hone length_bad_command (.word ht hquit hversion)

/-- What a `get` of a found item sends. -/
theorem valueAnswer_valueText {tokens : List (List UInt8)} {s : Cache} {it : Ptr} (h : Found w tokens s it) :
    valueAnswer s.items it =
      valueText (tokens.getD 1 []) (s.items.itemFlag it) (s.items.value it) (s.items.cas it) := by
  have hge := h.nbytes_ge
  have hsize := h.size
  have hvalue : s.items.value it = bytesAt (s.items.data it) (s.items.realDataAddr it)
    (toSizeT (s.items.nbytes it)) := by
    unfold Items.value
    congr 1
    omega
  have hlength : ((s.items.value it).length : ℤ) = s.items.nbytes it := by
    rw [hvalue, length_bytesAt, hsize]
  unfold valueAnswer valueText
  rw [Cache.itemGet_key h.item, hlength, ← hvalue]

/-- A `get` that is not refused. -/
theorem advance_get {w₀ w₁ : World} {l k : List UInt8} (h : AtLine w₀) (hsound : Sound w₀.cache g)
    (hsized : Sized w₀.cache g) (hcache : w₀.cache = w.cache) (hsent : w₀.sent = w.sent)
    (hclock : w.cache = { st.cache with clock := w.cache.clock }) (hfree : st.pending i = none)
    (ht : tokensOf l = [bytes "get", k]) (hclean : ∀ b ∈ k, b ≠ 0 ∧ isSeparator b = false)
    (hshort : k.length ≤ KEY_MAX_LENGTH) (hget : w₀.getCommand [bytes "get", k] = .ok w₁) (endp : ℕ) :
    Advance st i w [l ++ crlf] [] ((w₁.passLine endp).settle true) := by
  have hlong : ¬KEY_MAX_LENGTH < k.length := by omega
  obtain ⟨s, g', acts, o, hitem, -⟩ := Steps.itemGet hsound k
  have hcommand : (st.at_ ⟨w.cache.clock, i, .get k⟩).commandGet k = .ok (s, o) := by
    rw [at_eq hclock, ← hcache]
    unfold Cache.commandGet
    rw [if_neg hlong, hitem]
  cases o with
  | none =>
    have hstep : st.step ⟨w.cache.clock, i, .get k⟩ = .ok { st with cache := s, reply := .miss } := by
      unfold Service.step
      simp only [hfree, if_neg hlong, hcommand]
      rfl
    unfold getCommand at hget
    rw [show [bytes "get", k].getD 1 [] = k from rfl, if_neg hlong, hitem, Result.ok_bind] at hget
    obtain ⟨-, rfl⟩ := answer_eq_ok.mp hget
    have hat : AtLine { w₀ with cache := s } := ⟨h.ready, h.length, h.nread, h.shake, h.none⟩
    have hlen : (bytes "END").length + 2 < WRITEBUF_LEN := by decide
    obtain ⟨hphase, hc, hs⟩ := phase_answered hat s hlen endp
    refine .request hstep hc ?_ rfl rfl (hfree ▸ hphase) (hs.trans hsent)
    show Exchange ((st.pending i).map Pending.line) _ .miss _ _ ((st.pending i).map Pending.line)
    rw [hfree]
    exact .miss ht
  | some it =>
    have hstep : st.step ⟨w.cache.clock, i, .get k⟩ = .ok { st with cache := s, reply := .value it } := by
      unfold Service.step
      simp only [hfree, if_neg hlong, hcommand]
      rfl
    obtain ⟨hfound, -⟩ := found_of_live hsound hsized
      (show ∀ b ∈ [bytes "get", k].getD 1 [], _ from hclean) hshort hitem
    obtain ⟨-, wbuf, hfmt, rfl⟩ := hfound.getCommand_eq_ok.mp hget
    obtain ⟨hpre, hlength⟩ := formatValue_spec hfound.clean hfmt
    have hsize : wbuf.length = WRITEBUF_LEN := hlength.trans h.ready.size
    obtain ⟨stop, now, rlen, heq, hrlen⟩ := settle_passLine (w := { w₀ with
      cache := s
      conn := { w₀.conn.clearRbuf.startWrite with wbuf := wbuf, state := .connWrite } }) h.shake endp
    obtain rfl : rlen = 0 := hrlen rfl
    rw [heq]
    have hrested := h.ready.rested
    refine .request hstep rfl (?_ : Exchange _ _ _ (l ++ crlf) wbuf _) rfl rfl ?_ hsent
    · show Exchange ((st.pending i).map Pending.line) _
        (.value (s.items.value it) (s.items.itemFlag it) (s.items.cas it)) _ _
          ((st.pending i).map Pending.line)
      rw [hfree]
      exact .hit ht (valueAnswer_valueText hfound ▸ hpre) hsize
    · show Phase _ (st.pending i) [] (wbuf.drop 0)
      rw [hfree]
      refine .writing rfl ⟨?_, rfl, h.nread⟩ ?_ hsize h.none
      · show zeros w₀.conn.rbuf.length = _
        rw [h.length]
      · refine ⟨?_, List.prefix_refl _, ?_, hsize.ge, ?_, hrested.wlen, hrested.now⟩
        · show w₀.conn.wbufLen = wbuf.length
          rw [h.ready.len, hsize]
        · rw [hsize]
          decide
        · rw [hsize]
          decide

/-- A `delete`. -/
theorem advance_delete {w₀ w₁ : World} {l k : List UInt8} (h : AtLine w₀) (hcache : w₀.cache = w.cache)
    (hsent : w₀.sent = w.sent) (hclock : w.cache = { st.cache with clock := w.cache.clock })
    (hfree : st.pending i = none) (ht : tokensOf l = [bytes "delete", k])
    (hdelete : w₀.deleteCommand [bytes "delete", k] = .ok w₁) (endp : ℕ) :
    Advance st i w [l ++ crlf] [] ((w₁.passLine endp).settle true) := by
  obtain ⟨⟨s, o⟩, hitem, hdelete⟩ := Result.bind_eq_ok.mp hdelete
  have hitem : w₀.cache.itemGet k = .ok (s, o) := hitem
  have hat : ∀ s', AtLine { w₀ with cache := s' } := fun s' => ⟨h.ready, h.length, h.nread, h.shake, h.none⟩
  cases o with
  | none =>
    have hremove : (st.at_ ⟨w.cache.clock, i, .delete k⟩).removeKey k = .ok (s, false) := by
      rw [at_eq hclock, ← hcache]
      unfold Cache.removeKey
      rw [hitem]
      rfl
    have hstep : st.step ⟨w.cache.clock, i, .delete k⟩ = .ok { st with cache := s, reply := .notFound } := by
      unfold Service.step
      simp only [hfree, hremove]
      rfl
    obtain ⟨-, rfl⟩ := answer_eq_ok.mp hdelete
    have hlen : (bytes "NOT_FOUND").length + 2 < WRITEBUF_LEN := by decide
    obtain ⟨hphase, hc, hs⟩ := phase_answered (hat s) s hlen endp
    refine .request hstep hc ?_ rfl rfl (hfree ▸ hphase) (hs.trans hsent)
    show Exchange ((st.pending i).map Pending.line) _ .notFound _ _ ((st.pending i).map Pending.line)
    rw [hfree]
    exact .notFound ht
  | some it =>
    obtain ⟨s', hunlink, hdelete⟩ := Result.bind_eq_ok.mp hdelete
    have hremove : (st.at_ ⟨w.cache.clock, i, .delete k⟩).removeKey k = .ok (s'.itemRemove it, true) := by
      rw [at_eq hclock, ← hcache]
      unfold Cache.removeKey
      rw [hitem, Result.ok_bind]
      dsimp only
      rw [hunlink]
      rfl
    have hstep : st.step ⟨w.cache.clock, i, .delete k⟩ =
        .ok { st with cache := s'.itemRemove it, reply := .deleted } := by
      unfold Service.step
      simp only [hfree, hremove]
      rfl
    obtain ⟨-, rfl⟩ := answer_eq_ok.mp hdelete
    have hlen : (bytes "DELETED").length + 2 < WRITEBUF_LEN := by decide
    obtain ⟨hphase, hc, hs⟩ := phase_answered (hat (s'.itemRemove it)) (s'.itemRemove it) hlen endp
    refine .request hstep hc ?_ rfl rfl (hfree ▸ hphase) (hs.trans hsent)
    show Exchange ((st.pending i).map Pending.line) _ .deleted _ _ ((st.pending i).map Pending.line)
    rw [hfree]
    exact .deleted ht

theorem nreadStatSet_ne_error {tokens : List (List UInt8)} (h : VerbFits tokens) :
    nreadStatSet (tokens.getD 0 []) ≠ .error := by
  rcases h with ⟨-, hverb⟩ | ⟨-, hverb⟩
  · generalize tokens.getD 0 [] = verb at hverb
    have hall : ∀ verb ∈ STORE_VERBS, nreadStatSet verb ≠ .error := by decide
    exact hall verb hverb
  · rw [hverb]
    decide

/-- The buffer for the block, if there is memory for it. -/
theorem buffers_acceptLine {it : Ptr} {L : StoreLine} : (w.acceptLine it L).conn.Buffers L.vlen := by
  have hge := L.vlen_ge
  unfold acceptLine Heap.new
  dsimp only
  split_ifs
  · refine .inr ⟨_, rfl, ?_⟩
    rw [List.length_map, List.length_range]
    omega
  · exact .inl rfl

theorem phase_awaiting {P : Pending} (hstate : w.conn.state = .connNread) (hshake : w.conn.flagShake = false)
    (hcmd : w.conn.cmd = P.line.cmd) (hne : P.line.cmd ≠ .error) (hitem : w.conn.item = some P.it)
    (hlen : w.conn.rnbufLen = P.line.vlen) (hnread : w.conn.rnbufRlen = 0)
    (hbuf : w.conn.Buffers P.line.vlen)
    (hrbuf : w.conn.rbuf.length = READBUF_LEN) (hready : w.conn.Ready) (hnone : arrivals w.reads = []) :
    Phase w (some P) [] [] := by
  have hphase := Phase.awaiting hstate hshake hcmd hne hitem hlen hnread hbuf hrbuf hready
    fun chunk hchunk => by
      rw [hnone] at hchunk
      cases hchunk
  rwa [hnone] at hphase

/-- A storage line that gets an item. -/
theorem advance_store {w₀ w₁ : World} {l : List UInt8} (h : AtLine w₀) (hcache : w₀.cache = w.cache)
    (hsent : w₀.sent = w.sent) (hclock : w.cache = { st.cache with clock := w.cache.clock })
    (hfree : st.pending i = none) (hclean : ∀ b ∈ l, b ≠ 0 ∧ b ≠ 10) (hverb : VerbFits (tokensOf l))
    (hserved : ¬OnlyQueues w.cache (tokensOf l)) (hdispatch : w₀.dispatch (tokensOf l) = .ok w₁) (endp : ℕ) :
    Advance st i w [l ++ crlf] [] ((w₁.passLine endp).settle true) := by
  have hlen := hverb.length
  have hne := nreadStatSet_ne_error hverb
  cases dispatch_spec hdispatch with
  | answered _ _ hshort => omega
  | value _ _ hshort => omega
  | longKey hlong => exact absurd (.inl hlong) hserved
  | badFormat _ hparse => exact absurd (.inr ⟨hlen, fun L hL => by rw [hparse] at hL; cases hL⟩) hserved
  | noMemory L s s' item text _ hparse halloc =>
    refine absurd (.inr ⟨hlen, fun L' hL' => ?_⟩) hserved
    cases hparse.symm.trans hL'
    exact ⟨s, hcache ▸ halloc⟩
  | quit hshort => omega
  | ignored hshort => omega
  | empty hother =>
    refine absurd ?_ hother
    rcases hlen with e | e <;> simp [e]
  | accepted L s it _ hparse halloc =>
    have hcmd : L.cmd = nreadStatSet ((tokensOf l).getD 0 []) := cmd_of_parseStoreLine hparse
    have hLne : L.cmd ≠ .error := hcmd ▸ hne
    have hstore : (st.at_ ⟨w.cache.clock, i, .store L hLne⟩).commandStore L = .ok (s, some it) := by
      rw [at_eq hclock, ← hcache]
      unfold Cache.commandStore
      rw [halloc]
      rfl
    have hstep : st.step ⟨w.cache.clock, i, .store L hLne⟩ =
        .ok ⟨s, Function.update st.pending i (some ⟨it, L⟩), .waiting⟩ := by
      unfold Service.step
      simp only [hfree, hstore]
      rfl
    have hpend : Function.update st.pending i (some (⟨it, L⟩ : Pending)) i = some ⟨it, L⟩ :=
      Function.update_self ..
    obtain ⟨stop, now, rlen, heq, -⟩ := settle_passLine
      (w := ((({ w₀.withCmd (tokensOf l) with cache := s } : World).acceptLine it L).markPrecmd (tokensOf l)))
      h.shake endp
    have hbuf : (({ w₀.withCmd (tokensOf l) with cache := s } : World).acceptLine it L).conn.Buffers L.vlen :=
      buffers_acceptLine
    rw [heq]
    refine .request hstep rfl (?_ : Exchange _ _ _ (l ++ crlf) [] _) rfl rfl ?_ hsent
    · show Exchange ((st.pending i).map Pending.line) _ .waiting _ _
        ((Function.update st.pending i (some ⟨it, L⟩) i).map Pending.line)
      rw [hfree, hpend]
      exact .line hLne ⟨hclean, hverb, hparse⟩
    · show Phase _ (Function.update st.pending i (some ⟨it, L⟩) i) _ _
      rw [hpend]
      exact phase_awaiting rfl h.shake hcmd.symm hLne rfl rfl h.nread
        hbuf h.length (h.ready.congr rfl rfl rfl rfl) h.none

/-- A line of two words. -/
theorem advance_verb {w₀ w₁ : World} {l : List UInt8} (h : AtLine w₀) (hsound : Sound w₀.cache g)
    (hsized : Sized w₀.cache g) (hcache : w₀.cache = w.cache) (hsent : w₀.sent = w.sent)
    (hclock : w.cache = { st.cache with clock := w.cache.clock }) (hfree : st.pending i = none)
    (hlen : (tokensOf l).length = 2)
    (hclean : ∀ b ∈ (tokensOf l).getD 1 [], b ≠ 0 ∧ isSeparator b = false)
      (hserved : ¬OnlyQueues w.cache (tokensOf l))
    (hdispatch : w₀.dispatch (tokensOf l) = .ok w₁) (endp : ℕ) :
    Advance st i w [l ++ crlf] [] ((w₁.passLine endp).settle true) := by
  obtain ⟨t, k, ht⟩ := List.length_eq_two.mp hlen
  rw [ht] at hdispatch hclean hserved
  have htwo : w₀.commandTwoPara [t, k] = .ok w₁ := hdispatch
  unfold commandTwoPara at htwo
  split at htwo
  · rename_i hget
    obtain rfl : t = bytes "get" := hget
    have hshort : k.length ≤ KEY_MAX_LENGTH := not_lt.mp fun hlong => hserved (.inl ⟨rfl, rfl, hlong⟩)
    exact advance_get h hsound hsized hcache hsent hclock hfree ht hclean hshort htwo endp
  · rename_i hget
    split at htwo
    · rename_i hdelete
      obtain rfl : t = bytes "delete" := hdelete
      exact advance_delete h hcache hsent hclock hfree ht htwo endp
    · rename_i hdelete
      obtain ⟨-, rfl⟩ := answer_eq_ok.mp htwo
      obtain ⟨hphase, hc, hs⟩ := phase_answered h w₀.cache length_bad_command endp
      exact .aside (hc.trans hcache) (.verb ht hget hdelete) hfree rfl rfl (hfree ▸ hphase) (hs.trans hsent)

/-- The turn in which a line is parsed. -/
theorem advance_parse {chunk l : List UInt8} (hsound : Sound w.cache g) (hsized : Sized w.cache g)
    (hclock : w.cache = { st.cache with clock := w.cache.clock }) (hfree : st.pending i = none)
    (hline : Brings chunk l) (hstate : w.conn.state = .connParseCmd)
    (hrbuf : w.conn.rbuf = chunk ++ zeros (READBUF_LEN - chunk.length))
      (hrlen : w.conn.rbufRlen = chunk.length)
    (hnread : w.conn.rnbufRlen = 0) (hready : w.conn.Ready) (hnone : arrivals w.reads = [])
    (hstrands : ¬w.Strands) (hturn : w.turn = .ok w') : Advance st i w [chunk] [] w' := by
  obtain ⟨hne, hscan, hnext, htokens⟩ := loaded_line hline hrbuf hrlen
  have hserved : ¬OnlyQueues w.cache (tokensOf l) := fun hqueues =>
    hstrands ⟨hstate, hne, _, hscan, hnext, htokens ▸ hqueues⟩
  have hclean : ∀ b ∈ (tokensOf l).getD 1 [], b ≠ 0 ∧ isSeparator b = false := by
    rw [← htokens]
    exact fun b hb => tokensOf_clean hb
  have hlength : w.conn.rbuf.length = READBUF_LEN := by
    have hsmall := hline.small
    rw [hrbuf, List.length_append, length_zeros]
    omega
  unfold turn at hturn
  rw [hstate] at hturn
  obtain ⟨w₁, hdispatch, -, rfl⟩ := parseTurn_alone hne hscan hnext hturn
  rw [htokens] at hdispatch
  have hat : AtLine (w.logged (l.length + 1) [0]) := by
    refine ⟨hready.congr rfl rfl rfl rfl, ?_, hnread, rfl, hnone⟩
    show (w.conn.rbuf.set (cutAt w.conn (l.length + 1)) 0).length = _
    rw [List.length_set, hlength]
  rw [hline.eq]
  rcases hline.asks with hone | htwo | hverb
  · exact advance_word (w := w) hat rfl rfl hfree hone hdispatch _
  · exact advance_verb (w := w) hat hsound hsized rfl rfl hclock hfree htwo hclean hserved hdispatch _
  · exact advance_store (w := w) hat rfl rfl hclock hfree hline.clean hverb hserved hdispatch _

/-- Every turn goes on in this way. -/
theorem Phase.advance (h : Phase w (st.pending i) coming left) (hsound : Sound w.cache g)
    (hsized : Sized w.cache g)
    (hclock : w.cache = { st.cache with clock := w.cache.clock }) (hstrands : ¬w.Strands)
    (hturn : w.turn = .ok w') : Advance st i w coming left w' := by
  generalize hpend : st.pending i = o at h
  cases h with
  | idle hstate hclear hready hcoming =>
    rcases hstate with hstate | hstate
    · exact advance_read hpend hstate hclear hready hcoming hturn
    · exact advance_waiting hpend hstate hclear hready hcoming hturn
  | loaded hline hstate hrbuf hrlen hnread hready hnone =>
    exact advance_parse hsound hsized hclock hpend hline hstate hrbuf hrlen hnread hready hnone hstrands hturn
  | writing hstate hclear hpart hsize hnone => exact advance_write hpend hstate hclear hpart hsize hnone hturn
  | awaiting hstate hshake hcmd hne hitem hlen hnread hbuf hrbuf hready hcoming =>
    exact advance_nread hclock hpend hstate hshake hcmd hne hitem hlen hnread hbuf hrbuf hready hcoming hturn
  | closed hstate => exact advance_closed hstate hturn

end World

end MiniMemcached
