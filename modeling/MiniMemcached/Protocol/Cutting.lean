import MiniMemcached.Protocol.Reading

/-! What the turns of a connection do not ask the socket for. Only the turns that read look
at what the socket has to give; a turn of any other state goes the same way whatever that
is. -/

namespace MiniMemcached

open Memory

namespace World

/-- The connection with other results of `read` to come. -/
def withReads (w : World) (reads : List ReadResult) : World := { w with reads := reads }

variable {reads : List ReadResult}

@[simp] theorem conn_withReads (w : World) : (w.withReads reads).conn = w.conn := rfl

theorem outString_withReads (w : World) (text : List UInt8) :
    (w.withReads reads).outString text = (w.outString text).map (·.withReads reads) := by
  unfold World.outString
  show (w.conn.outString text >>= _) = _
  cases w.conn.outString text <;> rfl

theorem answer_withReads (w : World) (text : List UInt8) :
    (w.withReads reads).answer text = (w.answer text).map (·.withReads reads) := by
  unfold World.answer
  show (w.conn.answer text >>= _) = _
  cases w.conn.answer text <;> rfl

theorem commandOnePara_withReads (w : World) (tokens : List (List UInt8)) :
    (w.withReads reads).commandOnePara tokens = (w.commandOnePara tokens).map (·.withReads reads) := by
  unfold commandOnePara
  split_ifs
  · rfl
  · exact answer_withReads w _
  · exact answer_withReads w _

theorem deleteCommand_withReads (w : World) (tokens : List (List UInt8)) :
    (w.withReads reads).deleteCommand tokens = (w.deleteCommand tokens).map (·.withReads reads) := by
  unfold deleteCommand
  show (w.cache.itemGet (tokens.getD 1 []) >>= _) = _
  cases w.cache.itemGet (tokens.getD 1 []) with
  | error e => rfl
  | ok r =>
    obtain ⟨s, it⟩ := r
    cases it with
    | none => exact answer_withReads { w with cache := s } _
    | some it =>
      show (s.itemUnlink it >>= _) = ((s.itemUnlink it >>= _ : Result World)).map _
      cases s.itemUnlink it with
      | error e => rfl
      | ok s' => exact answer_withReads { w with cache := s'.itemRemove it } _

theorem growWbuf_withReads (w : World) (ntotal : ℤ) :
    (w.withReads reads).growWbuf ntotal = (w.growWbuf ntotal).map (·.withReads reads) := by
  unfold growWbuf withReads
  dsimp only
  split_ifs
  · rcases w.heap.new ntotal.toNat with ⟨heap, _ | wbuf⟩ <;> rfl
  · rfl

theorem getCommand_withReads (w : World) (tokens : List (List UInt8)) :
    (w.withReads reads).getCommand tokens = (w.getCommand tokens).map (·.withReads reads) := by
  unfold getCommand
  dsimp only
  split_ifs
  · exact outString_withReads w _
  · show (w.cache.itemGet (tokens.getD 1 []) >>= _) = _
    cases w.cache.itemGet (tokens.getD 1 []) with
    | error e => rfl
    | ok r =>
      obtain ⟨s, it⟩ := r
      cases it with
      | none => exact answer_withReads { w with cache := s } _
      | some it =>
        have hgrow : (({ w with cache := s } : World).withReads reads).growWbuf
            (toInt (5 + (s.items.nkey it).toNat + 1 + 4 + 2 + s.items.nbytes it)) = _ :=
          growWbuf_withReads { w with cache := s } _
        show ((({ w with cache := s } : World).withReads reads).growWbuf _ >>= _) = _
        rw [hgrow]
        show _ = ((({ w with cache := s } : World).growWbuf _ >>= _ : Result World)).map _
        cases ({ w with cache := s } : World).growWbuf
            (toInt (5 + (s.items.nkey it).toNat + 1 + 4 + 2 + s.items.nbytes it)) with
        | error e => rfl
        | ok w₁ =>
          show (formatValue w₁.conn.wbuf s.items it >>= _) =
            ((formatValue w₁.conn.wbuf s.items it >>= _ : Result World)).map _
          cases formatValue w₁.conn.wbuf s.items it <;> rfl

theorem commandTwoPara_withReads (w : World) (tokens : List (List UInt8)) :
    (w.withReads reads).commandTwoPara tokens = (w.commandTwoPara tokens).map (·.withReads reads) := by
  unfold commandTwoPara
  split_ifs
  · exact getCommand_withReads w tokens
  · exact deleteCommand_withReads w tokens
  · exact answer_withReads w _

/-- The handlers of the lines that are no storage lines. -/
theorem dispatch_withReads (w : World) {tokens : List (List UInt8)} (h5 : tokens.length ≠ 5)
    (h6 : tokens.length ≠ 6) :
    (w.withReads reads).dispatch tokens = (w.dispatch tokens).map (·.withReads reads) := by
  unfold dispatch
  split
  · exact commandOnePara_withReads w tokens
  · exact commandTwoPara_withReads w tokens
  · rfl
  · exact absurd ‹_› h5
  · exact absurd ‹_› h6
  · rfl

theorem connShake_withReads (w : World) (tempEnd : ℕ) (valueLen : ℤ) :
    (w.withReads reads).connShake tempEnd valueLen =
      (w.connShake tempEnd valueLen).map (·.withReads reads) := by
  unfold connShake withReads
  dsimp only
  cases memchr w.conn.rbuf tempEnd (toSizeT valueLen) 13 with
  | outside => rfl
  | missing => rfl
  | found i =>
    show (if w.conn.flagPrecmd then _ else _) = ((if w.conn.flagPrecmd then _ else _ : Result World)).map _
    split_ifs
    · show (w.conn.rnbuf.deref >>= _) = ((w.conn.rnbuf.deref >>= _ : Result World)).map _
      cases w.conn.rnbuf.deref with
      | error e => rfl
      | ok rnbuf =>
        show (load w.conn.rbuf tempEnd (toSizeT (valueLen - 2)) >>= _) =
          ((load w.conn.rbuf tempEnd (toSizeT (valueLen - 2)) >>= _ : Result World)).map _
        cases load w.conn.rbuf tempEnd (toSizeT (valueLen - 2)) with
        | error e => rfl
        | ok value =>
          show (write rnbuf 0 (value ++ [0]) >>= _) =
            ((write rnbuf 0 (value ++ [0]) >>= _ : Result World)).map _
          cases write rnbuf 0 (value ++ [0]) <;> rfl
    · show (load w.conn.rbuf tempEnd (toSizeT valueLen) >>= _) =
        ((load w.conn.rbuf tempEnd (toSizeT valueLen) >>= _ : Result World)).map _
      cases load w.conn.rbuf tempEnd (toSizeT valueLen) with
      | error e => rfl
      | ok rest =>
        show (write w.conn.rbuf 0 (rest ++ [0]) >>= _) =
          ((write w.conn.rbuf 0 (rest ++ [0]) >>= _ : Result World)).map _
        cases write w.conn.rbuf 0 (rest ++ [0]) <;> rfl

/-- The line is no storage line: it has neither five fields nor six. -/
def Short (tokens : List (List UInt8)) : Prop := tokens.length ≠ 5 ∧ tokens.length ≠ 6

instance (tokens : List (List UInt8)) : Decidable (Short tokens) := by
  unfold Short
  infer_instance

/-- What a connection holds when it parses is a line of its own, or it holds nothing. -/
structure Whole (w : World) (e : ℕ) : Prop where
  scan : memchr w.conn.rbuf 0 (toSizeT w.conn.rbufRlen) 10 = .found e
  last : (e : ℤ) + 1 = w.conn.rbufRlen
  short : Short (w.tokensAt e)

theorem tryReadCommand_withReads {w : World} (hshort : w.conn.rbufRlen ≠ 0 → ∃ e, w.Whole e) :
    (w.withReads reads).tryReadCommand =
      w.tryReadCommand.map fun r => (r.1.withReads reads, r.2) := by
  unfold tryReadCommand
  show (if w.conn.rbufRlen = 0 then _ else _) = _
  split_ifs with hrlen
  · rfl
  · obtain ⟨e, hscan, -, h5, h6⟩ := hshort hrlen
    have hscan' : memchr (w.withReads reads).conn.rbuf 0 (toSizeT (w.withReads reads).conn.rbufRlen) 10 =
        .found e := hscan
    rw [hscan, hscan']
    dsimp only
    show (load w.conn.rbuf (e + 1) 1 >>= _) =
      ((load w.conn.rbuf (e + 1) 1 >>= _ : Result (World × Bool))).map _
    cases load w.conn.rbuf (e + 1) 1 with
    | error err => rfl
    | ok next =>
      have hproc : ((w.withReads reads).cutLine e next).processCommand =
          (w.cutLine e next).processCommand.map (·.withReads reads) :=
        dispatch_withReads (w.logged e next) h5 h6
      show (((w.withReads reads).cutLine e next).processCommand >>= _) =
        (((w.cutLine e next).processCommand >>= _ : Result (World × Bool))).map _
      rw [hproc]
      cases (w.cutLine e next).processCommand with
      | error err => rfl
      | ok w₁ =>
        show (if w₁.conn.flagShake then _ else _) =
          ((if w₁.conn.flagShake then _ else _ : Result (World × Bool))).map _
        split_ifs
        · show ((w₁.withReads reads).connShake (e + 1) (w₁.conn.rbufRlen - (e + 1)) >>= _) =
            ((w₁.connShake (e + 1) (w₁.conn.rbufRlen - (e + 1)) >>= _ : Result (World × Bool))).map _
          rw [connShake_withReads]
          cases w₁.connShake (e + 1) (w₁.conn.rbufRlen - (e + 1)) <;> rfl
        · rfl

theorem settle_withReads (w : World) (ret : Bool) :
    (w.withReads reads).settle ret = (w.settle ret).withReads reads := by
  unfold settle setState setStop withReads
  cases ret
  all_goals
    dsimp only
    split_ifs <;> simp_all

theorem writeLoop_withReads (ws : List WriteResult) (w : World) :
    writeLoop ws (w.withReads reads) = (writeLoop ws w).map fun r => (r.1.withReads reads, r.2) := by
  induction ws generalizing w with
  | nil =>
    unfold writeLoop withReads
    dsimp only
    split_ifs <;> rfl
  | cons r rest ih =>
    unfold writeLoop withReads
    dsimp only
    by_cases hnone : w.conn.wbufLen - w.conn.wbufWlen = 0
    · rw [if_pos hnone, if_pos hnone]
      rfl
    rw [if_neg hnone, if_neg hnone]
    cases r with
    | again => rfl
    | failed => rfl
    | wrote n =>
      dsimp only
      by_cases hzero : min n (toSizeT (w.conn.wbufLen - w.conn.wbufWlen)) = 0
      · rw [if_pos hzero, if_pos hzero]
        rfl
      rw [if_neg hzero, if_neg hzero]
      cases w.conn.wbufNow with
      | none => rfl
      | some now =>
        dsimp only
        cases load w.conn.wbuf now (min n (toSizeT (w.conn.wbufLen - w.conn.wbufWlen))) with
        | error e => rfl
        | ok taken =>
          simp only [Result.ok_bind]
          by_cases hall : ((min n (toSizeT (w.conn.wbufLen - w.conn.wbufWlen)) : ℕ) : ℤ) =
              w.conn.wbufLen - w.conn.wbufWlen
          · rw [if_pos hall, if_pos hall]
            generalize rewindWbuf _ = c
            cases c <;> rfl
          · rw [if_neg hall, if_neg hall]
            exact ih { w with
              sent := w.sent ++ taken
              conn := { w.conn with
                wbufWlen := w.conn.wbufWlen + (min n (toSizeT (w.conn.wbufLen - w.conn.wbufWlen)) : ℕ)
                wbufNow := some (now + min n (toSizeT (w.conn.wbufLen - w.conn.wbufWlen))) } }

/-- A turn that does not read goes the same way whatever the socket has. -/
theorem turn_withReads {w : World} (hread : w.conn.state ≠ .connRead) (hnread : w.conn.state ≠ .connNread)
    (hwhole : w.conn.state = .connParseCmd → w.conn.rbufRlen ≠ 0 → ∃ e, w.Whole e) :
    (w.withReads reads).turn = w.turn.map (·.withReads reads) := by
  unfold turn
  rw [conn_withReads]
  cases hstate : w.conn.state with
  | connListening => rfl
  | connRead => exact absurd hstate hread
  | connNread => exact absurd hstate hnread
  | connWaiting => rfl
  | connClosed => rfl
  | connParseCmd =>
    dsimp only
    unfold parseTurn
    rw [tryReadCommand_withReads (hwhole hstate)]
    cases w.tryReadCommand with
    | error e => rfl
    | ok r => exact congrArg Except.ok (settle_withReads r.1 r.2)
  | connWrite =>
    dsimp only
    unfold writeTurn writeActivateRead
    rw [show writeLoop (w.withReads reads).writes (w.withReads reads) = _ from writeLoop_withReads w.writes w]
    cases writeLoop w.writes w with
    | error e => rfl
    | ok r =>
      obtain ⟨w₁, res⟩ := r
      cases res <;> rfl

/-! Reading takes the bytes of the pieces in their order, and the same bytes are taken in the
same way when they come in one piece. -/

/-- What a socket gives that has these pieces. -/
def dataOf (ps : List (List UInt8)) : List ReadResult := (ps.filter (· ≠ [])).map .data

@[simp] theorem dataOf_nil : dataOf [] = [] := rfl

@[simp] theorem dataOf_nil_cons (ps : List (List UInt8)) : dataOf ([] :: ps) = dataOf ps := rfl

theorem dataOf_cons {p : List UInt8} (hp : p ≠ []) (ps : List (List UInt8)) :
    dataOf (p :: ps) = .data p :: dataOf ps := by
  unfold dataOf
  rw [List.filter_cons_of_pos (by simpa using hp), List.map_cons]

theorem dataOf_append (ps qs : List (List UInt8)) : dataOf (ps ++ qs) = dataOf ps ++ dataOf qs := by
  unfold dataOf
  rw [List.filter_append, List.map_append]

/-- Reads that all have bytes. -/
theorem dataOf_bytes {rs : List ReadResult} (h : ∀ r ∈ rs, r.bytes ≠ []) :
    dataOf (rs.map ReadResult.bytes) = rs := by
  induction rs with
  | nil => rfl
  | cons r rs ih =>
    have hr := h r List.mem_cons_self
    rw [List.map_cons, dataOf_cons hr, ih fun r hr => h r (List.mem_cons_of_mem _ hr)]
    cases r with
    | data bs => rfl
    | again => exact absurd rfl hr
    | failed => exact absurd rfl hr

theorem dataOf_of_ne_nil {ps : List (List UInt8)} (h : ∀ p ∈ ps, p ≠ []) : dataOf ps = ps.map .data := by
  unfold dataOf
  rw [List.filter_eq_self.mpr fun p hp => by simpa using h p hp]

/-- The socket has nothing, or a first piece. -/
theorem dataOf_cases (ps : List (List UInt8)) : dataOf ps = [] ∧ ps.flatten = [] ∨
    ∃ p ps', p ≠ [] ∧ dataOf ps = dataOf (p :: ps') ∧ ps.flatten = p ++ ps'.flatten := by
  induction ps with
  | nil => exact .inl ⟨rfl, rfl⟩
  | cons p ps ih =>
    by_cases hp : p = []
    · subst hp
      exact ih
    · exact .inr ⟨p, ps, hp, rfl, rfl⟩

theorem dataOf_of_flatten {ps : List (List UInt8)} (h : ps.flatten = []) : dataOf ps = [] := by
  rcases dataOf_cases ps with ⟨hnil, -⟩ | ⟨p, ps', hp, -, hflat⟩
  · exact hnil
  · rw [h] at hflat
    exact absurd (List.append_eq_nil_iff.mp hflat.symm).1 hp

/-- A piece is read as far as there is room. -/
theorem read_dataOf (w : World) {n : ℕ} (hn : n ≠ 0) {p : List UInt8} (hp : p ≠ []) (ps : List (List UInt8)) :
    (w.withReads (dataOf (p :: ps))).read n =
      (w.withReads (dataOf (p.drop n :: ps)), .data (p.take n)) := by
  rw [dataOf_cons hp]
  unfold World.read withReads
  rw [if_neg hn]
  dsimp only
  split_ifs with hle
  · rw [List.drop_eq_nil_of_le hle, List.take_of_length_le hle]
    rfl
  · have hdrop : p.drop n ≠ [] := by
      intro hnil
      have := List.drop_eq_nil_iff.mp hnil
      omega
    rw [dataOf_cons hdrop]

/-- The room for a read. -/
def roomOf (w : World) : ℕ := (capacity w.conn.rbuf - w.conn.rbufRlen).toNat

theorem toSizeT_room {w : World} (h0 : 0 ≤ w.conn.rbufRlen) (hlt : w.conn.rbufRlen < capacity w.conn.rbuf)
    (hlen : w.conn.rbuf.length < 2 ^ 31) : toSizeT (capacity w.conn.rbuf - w.conn.rbufRlen) = w.roomOf := by
  unfold capacity at hlt
  exact toSizeT_of_bounds (by unfold capacity; omega) (by unfold capacity; omega)

/-- A round whose read brings bytes. -/
theorem readRound_of_read {w : World} {bs : List UInt8}
    (hread : w.read (toSizeT (capacity w.conn.rbuf - w.conn.rbufRlen)) =
    ({ w with reads := reads }, .data bs))
    (hbs : bs ≠ []) (h0 : 0 ≤ w.conn.rbufRlen)
      (hroom : w.conn.rbufRlen.toNat + bs.length ≤ w.conn.rbuf.length) :
    w.readRound = .ok (w.gotBytes reads bs,
      if (bs.length : ℤ) = capacity w.conn.rbuf - w.conn.rbufRlen then .full else .part) := by
  obtain ⟨b, rest, rfl⟩ := List.exists_cons_of_ne_nil hbs
  unfold readRound
  dsimp only
  rw [hread]
  dsimp only
  rw [if_neg (not_lt.mpr h0), write_eq_ok.mpr ⟨hroom, rfl⟩]
  rfl

/-- A round that finds a piece. -/
theorem readRound_dataOf {w : World} (h0 : 0 ≤ w.conn.rbufRlen) (hlt : w.conn.rbufRlen < capacity w.conn.rbuf)
    (hlen : w.conn.rbuf.length < 2 ^ 31) {p : List UInt8} (hp : p ≠ []) (ps : List (List UInt8)) :
    (w.withReads (dataOf (p :: ps))).readRound =
      .ok (w.gotBytes (dataOf (p.drop w.roomOf :: ps)) (p.take w.roomOf),
        if w.roomOf ≤ p.length then .full else .part) := by
  have hn : w.roomOf ≠ 0 := by
    unfold roomOf
    omega
  have hread := read_dataOf w hn hp ps
  have hne : p.take w.roomOf ≠ [] := by
    rw [Ne, List.take_eq_nil_iff, not_or]
    exact ⟨hn, hp⟩
  have hlength : (p.take w.roomOf).length = min w.roomOf p.length := List.length_take
  have hfits : w.conn.rbufRlen.toNat + (p.take w.roomOf).length ≤ w.conn.rbuf.length := by
    unfold capacity at hlt
    unfold roomOf capacity at hlength ⊢
    omega
  have hfull : ((p.take w.roomOf).length : ℤ) = capacity w.conn.rbuf - w.conn.rbufRlen ↔
    w.roomOf ≤ p.length := by
    rw [hlength]
    unfold roomOf
    omega
  have hround : (w.withReads (dataOf (p :: ps))).readRound =
      .ok ((w.withReads (dataOf (p :: ps))).gotBytes (dataOf (p.drop w.roomOf :: ps)) (p.take w.roomOf), _) :=
    readRound_of_read (by rw [conn_withReads, toSizeT_room h0 hlt hlen]; exact hread) hne h0 hfits
  rw [hround]
  simp only [conn_withReads, hfull]
  rfl

/-- A round that finds nothing. -/
theorem readRound_empty {w : World} (h0 : 0 ≤ w.conn.rbufRlen) (hlt : w.conn.rbufRlen < capacity w.conn.rbuf)
    (hlen : w.conn.rbuf.length < 2 ^ 31) : (w.withReads []).readRound = .ok (w.withReads [], .again) := by
  have hn : w.roomOf ≠ 0 := by
    unfold roomOf
    omega
  have hread : (w.withReads []).read w.roomOf = (w.withReads [], .again) := if_neg hn
  rw [← toSizeT_room h0 hlt hlen] at hread
  unfold readRound
  dsimp only
  rw [show (w.withReads []).read (toSizeT (capacity (w.withReads []).conn.rbuf -
    (w.withReads []).conn.rbufRlen)) = _ from hread]

/-- The loop takes the bytes `T` of the pieces, and it takes them in the same way when they
are the first piece. -/
structure Draws (fuel numAlloc : ℕ) (st : ReadState) (w : World) (ps : List (List UInt8)) (w' : World)
    (res : ReadState) (T : List UInt8) (rest : List (List UInt8)) : Prop where
  got : res = .received ∨ res = st ∧ T = []
  bytes : ps.flatten = T ++ rest.flatten
  held : w'.held = w.held ++ T
  nonneg : 0 ≤ w'.conn.rbufRlen
  le : w'.conn.rbufRlen ≤ capacity w'.conn.rbuf
  pos : 0 < w'.conn.rbuf.length
  loop : readLoop fuel numAlloc st (w.withReads (dataOf ps)) = .ok (w'.withReads (dataOf rest), res)
  joined : ∀ ls, (rest.flatten = [] → ls.flatten = []) →
    readLoop fuel numAlloc st (w.withReads (dataOf (T :: ls))) = .ok (w'.withReads (dataOf ls), res)

section Rounds

variable {fuel numAlloc : ℕ} {st : ReadState} {w w' : World} (hlt : w.conn.rbufRlen < capacity w.conn.rbuf)
include hlt

theorem readLoop_again (hround : w.readRound = .ok (w', .again)) :
    readLoop (fuel + 1) numAlloc st w = .ok (w', st) := by
  have hnot : ¬capacity w.conn.rbuf ≤ w.conn.rbufRlen := not_le.mpr hlt
  have hroom : w.makeRoom = (w, true) := if_neg hnot
  simp only [readLoop, hnot, hroom, hround, false_and, if_false]
  rfl

theorem readLoop_part (hround : w.readRound = .ok (w', .part)) :
    readLoop (fuel + 1) numAlloc st w = .ok (w', .received) := by
  have hnot : ¬capacity w.conn.rbuf ≤ w.conn.rbufRlen := not_le.mpr hlt
  have hroom : w.makeRoom = (w, true) := if_neg hnot
  simp only [readLoop, hnot, hroom, hround, false_and, if_false]
  rfl

theorem readLoop_fill (hround : w.readRound = .ok (w', .full)) :
    readLoop (fuel + 1) numAlloc st w = readLoop fuel numAlloc .received w' := by
  have hnot : ¬capacity w.conn.rbuf ≤ w.conn.rbufRlen := not_le.mpr hlt
  have hroom : w.makeRoom = (w, true) := if_neg hnot
  simp only [readLoop, hnot, hroom, hround, false_and, if_false]
  rfl

end Rounds

/-- The loop of a buffer with room, from what it does behind a buffer that was filled. -/
theorem draws_room {fuel numAlloc : ℕ} (st : ReadState) {w : World} (h0 : 0 ≤ w.conn.rbufRlen)
    (hlt : w.conn.rbufRlen < capacity w.conn.rbuf) (hlen : w.conn.rbuf.length < 2 ^ 31)
    (hnext : ∀ bs ps, bs.length = w.roomOf → ∃ w' res T rest,
      Draws fuel numAlloc .received (w.gotBytes w.reads bs) ps w' res T rest) (ps : List (List UInt8)) :
    ∃ w' res T rest, Draws (fuel + 1) numAlloc st w ps w' res T rest := by
  have hpos : 0 < w.conn.rbuf.length := by
    unfold capacity at hlt
    omega
  have hfits : ∀ bs : List UInt8, bs.length ≤ w.roomOf → (w.gotBytes w.reads bs).held = w.held ++ bs ∧
      (w.gotBytes w.reads bs).conn.rbuf.length = w.conn.rbuf.length := by
    intro bs hbs
    unfold roomOf capacity at hbs
    have hroom : w.conn.rbufRlen.toNat + bs.length ≤ w.conn.rbuf.length := by
      unfold capacity at hlt
      omega
    have hto : (w.gotBytes w.reads bs).conn.rbufRlen.toNat = w.conn.rbufRlen.toNat + bs.length := by
      show (w.conn.rbufRlen + bs.length).toNat = _
      omega
    refine ⟨?_, length_put hroom⟩
    unfold World.held
    rw [hto]
    exact slice_put_behind (by omega)
  rcases dataOf_cases ps with ⟨hdry, hflat⟩ | ⟨p, ps', hp, hdata, hflat⟩
  · have hround := readRound_empty h0 hlt hlen
    refine ⟨w, st, [], ps, .inr ⟨rfl, rfl⟩, rfl, (List.append_nil _).symm, h0, hlt.le, hpos,
      ?_, fun ls hls => ?_⟩
    · rw [hdry]
      exact readLoop_again (w := w.withReads []) hlt hround
    · rw [dataOf_nil_cons, dataOf_of_flatten (hls hflat)]
      exact readLoop_again (w := w.withReads []) hlt hround
  · have hround := fun ls => readRound_dataOf h0 hlt hlen hp ls
    rcases le_or_gt w.roomOf p.length with hfull | hpart
    · -- the round fills the buffer, and the rest of the piece is left for the next
      have hbs : (p.take w.roomOf).length = w.roomOf := by
        rw [List.length_take]
        omega
      obtain ⟨w', res, T, rest, hd⟩ := hnext (p.take w.roomOf) (p.drop w.roomOf :: ps') hbs
      have hne : p.take w.roomOf ++ T ≠ [] := by
        intro hnil
        rw [(List.append_eq_nil_iff.mp hnil).1] at hbs
        have : w.roomOf = 0 := hbs.symm
        unfold roomOf at this
        omega
      have hres : res = .received := by
        rcases hd.got with hres | ⟨hres, -⟩ <;> exact hres
      refine ⟨w', res, p.take w.roomOf ++ T, rest, .inl hres, ?_, ?_, hd.nonneg, hd.le, hd.pos,
        ?_, fun ls hls => ?_⟩
      · have hbytes := hd.bytes
        rw [List.flatten_cons] at hbytes
        rw [hflat, List.append_assoc, ← hbytes, ← List.append_assoc, List.take_append_drop]
      · rw [hd.held, (hfits _ hbs.le).1, List.append_assoc]
      · have hround := hround ps'
        rw [if_pos hfull] at hround
        rw [hdata, readLoop_fill (w := w.withReads (dataOf (p :: ps'))) hlt hround]
        exact hd.loop
      · have htake : (p.take w.roomOf ++ T).take w.roomOf = p.take w.roomOf := by
          rw [List.take_append_of_le_length hbs.ge, List.take_of_length_le hbs.le]
        have hdrop : (p.take w.roomOf ++ T).drop w.roomOf = T := by
          rw [List.drop_append_of_le_length hbs.ge, List.drop_of_length_le hbs.le, List.nil_append]
        have hround' := readRound_dataOf h0 hlt hlen hne ls
        rw [htake, hdrop, if_pos (by rw [List.length_append]; omega)] at hround'
        rw [readLoop_fill (w := w.withReads (dataOf ((p.take w.roomOf ++ T) :: ls))) hlt hround']
        exact hd.joined ls hls
    · -- the piece is shorter than the room, and the loop ends with it
      have htake : p.take w.roomOf = p := List.take_of_length_le hpart.le
      have hdrop : p.drop w.roomOf = [] := List.drop_of_length_le hpart.le
      have hround' : ∀ ls, (w.withReads (dataOf (p :: ls))).readRound =
          .ok (w.gotBytes (dataOf ls) p, .part) := by
        intro ls
        rw [hround ls, htake, hdrop, if_neg (not_le.mpr hpart), dataOf_nil_cons]
      obtain ⟨hheld, hlength⟩ := hfits p hpart.le
      refine ⟨w.gotBytes w.reads p, .received, p, ps', .inl rfl, hflat, hheld, ?_, ?_, ?_, ?_, fun ls _ => ?_⟩
      · show 0 ≤ w.conn.rbufRlen + p.length
        omega
      · show w.conn.rbufRlen + p.length ≤ ((w.gotBytes w.reads p).conn.rbuf.length : ℤ)
        rw [hlength]
        unfold roomOf capacity at hpart
        omega
      · rw [hlength]
        exact hpos
      · rw [hdata]
        exact readLoop_part (w := w.withReads _) hlt (hround' ps')
      · exact readLoop_part (w := w.withReads _) hlt (hround' ls)

/-- A doubling that gets its memory. -/
theorem growRbuf_had {w : World} (hmem : w.heap.allocOk w.heap.calls = true)
    (hlen : w.conn.rbuf.length * 2 < 2 ^ 31) :
    ∃ w', w.growRbuf = (w', true) ∧ (∀ reads, (w.withReads reads).growRbuf = (w'.withReads reads, true)) ∧
      w'.heap.allocOk = w.heap.allocOk ∧ w'.heap.calls = w.heap.calls + 1 := by
  have hnew : ∀ w₁ : World, w₁.heap = w.heap → w₁.conn = w.conn → w₁.growRbuf =
      ({ w₁ with
          heap := { w.heap with calls := w.heap.calls + 1 }
          conn := { w.conn with
            rbuf := put ((List.range (w.conn.rbuf.length * 2)).map
              (w.heap.garbage w.heap.calls)) 0 w.conn.rbuf
            rbufNow := 0 } }, true) := by
    intro w₁ hheap hconn
    unfold growRbuf Heap.new
    rw [hheap, hconn, if_pos ⟨hlen, hmem⟩]
  exact ⟨_, hnew w rfl rfl, fun reads => hnew (w.withReads reads) rfl rfl, rfl, rfl⟩

/-- A round that has filled the buffer. -/
theorem gotBytes_filled {w : World} {bs : List UInt8} (h0 : 0 ≤ w.conn.rbufRlen)
    (hlt : w.conn.rbufRlen < capacity w.conn.rbuf) (hbs : bs.length = w.roomOf) :
    (w.gotBytes w.reads bs).conn.rbuf.length = w.conn.rbuf.length ∧
      (w.gotBytes w.reads bs).conn.rbufRlen = capacity (w.gotBytes w.reads bs).conn.rbuf := by
  unfold roomOf capacity at hbs
  unfold capacity at hlt ⊢
  have hsame : (w.gotBytes w.reads bs).conn.rbuf.length = w.conn.rbuf.length := length_put (by omega)
  refine ⟨hsame, ?_⟩
  show w.conn.rbufRlen + bs.length = ((w.gotBytes w.reads bs).conn.rbuf.length : ℤ)
  omega

/-- The memory for the doublings that are left is had. -/
def Roomy (w : World) (numAlloc : ℕ) : Prop :=
  (∀ k < 4 - numAlloc, w.heap.allocOk (w.heap.calls + k) = true) ∧
    w.conn.rbuf.length * 2 ^ (4 - numAlloc) < 2 ^ 31

/-- The loop of a full buffer. -/
theorem draws_full {fuel numAlloc : ℕ} (st : ReadState) {w : World} (hmem : w.Roomy numAlloc)
    (h0 : 0 ≤ w.conn.rbufRlen) (hle : w.conn.rbufRlen ≤ capacity w.conn.rbuf) (hpos : 0 < w.conn.rbuf.length)
    (hfull : capacity w.conn.rbuf ≤ w.conn.rbufRlen) (halloc : numAlloc ≤ 4) (hfuel : 5 ≤ fuel + numAlloc)
    (ps : List (List UInt8)) : ∃ w' res T rest, Draws fuel numAlloc st w ps w' res T rest := by
  induction fuel generalizing numAlloc st w ps with
  | zero => omega
  | succ fuel ih =>
    by_cases hmore : numAlloc = 4
    · -- no more doublings: the loop ends with what it has
      have hend : ∀ reads, readLoop (fuel + 1) numAlloc st (w.withReads reads) = .ok
        (w.withReads reads, st) := by
        intro reads
        rw [readLoop, if_pos ⟨hfull, hmore⟩]
      exact ⟨w, st, [], ps, .inr ⟨rfl, rfl⟩, rfl, (List.append_nil _).symm, h0, hle, hpos, hend _,
        fun ls _ => by rw [dataOf_nil_cons]; exact hend _⟩
    · obtain ⟨hcalls, hlen⟩ := hmem
      have hpow : (2 : ℕ) ^ (4 - numAlloc) = 2 * 2 ^ (4 - (numAlloc + 1)) := by
        rw [← pow_succ']
        congr 1
        omega
      have hone : 1 ≤ 2 ^ (4 - (numAlloc + 1)) := Nat.one_le_two_pow
      rw [hpow, ← mul_assoc] at hlen
      have hdouble : w.conn.rbuf.length * 2 < 2 ^ 31 := (Nat.le_mul_of_pos_right _ hone).trans_lt hlen
      have hfirst : w.heap.allocOk w.heap.calls = true := hcalls 0 (by omega)
      obtain ⟨w₁, hgrow, hgrow', hallocOk, hcount⟩ := growRbuf_had hfirst hdouble
      obtain ⟨hgrown, hlt, hlen₁⟩ := growRbuf_gathered h0 hle hpos hgrow
      have hlength : w₁.conn.rbuf.length = w.conn.rbuf.length * 2 := by
        rw [hgrown.length, pow_one, mul_comm]
      have hheld : w₁.held = w.held := by simpa using hgrown.held
      have hroomy : ∀ w₂ : World, w₂.heap = w₁.heap → w₂.conn.rbuf.length = w₁.conn.rbuf.length →
          w₂.Roomy (numAlloc + 1) := by
        intro w₂ hheap hlength₂
        refine ⟨fun k hk => ?_, ?_⟩
        · rw [hheap, hallocOk, hcount, Nat.add_right_comm, Nat.add_assoc]
          exact hcalls (k + 1) (by omega)
        · rw [hlength₂, hlength]
          exact hlen
      have hloop : ∀ reads, readLoop (fuel + 1) numAlloc st (w.withReads reads) =
          readLoop (fuel + 1) (numAlloc + 1) st (w₁.withReads reads) := by
        intro reads
        have hroom : (w.withReads reads).makeRoom = (w₁.withReads reads, true) :=
          (if_pos hfull).trans (hgrow' reads)
        exact (readLoop_grown fuel (w := w.withReads reads) st hfull hmore hroom hlt).1
      have hnext : ∀ bs ps', bs.length = w₁.roomOf → ∃ w' res T rest,
          Draws fuel (numAlloc + 1) .received (w₁.gotBytes w₁.reads bs) ps' w' res T rest := by
        intro bs ps' hbs
        obtain ⟨hsame, hrlen⟩ := gotBytes_filled hgrown.ge hlt hbs
        refine @ih (numAlloc + 1) .received (w₁.gotBytes w₁.reads bs)
          (hroomy _ rfl hsame) ?_ hrlen.le ?_ hrlen.ge
          (by omega) (by omega) ps'
        · rw [hrlen]
          exact Int.natCast_nonneg _
        · rw [hsame, hlength]
          omega
      obtain ⟨w', res, T, rest, hd⟩ := draws_room st hgrown.ge hlt hlen₁ hnext ps
      exact ⟨w', res, T, rest, hd.got, hd.bytes, hd.held.trans (by rw [hheld]), hd.nonneg, hd.le, hd.pos,
        (hloop _).trans hd.loop, fun ls hls => (hloop _).trans (hd.joined ls hls)⟩

/-- The loop of `try_read_tcp`. -/
theorem readLoop_draws (st : ReadState) {w : World} (hmem : w.Roomy 0)
    (h0 : 0 ≤ w.conn.rbufRlen) (hle : w.conn.rbufRlen ≤ capacity w.conn.rbuf) (hpos : 0 < w.conn.rbuf.length)
    (ps : List (List UInt8)) : ∃ w' res T rest, Draws 6 0 st w ps w' res T rest := by
  rcases le_or_gt (capacity w.conn.rbuf) w.conn.rbufRlen with hfull | hlt
  · exact draws_full st hmem h0 hle hpos hfull (by omega) (by omega) ps
  · refine draws_room st h0 hlt (by have := hmem.2; omega) (fun bs ps' hbs => ?_) ps
    obtain ⟨hsame, hrlen⟩ := gotBytes_filled h0 hlt hbs
    have hmem' : (w.gotBytes w.reads bs).Roomy 0 := ⟨hmem.1, by rw [hsame]; exact hmem.2⟩
    refine draws_full .received hmem' ?_ hrlen.le ?_ hrlen.ge (by omega) (by omega) ps'
    · rw [hrlen]
      exact Int.natCast_nonneg _
    · rw [hsame]
      exact hpos

end World

end MiniMemcached
