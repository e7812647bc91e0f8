import MiniMemcached.Protocol.Answers
import Mathlib.Data.List.TakeWhile

/-! What a `get` puts on the socket. `write_activate_read` sends `wbuf_len` bytes from the
front of `wbuf`, however the socket cuts them up; `get_command` leaves `wbuf_len` as it
found it, which is the capacity or the length of an answer queued before. -/

namespace MiniMemcached

open Memory Runs

/-! ### Tokens -/

theorem of_mem_splitOnP {α : Type*} {p : α → Bool} {l piece : List α} {a : α}
    (hpiece : piece ∈ l.splitOnP p) (ha : a ∈ piece) : a ∈ l ∧ p a = false := by
  induction l generalizing piece with
  | nil =>
    rw [List.splitOnP_nil, List.mem_singleton] at hpiece
    rw [hpiece] at ha
    cases ha
  | cons x l ih =>
    rw [List.splitOnP_cons_eq_if_modifyHead] at hpiece
    split at hpiece
    · rcases List.mem_cons.mp hpiece with rfl | hpiece
      · cases ha
      · exact ⟨List.mem_cons_of_mem x (ih hpiece ha).1, (ih hpiece ha).2⟩
    · rename_i hx
      obtain ⟨first, rest, hsplit⟩ := List.exists_cons_of_ne_nil (List.splitOnP_ne_nil p l)
      rw [hsplit] at hpiece ih
      rcases List.mem_cons.mp hpiece with rfl | hpiece
      · rcases List.mem_cons.mp ha with rfl | ha
        · exact ⟨List.mem_cons_self, by simpa using hx⟩
        · have hfirst := ih List.mem_cons_self ha
          exact ⟨List.mem_cons_of_mem x hfirst.1, hfirst.2⟩
      · have hrest := ih (List.mem_cons_of_mem first hpiece) ha
        exact ⟨List.mem_cons_of_mem x hrest.1, hrest.2⟩

/-- The letters of a token of a line. -/
theorem tokensOf_clean {line : List UInt8} {i : ℕ} {b : UInt8}
    (hb : b ∈ (tokensOf (cstring line)).getD i []) : b ≠ 0 ∧ isSeparator b = false := by
  rw [List.getD_eq_getElem?_getD] at hb
  cases htoken : (tokensOf (cstring line))[i]? with
  | none => simp [htoken] at hb
  | some token =>
    rw [htoken, Option.getD_some] at hb
    have hmem := List.mem_of_getElem? htoken
    obtain ⟨hline, hsep⟩ := of_mem_splitOnP (List.mem_filter.mp hmem).1 hb
    exact ⟨by simpa using List.mem_takeWhile_imp hline, hsep⟩

/-! ### The writer -/

/-- Nothing waits in `wbuf`, whose length is said to be what it was made with or what
the answer before took. -/
structure Conn.Rested (c : Conn) : Prop where
  now : c.wbufNow = some 0
  wlen : c.wbufWlen = 0
  pos : 0 < c.wbufLen
  le : c.wbufLen ≤ WRITEBUF_LEN
  room : WRITEBUF_LEN ≤ c.wbuf.length

/-- A message of `wbuf_len` bytes stands at the front of `wbuf`, and `k` bytes of it were sent. -/
structure Conn.Sending (c : Conn) (msg : List UInt8) (k : ℕ) : Prop where
  length : c.wbufLen = msg.length
  front : msg <+: c.wbuf
  small : msg.length ≤ WRITEBUF_LEN
  room : WRITEBUF_LEN ≤ c.wbuf.length
  lt : k < msg.length
  wlen : c.wbufWlen = k
  now : c.wbufNow = some k

/-- The socket takes some bytes, or has no room for now. -/
def WriteResult.Takes : WriteResult → Prop
  | .wrote n => 0 < n
  | .again => True
  | .failed => False

/-- The same for a message of any length that an `int` can have. -/
structure Conn.Partway (c : Conn) (msg : List UInt8) (k : ℕ) : Prop where
  length : c.wbufLen = msg.length
  front : msg <+: c.wbuf
  int : msg.length < 2 ^ 31
  room : WRITEBUF_LEN ≤ c.wbuf.length
  lt : k < msg.length
  wlen : c.wbufWlen = k
  now : c.wbufNow = some k

theorem Conn.Sending.partway {c : Conn} {msg : List UInt8} {k : ℕ} (h : c.Sending msg k) :
    c.Partway msg k := by
  have hsmall := h.small
  unfold WRITEBUF_LEN at hsmall
  exact ⟨h.length, h.front, by omega, h.room, h.lt, h.wlen, h.now⟩

theorem Conn.Partway.sending {c : Conn} {msg : List UInt8} {k : ℕ} (h : c.Partway msg k)
    (hsmall : msg.length ≤ WRITEBUF_LEN) : c.Sending msg k :=
  ⟨h.length, h.front, hsmall, h.room, h.lt, h.wlen, h.now⟩

theorem Conn.Rested.congr {c c' : Conn} (h : c.Rested) (hbuf : c'.wbuf = c.wbuf)
    (hnow : c'.wbufNow = c.wbufNow) (hlen : c'.wbufLen = c.wbufLen) (hwlen : c'.wbufWlen = c.wbufWlen) :
    c'.Rested :=
  ⟨hnow.trans h.now, hwlen.trans h.wlen, hlen ▸ h.pos, hlen ▸ h.le, hbuf ▸ h.room⟩

namespace World

theorem slice_of_front {msg b : List UInt8} {off n : ℕ} (h : msg <+: b) (hle : off + n ≤ msg.length) :
    slice b off n = slice msg off n := by
  obtain ⟨rest, rfl⟩ := h
  unfold slice
  rw [List.drop_append_of_le_length (by omega), List.take_append_of_le_length (by simp; omega)]

theorem slice_append_drop (msg : List UInt8) (k n : ℕ) :
    slice msg k n ++ msg.drop (k + n) = msg.drop k := by
  unfold slice
  rw [← List.drop_drop, List.take_append_drop]

/-- The connection behind a `write` that took `n` bytes. -/
def tookBytes (w : World) (msg : List UInt8) (k n : ℕ) : World :=
  { w with
    sent := w.sent ++ slice msg k n
    conn := { w.conn with wbufWlen := w.conn.wbufWlen + n, wbufNow := some (k + n) } }

/-- The connection behind the last byte of an answer. -/
def sentAll (w : World) (msg : List UInt8) (k : ℕ) (rest : List WriteResult) : World :=
  { w with
    sent := w.sent ++ msg.drop k
    writes := rest
    conn := ({ w.conn with
      wbuf := put w.conn.wbuf 0 (zeros WRITEBUF_LEN)
      wbufLen := WRITEBUF_LEN, wbufWlen := 0, wbufNow := some 0 } : Conn).startRead }

/-- What a `write` that takes bytes comes to: the message is out, or the loop goes on. -/
theorem writeLoop_wrote {msg : List UInt8} {k n : ℕ} (rest : List WriteResult) {w : World}
    (h : w.conn.Partway msg k) (hn : 0 < n) :
    writeLoop (.wrote n :: rest) w =
      if msg.length - k ≤ n then .ok (w.sentAll msg k rest, .all)
      else writeLoop rest (w.tookBytes msg k n) := by
  have hlt := h.lt
  have hlen := h.length
  have hwlen := h.wlen
  have hint := h.int
  have hfront := h.front.length_le
  have havail : w.conn.wbufLen - w.conn.wbufWlen = ((msg.length - k : ℕ) : ℤ) := by omega
  have hsize : toSizeT ((msg.length - k : ℕ) : ℤ) = msg.length - k := by
    rw [toSizeT_of_bounds (by omega) (by omega)]
    omega
  have hload : load w.conn.wbuf k (min n (msg.length - k)) = .ok (slice msg k (min n (msg.length - k))) :=
    load_eq_ok.mpr ⟨by omega, (slice_of_front h.front (by omega)).symm⟩
  conv_lhs => unfold writeLoop
  simp only [havail, hsize, h.now]
  rw [if_neg (by omega), if_neg (by omega), hload, Result.ok_bind]
  by_cases hall : msg.length - k ≤ n
  · have hmin : min n (msg.length - k) = msg.length - k := by omega
    have hrewind : 0 + (zeros WRITEBUF_LEN).length ≤ w.conn.wbuf.length := by
      have hroom := h.room
      rw [length_zeros]
      omega
    have hout := slice_append_drop msg k (msg.length - k)
    rw [show k + (msg.length - k) = msg.length by omega, List.drop_length, List.append_nil] at hout
    unfold rewindWbuf
    rw [hmin, if_pos rfl, if_pos hall, write_of_le (b := w.conn.wbuf) hrewind, hout]
    rfl
  · have hmin : min n (msg.length - k) = n := by omega
    rw [hmin, if_neg (by omega), if_neg hall]
    rfl

theorem partway_tookBytes {msg : List UInt8} {k n : ℕ} {w : World} (h : w.conn.Partway msg k)
    (hn : n < msg.length - k) : (w.tookBytes msg k n).conn.Partway msg (k + n) := by
  refine ⟨h.length, h.front, h.int, h.room, by omega, ?_, rfl⟩
  show w.conn.wbufWlen + n = _
  rw [h.wlen]
  push_cast
  rfl

theorem rested_sentAll {msg : List UInt8} {k : ℕ} {w : World} (h : w.conn.Partway msg k)
    (rest : List WriteResult) : (w.sentAll msg k rest).conn.Rested := by
  refine ⟨rfl, rfl, show (0 : ℤ) < WRITEBUF_LEN by decide, le_rfl, ?_⟩
  show _ ≤ (put w.conn.wbuf 0 (zeros WRITEBUF_LEN)).length
  have hroom := h.room
  rw [length_put (by rw [length_zeros]; omega)]
  exact hroom

/-- Whatever the socket does, a call sends the next bytes of the message, and with the last
one the buffer is as it was made. -/
theorem writeLoop_partway {msg : List UInt8} {k : ℕ} {w : World} (ws : List WriteResult)
    (h : w.conn.Partway msg k) : ∃ w' res, writeLoop ws w = .ok (w', res) ∧
      (res = .all → w'.sent = w.sent ++ msg.drop k ∧ w'.conn.Rested ∧ w'.conn.wbufLen = WRITEBUF_LEN) ∧
      (res ≠ .all → ∃ k', w'.conn.Partway msg k' ∧ w'.sent ++ msg.drop k' = w.sent ++ msg.drop k) ∧
      ((∀ r ∈ ws, r.Takes) → res ≠ .error) := by
  have hsame : ∃ k', w.conn.Partway msg k' ∧ w.sent ++ msg.drop k' = w.sent ++ msg.drop k := ⟨k, h, rfl⟩
  have hlt := h.lt
  have hlen := h.length
  have hwlen := h.wlen
  induction ws generalizing k w with
  | nil =>
    unfold writeLoop
    rw [if_neg (by omega)]
    exact ⟨_, _, rfl, by simp, fun _ => hsame, by simp⟩
  | cons r rest ih =>
    cases r with
    | again =>
      unfold writeLoop
      dsimp only
      rw [if_neg (by omega)]
      exact ⟨_, _, rfl, by simp, fun _ => hsame, by simp⟩
    | failed =>
      unfold writeLoop
      dsimp only
      rw [if_neg (by omega)]
      exact ⟨_, _, rfl, by simp, fun _ => hsame, fun hgood => (hgood _ List.mem_cons_self).elim⟩
    | wrote n =>
      by_cases hn : n = 0
      · unfold writeLoop
        dsimp only
        rw [if_neg (by omega), if_pos (by omega)]
        refine ⟨_, _, rfl, by simp, fun _ => hsame, fun hgood => ?_⟩
        exact absurd (hgood _ List.mem_cons_self) (by simp [WriteResult.Takes, hn])
      · rw [writeLoop_wrote rest h (by omega)]
        split
        · exact ⟨_, _, rfl, fun _ => ⟨rfl, rested_sentAll h rest, rfl⟩, by simp, by simp⟩
        · rename_i hmore
          have hnext := partway_tookBytes (n := n) h (by omega)
          obtain ⟨w', res, hloop, hall, hpart, hgood⟩ :=
            ih hnext ⟨k + n, hnext, rfl⟩ hnext.lt hnext.length hnext.wlen
          have hout : (w.tookBytes msg k n).sent ++ msg.drop (k + n) = w.sent ++ msg.drop k := by
            show w.sent ++ slice msg k n ++ msg.drop (k + n) = _
            rw [List.append_assoc, slice_append_drop]
          refine ⟨w', res, hloop, fun hres => ?_, fun hres => ?_, fun hws => ?_⟩
          · exact ⟨(hall hres).1.trans hout, (hall hres).2⟩
          · obtain ⟨k', hk', hsent⟩ := hpart hres
            exact ⟨k', hk', hsent.trans hout⟩
          · exact hgood fun r hr => hws r (List.mem_cons_of_mem _ hr)

theorem writeLoop_sending {msg : List UInt8} {k : ℕ} {w : World} (ws : List WriteResult)
    (h : w.conn.Sending msg k) : ∃ w' res, writeLoop ws w = .ok (w', res) ∧
      (res = .all → w'.sent = w.sent ++ msg.drop k ∧ w'.conn.Rested) ∧
      (res ≠ .all → ∃ k', w'.conn.Sending msg k' ∧ w'.sent ++ msg.drop k' = w.sent ++ msg.drop k) := by
  obtain ⟨w', res, hloop, hall, hpart, -⟩ := writeLoop_partway ws h.partway
  refine ⟨w', res, hloop, fun hres => ⟨(hall hres).1, (hall hres).2.1⟩, fun hres => ?_⟩
  obtain ⟨k', hk', hsent⟩ := hpart hres
  exact ⟨k', hk'.sending h.small, hsent⟩

/-- Calls of `write_activate_read`, each with what the socket does in it, until the
answer is out or the socket has failed. -/
def sends : List (List WriteResult) → World → Result (World × WriteState)
  | [], w => .ok (w, .part)
  | ws :: calls, w => do
    let (w, res) ← ({ w with writes := ws } : World).writeActivateRead
    match res with
    | .part => sends calls w
    | res => pure (w, res)

theorem sends_sending {msg : List UInt8} {k : ℕ} {w : World} (calls : List (List WriteResult))
    (h : w.conn.Sending msg k) : ∃ w' res, w.sends calls = .ok (w', res) ∧
      (res = .all → w'.sent = w.sent ++ msg.drop k) := by
  induction calls generalizing k w with
  | nil => exact ⟨w, .part, rfl, by simp⟩
  | cons ws calls ih =>
    obtain ⟨w', res, hloop, hall, hpart⟩ := writeLoop_sending (w := { w with writes := ws }) ws h
    unfold sends writeActivateRead
    rw [hloop, Result.ok_bind]
    cases res with
    | all => exact ⟨w', .all, rfl, fun hres => (hall hres).1⟩
    | part =>
      obtain ⟨k', hk', hsent⟩ := hpart (by simp)
      obtain ⟨w'', res, hsends, hall'⟩ := ih hk'
      exact ⟨w'', res, hsends, fun hres => (hall' hres).trans hsent⟩
    | error => exact ⟨w', .error, rfl, by simp⟩

/-- A socket that takes everything sends the message in one call. -/
theorem sends_at_once {msg : List UInt8} {w : World} (h : w.conn.Sending msg 0) :
    ∃ w', w.sends [[.wrote msg.length]] = .ok (w', .all) ∧ w'.sent = w.sent ++ msg := by
  unfold sends writeActivateRead
  rw [writeLoop_wrote (w := { w with writes := [.wrote msg.length] }) [] h.partway h.lt,
    if_pos (Nat.sub_le _ _), Result.ok_bind]
  exact ⟨_, rfl, rfl⟩

end World

/-! ### The handlers -/

/-- A text that is queued takes less than the buffer was made with. -/
theorem Conn.Rested.outLine_le {c : Conn} (h : c.Rested) (text : List UInt8) :
    (c.outLine text).length + 2 ≤ WRITEBUF_LEN := by
  have hle := h.le
  unfold Conn.outLine
  split
  · decide
  · omega

/-- `out_string` writes inside its buffer. -/
theorem Conn.Rested.outString_eq {c : Conn} (h : c.Rested) (text : List UInt8) :
    c.outString text = .ok (c.queue (c.outLine text)) :=
  if_pos ((h.outLine_le text).trans h.room)

theorem Conn.Rested.queue {c : Conn} (h : c.Rested) (text : List UInt8) :
    (c.queue (c.outLine text)).Rested := by
  have hroom := h.room
  have hline := h.outLine_le text
  refine ⟨rfl, h.wlen, ?_, ?_, ?_⟩
  · show (0 : ℤ) < (c.outLine text).length + 2
    omega
  · show ((c.outLine text).length : ℤ) + 2 ≤ WRITEBUF_LEN
    omega
  · show _ ≤ (put c.wbuf 0 (c.outLine text ++ crlf)).length
    rw [length_put]
    · exact hroom
    · rw [List.length_append, show crlf.length = 2 from rfl]
      omega

theorem toInt_le (x : ℤ) : toInt x ≤ x % 2 ^ 32 := by
  unfold toInt Int.bmod
  dsimp only
  split <;> omega

namespace World

/-- A buffer that grew for an item is too short for its answer. -/
theorem not_formatValue_grown {wbuf wbuf' : List UInt8} {m : Items} {it : Ptr}
    (hkey : ∀ b ∈ m.key it, b ≠ 0 ∧ b ≠ 10)
    (hlen : wbuf.length = (toInt (5 + (m.nkey it).toNat + 1 + 4 + 2 + m.nbytes it)).toNat) :
    formatValue wbuf m it ≠ .ok wbuf' := by
  intro hfmt
  have hle := (formatValue_ok_iff hkey).mp ⟨wbuf', hfmt⟩
  have hint := toInt_le (5 + (m.nkey it).toNat + 1 + 4 + 2 + m.nbytes it)
  rw [valueAnswer_eq, List.length_append, length_getResponse] at hle
  unfold toSizeT at hle
  omega

theorem clean_key {w : World} {tokens : List (List UInt8)} {s : Cache} {it : Ptr}
    (htokens : ∀ b ∈ tokens.getD 1 [], b ≠ 0 ∧ isSeparator b = false)
    (hitem : w.cache.itemGet (tokens.getD 1 []) = .ok (s, some it)) :
    ∀ b ∈ s.items.key it, b ≠ 0 ∧ b ≠ 10 := by
  intro b hb
  rw [Cache.itemGet_key hitem] at hb
  refine ⟨(htokens b hb).1, ?_⟩
  rintro rfl
  exact absurd (htokens 10 hb).2 (by decide)

/-- No handler leaves a part of an answer behind, or `wbuf` smaller than it was. -/
theorem Handled.rested {w w' : World} {tokens : List (List UInt8)} (h : Handled w tokens w')
    (htokens : ∀ b ∈ tokens.getD 1 [], b ≠ 0 ∧ isSeparator b = false) (hw : w.conn.Rested) :
    w'.conn.Rested := by
  have hcleared : w.conn.clearRbuf.startWrite.Rested := hw.congr rfl rfl rfl rfl
  have hcmd : (w.withCmd tokens).conn.Rested := hw.congr rfl rfl rfl rfl
  cases h
  case answered s text _ _ _ => exact (hcleared.queue text).congr rfl rfl rfl rfl
  case value s it hlen hget hkey hitem heap wbuf wbuf' now len hbuf hfmt =>
    have hclean := clean_key htokens hitem
    rcases hbuf with ⟨rfl, rfl, rfl⟩ | hgrown
    · refine ⟨hw.now, hw.wlen, hw.pos, hw.le, ?_⟩
      show _ ≤ wbuf'.length
      rw [(formatValue_spec hclean hfmt).2]
      exact hw.room
    · exact absurd hfmt (not_formatValue_grown hclean hgrown)
  case longKey => exact hw.queue _
  case badFormat => exact (hcmd.queue BAD_FORMAT).congr rfl rfl rfl rfl
  case noMemory L s s' item text hlen hparse halloc => exact (hcmd.queue text).congr rfl rfl rfl rfl
  all_goals exact hw.congr rfl rfl rfl rfl

theorem Shaken.rested {w w' : World} {tempEnd : ℕ} {valueLen : ℤ} (h : Shaken w tempEnd valueLen w')
    (hw : w.conn.Rested) : w'.conn.Rested := by
  cases h with
  | kept => exact hw
  | block => exact hw.congr rfl rfl rfl rfl
  | line => exact hw.congr rfl rfl rfl rfl

theorem Parsed.rested {w w' : World} {ret : Bool} (h : Parsed w w' ret) (hw : w.conn.Rested) :
    w'.conn.Rested := by
  cases h with
  | nothing => exact hw
  | alone endflag hrlen hscan hroom hnext w₁ hhandled =>
    have hrested := hhandled.rested (fun b => tokensOf_clean) (hw.congr rfl rfl rfl rfl)
    exact hrested.congr rfl rfl rfl rfl
  | followed endflag hrlen hscan hroom next hnext hne w₁ w₂ hhandled hshaken =>
    have hrested := hhandled.rested (fun b => tokensOf_clean) (hw.congr rfl rfl rfl rfl)
    exact hshaken.rested hrested

theorem Finished.rested {w w' : World} (h : Finished w w') (hw : w.conn.Rested) : w'.conn.Rested := by
  cases h with
  | incomplete => exact hw
  | unknown => exact hw.congr rfl rfl rfl rfl
  | stored hlen hcmd it hitem rnbuf hlive hvalue s stat cas hstore =>
    exact (hw.queue (storeAnswer w.conn.cmd stat)).congr rfl rfl rfl rfl

theorem Valued.rested {w w' : World} (h : Valued w w') (hw : w.conn.Rested) : w'.conn.Rested := by
  cases h with
  | shaken _ w' hfin => exact hfin.rested hw
  | dry => exact hw
  | again => exact hw
  | noRoom _ _ w' hfin => exact hfin.rested hw
  | failed _ _ _ _ w' hfin => exact hfin.rested hw
  | closed => exact hw.congr rfl rfl rfl rfl
  | part _ _ _ _ _ _ _ _ _ w' hfin => exact hfin.rested (hw.congr rfl rfl rfl rfl)
  | nowhere => exact hw

/-- The write buffer by state: an answer is being sent, or nothing waits. -/
structure Ordered (w : World) : Prop where
  rested : w.conn.state ∉ [ConnStates.connWrite, .connClosed] → w.conn.Rested
  sending : w.conn.state = .connWrite → ∃ msg k, w.conn.Sending msg k

theorem sending_of_rested {w : World} (h : w.conn.Rested) :
    w.conn.Sending (w.conn.wbuf.take w.conn.wbufLen.toNat) 0 := by
  have hpos := h.pos
  have hle := h.le
  have hroom := h.room
  have hlen : (w.conn.wbuf.take w.conn.wbufLen.toNat).length = w.conn.wbufLen.toNat := by
    rw [List.length_take]
    omega
  exact ⟨by omega, List.take_prefix _ _, by omega, hroom, by omega, h.wlen, h.now⟩

theorem ordered_of_rested {w : World} (h : w.conn.Rested) : w.Ordered :=
  ⟨fun _ => h, fun _ => ⟨_, 0, sending_of_rested h⟩⟩

theorem ordered_turn {w w' : World} (h : w.Ordered) (hturn : w.turn = .ok w') : w'.Ordered := by
  unfold turn at hturn
  split at hturn
  all_goals rename_i hstate
  · cases hturn
    exact ordered_of_rested ((h.rested (by simp [hstate])).congr rfl rfl rfl rfl)
  · obtain ⟨w₁, ret, hparsed, rfl⟩ := parseTurn_spec hturn
    have hrested := hparsed.rested (h.rested (by simp [hstate]))
    refine ordered_of_rested ?_
    unfold settle
    dsimp only
    split_ifs
    all_goals exact hrested.congr rfl rfl rfl rfl
  · have hw := h.rested (by simp [hstate])
    rcases readTurn_spec hturn with ⟨w₁, hf, hw'⟩ | ⟨w₁, text, hf, rfl⟩
    · obtain ⟨heap, reads, rbuf, now, rlen, rfl⟩ := hf.world
      rcases hw' with rfl | rfl | ⟨rfl, -⟩
      all_goals exact ordered_of_rested (hw.congr rfl rfl rfl rfl)
    · obtain ⟨heap, reads, rbuf, now, rlen, rfl⟩ := hf.world
      have hw₁ : ({ w with heap := heap, reads := reads, conn := { w.conn with
        rbuf := rbuf, rbufNow := now, rbufRlen := rlen } } : World).conn.Rested := hw.congr rfl rfl rfl rfl
      exact ordered_of_rested (hw₁.queue text)
  · obtain ⟨msg, k, hsending⟩ := h.sending hstate
    obtain ⟨⟨w₁, res⟩, hwrite, hturn⟩ := Result.bind_eq_ok.mp hturn
    obtain ⟨w₂, res₂, hloop, hall, hpart⟩ := writeLoop_sending w.writes hsending
    unfold writeActivateRead at hwrite
    rw [hloop] at hwrite
    cases hwrite
    cases res with
    | all =>
      cases hturn
      exact ordered_of_rested ((hall rfl).2.congr rfl rfl rfl rfl)
    | part =>
      cases hturn
      obtain ⟨k', hk', -⟩ := hpart (by simp)
      refine ⟨fun hno => ?_, fun _ => ⟨msg, k', hk'⟩⟩
      rcases writeLoop_spec hloop with ⟨-, _, _, _, _, rfl, -⟩ | ⟨hres, -⟩
      · simp [hstate] at hno
      · cases hres
    | error =>
      cases hturn
      exact ⟨fun hno => by simp [setState] at hno, fun hno => by cases hno⟩
  · exact ordered_of_rested ((readValueStored_spec hturn).rested (h.rested (by simp [hstate])))
  · cases hturn
    exact ordered_of_rested ((h.rested (by simp [hstate])).congr rfl rfl rfl rfl)
  · cases hturn
    exact ⟨fun hno => by simp [setStop, connClose, hstate] at hno,
      fun hno => by simp [setStop, connClose, hstate] at hno⟩

/-! ### The answer to a `get` -/

/-- The handler of an item that is found: the buffer did not grow. -/
theorem Found.getCommand_eq_ok {w w' : World} {tokens : List (List UInt8)} {s : Cache} {it : Ptr}
    (h : Found w tokens s it) : w.getCommand tokens = .ok w' ↔
      12 + (s.items.nkey it).toNat + s.items.nbytes it ≤ w.conn.wbufLen ∧
        ∃ wbuf, formatValue w.conn.wbuf s.items it = .ok wbuf ∧
          w' = { w with
            cache := s
            conn := { w.conn.clearRbuf.startWrite with wbuf := wbuf, state := .connWrite } } := by
  have hlong : ¬KEY_MAX_LENGTH < (tokens.getD 1 []).length := by
    have := h.key_le
    omega
  have htotal := h.ntotal
  unfold ntotalOf at htotal
  unfold getCommand
  simp only [hlong, if_false, h.item, Result.ok_bind]
  constructor
  · intro hw'
    obtain ⟨wg, hgrow, hw'⟩ := Result.bind_eq_ok.mp hw'
    obtain ⟨wbuf, hfmt, hw'⟩ := Result.bind_eq_ok.mp hw'
    cases hw'
    obtain ⟨heap, wbuf', now, len, rfl, hbuf⟩ := growWbuf_spec hgrow
    rcases hbuf with ⟨hle, rfl, rfl, rfl⟩ | hlen
    · rw [growWbuf, if_neg (Int.not_lt.mpr hle)] at hgrow
      cases hgrow
      exact ⟨htotal ▸ hle, wbuf, hfmt, rfl⟩
    · exact absurd hfmt (not_formatValue_grown h.clean hlen)
  · rintro ⟨hle, wbuf, hfmt, rfl⟩
    rw [htotal, growWbuf, if_neg (show ¬w.conn.wbufLen < _ by omega), Result.ok_bind, hfmt]
    rfl

/-- The answer goes out as it was formatted: the handler comes to its end, no call of the
writer goes wrong, and once the answer is out the socket has got its bytes and no others. -/
def ExactlySent (w : World) (answer : List UInt8) : Prop :=
  ∃ w', w.processCommand = .ok w' ∧ ∀ calls, ∃ w'' res, w'.sends calls = .ok (w'', res) ∧
    (res = .all → w''.sent = w.sent ++ answer)

/-- From a connection at rest the calls put an answer at the front of `wbuf` on the
socket as it is just when `wbuf_len` is its length. -/
theorem sends_exact_iff {w : World} {answer : List UInt8} (h : w.conn.Rested)
    (hpre : answer <+: w.conn.wbuf) :
    (∀ calls, ∃ w' res, w.sends calls = .ok (w', res) ∧ (res = .all → w'.sent = w.sent ++ answer)) ↔
      w.conn.wbufLen = answer.length := by
  have hsending := sending_of_rested h
  have hpos := h.pos
  have hlen := hsending.length
  constructor
  · intro hexact
    obtain ⟨w', hsends, hsent⟩ := sends_at_once hsending
    obtain ⟨w'', res, hsends', hall⟩ := hexact [[.wrote _]]
    rw [hsends] at hsends'
    cases hsends'
    rw [hlen, List.append_cancel_left (hsent.symm.trans (hall rfl))]
  · intro heq calls
    obtain ⟨w', res, hsends, hall⟩ := sends_sending calls hsending
    refine ⟨w', res, hsends, fun hres => ?_⟩
    rw [hall hres, List.drop_zero, show w.conn.wbufLen.toNat = answer.length by omega,
      ← List.prefix_iff_eq_take.mp hpre]

/-- The handler of a `get` line. -/
theorem processCommand_get {w : World} (hlen : (tokensOf (cstring w.conn.rbuf)).length = 2)
    (hget : (tokensOf (cstring w.conn.rbuf)).getD 0 [] = bytes "get") :
    w.processCommand =
      ({ w with deeds := w.deeds ++ [.command (tokensOf (cstring w.conn.rbuf))] } : World).getCommand
        (tokensOf (cstring w.conn.rbuf)) := by
  show dispatch _ _ = _
  unfold dispatch
  rw [hlen]
  exact if_pos hget

/-- With nothing waiting in `wbuf`, the answer goes out as it is just when its length is
what `wbuf_len` says, and there is room for the zero behind it. -/
theorem exactlySent_iff_of_rested {w : World} {s : Cache} {it : Ptr} (hw : w.conn.Rested)
    (hlen : (tokensOf (cstring w.conn.rbuf)).length = 2)
    (hget : (tokensOf (cstring w.conn.rbuf)).getD 0 [] = bytes "get")
    (hfound : Found w (tokensOf (cstring w.conn.rbuf)) s it) :
    w.ExactlySent (getResponse s.items it) ↔
      w.conn.wbufLen = 15 + (s.items.nkey it).toNat + s.items.nbytes it + headerDigits s.items it ∧
        w.conn.wbufLen < w.conn.wbuf.length := by
  have hsize := hfound.size
  have hdigits := three_le_headerDigits s.items it
  have hresponse := length_getResponse s.items it
  have hvalue : (valueAnswer s.items it).length = (getResponse s.items it).length + 1 := by
    rw [valueAnswer_eq, List.length_append, List.length_singleton]
  have hfound' : Found { w with deeds := w.deeds ++ [.command (tokensOf (cstring w.conn.rbuf))] }
      (tokensOf (cstring w.conn.rbuf)) s it :=
    ⟨hfound.key_le, hfound.key_clean, hfound.item, hfound.nbytes_ge, hfound.nbytes_lt⟩
  have hexact : ∀ wbuf, formatValue w.conn.wbuf s.items it = .ok wbuf →
      ∀ w' : World, w'.conn = { w.conn.clearRbuf.startWrite with wbuf := wbuf, state := .connWrite } →
        ((∀ calls, ∃ w'' res, w'.sends calls = .ok (w'', res) ∧
            (res = .all → w''.sent = w'.sent ++ getResponse s.items it)) ↔
          w.conn.wbufLen = (getResponse s.items it).length) := by
    intro wbuf hfmt w' hw'
    obtain ⟨hpre, hsame⟩ := formatValue_spec hfound.clean hfmt
    have hbuf : w'.conn.wbuf = wbuf := by rw [hw']
    have hrested : w'.conn.Rested := by
      rw [hw']
      exact ⟨hw.now, hw.wlen, hw.pos, hw.le, hsame ▸ hw.room⟩
    rw [sends_exact_iff hrested (hbuf ▸ (List.prefix_append _ _).trans hpre), hw']
    rfl
  unfold ExactlySent
  rw [processCommand_get hlen hget]
  constructor
  · rintro ⟨w', hw', hsends⟩
    obtain ⟨hbuf, wbuf, hfmt, rfl⟩ := hfound'.getCommand_eq_ok.mp hw'
    have hle : (valueAnswer s.items it).length ≤ w.conn.wbuf.length :=
      (formatValue_ok_iff hfound.clean).mp ⟨wbuf, hfmt⟩
    have hlen' := (hexact wbuf hfmt _ rfl).mp hsends
    omega
  · rintro ⟨hlen', hlt⟩
    obtain ⟨wbuf, hfmt⟩ := (formatValue_ok_iff hfound.clean).mpr
      (show (valueAnswer s.items it).length ≤ w.conn.wbuf.length by omega)
    refine ⟨_, hfound'.getCommand_eq_ok.mpr ⟨?_, wbuf, hfmt, rfl⟩, (hexact wbuf hfmt _ rfl).mpr (by omega)⟩
    show _ ≤ w.conn.wbufLen
    omega

end World

namespace Serving

theorem ordered_step {s s' : Serving} {a : Happening} (h : s.world.Ordered)
    (hstep : step s a = .ok s') : s'.world.Ordered := by
  refine step_kept (P := World.Ordered) (fun _ _ => World.ordered_turn) (fun w w' b hw hconn => ?_) h hstep
  constructor
  · intro hno
    rw [hconn] at hno ⊢
    exact (hw.rested hno).congr rfl rfl rfl rfl
  · intro hstate
    rw [hconn] at hstate ⊢
    obtain ⟨msg, k, hk⟩ := hw.sending hstate
    exact ⟨msg, k, hk.length, hk.front, hk.small, hk.room, hk.lt, hk.wlen, hk.now⟩

theorem ordered_start {w : World} {flagPrecmd flagShake noreply : Bool} {rbuf wbuf : List UInt8}
    {cas : UInt64} (hwbuf : wbuf.length = WRITEBUF_LEN)
    (hw : w.conn = Conn.new flagPrecmd flagShake noreply rbuf wbuf cas) : (start w).world.Ordered := by
  refine World.ordered_of_rested ?_
  show w.conn.Rested
  rw [hw]
  exact ⟨rfl, rfl, show (0 : ℤ) < WRITEBUF_LEN by decide, le_rfl, hwbuf.ge⟩

/-- Whatever the connection did before: of an item that `get` finds exactly the answer is
sent, just when `wbuf_len` is the length of the answer and the buffer is longer. -/
theorem exactlySent_iff (w : World) (flagPrecmd flagShake noreply : Bool) (rbuf wbuf : List UInt8)
    (cas : UInt64) (hwbuf : wbuf.length = WRITEBUF_LEN)
    (hw : w.conn = Conn.new flagPrecmd flagShake noreply rbuf wbuf cas) (as : List Happening)
    (t : Serving) (hrun : run step (start w) as = .ok t) (hstate : t.world.conn.state = .connParseCmd)
    (endflag : ℕ) (next : List UInt8) (hlen : (t.world.tokensAt endflag).length = 2)
    (hget : (t.world.tokensAt endflag).getD 0 [] = bytes "get") (s : Cache) (it : Ptr)
    (hfound : World.Found t.world (t.world.tokensAt endflag) s it) :
    (t.world.cutLine endflag next).ExactlySent (getResponse s.items it) ↔
      t.world.conn.wbufLen = 15 + (s.items.nkey it).toNat + s.items.nbytes it + headerDigits s.items it ∧
        t.world.conn.wbufLen < t.world.conn.wbuf.length := by
  have hordered : t.world.Ordered :=
    invariant_run (I := fun t => t.world.Ordered) (fun _ _ _ => ordered_step) (ordered_start hwbuf hw) hrun
  have hrested : (t.world.cutLine endflag next).conn.Rested :=
    (hordered.rested (by simp [hstate])).congr rfl rfl rfl rfl
  exact World.exactlySent_iff_of_rested hrested hlen hget
    ⟨hfound.key_le, hfound.key_clean, hfound.item, hfound.nbytes_ge, hfound.nbytes_lt⟩

/-- One read brings `get a`. -/
def askLine : List Happening := [.event .read [.data (bytes "get a\r\n")] [], .turn]

/-- The connection of a server that holds a value of `n` bytes has read the line. -/
def asked (n : ℕ) (hn : n < 2 ^ 30) : Option Serving :=
  (holding n hn).bind fun w => (run step (start w) askLine).toOption

/-- The line is about to be parsed, and its item is there. -/
def finds (p : Serving → Cache × Ptr × World → Bool) (t : Serving) : Bool :=
  decide (t.world.conn.state = .connParseCmd) && decide (t.world.tokensAt 6 = getTokens) &&
    (foundAt t.world).any fun r => p t r && storable r.1.items r.2.1

theorem exists_asked {n : ℕ} {hn : n < 2 ^ 30} {p : Serving → Cache × Ptr × World → Bool}
    (h : (asked n hn).any (finds p) = true) :
    ∃ (store : Cache) (t : Serving) (s : Cache) (it : Ptr) (w : World),
      holding n hn = some (fresh store) ∧ run step (start (fresh store)) askLine = .ok t ∧
      t.world.conn.state = .connParseCmd ∧ t.world.tokensAt 6 = getTokens ∧
      World.Found t.world getTokens s it ∧ p t (s, it, w) = true := by
  unfold asked at h
  rw [Option.any_bind] at h
  obtain ⟨w, hw, h⟩ := exists_holding h
  obtain ⟨s, -, hfresh⟩ := Option.bind_eq_some_iff.mp hw
  obtain ⟨store, -, rfl⟩ := Option.map_eq_some_iff.mp hfresh
  cases ht : run step (start (fresh store)) askLine with
  | error e =>
    rw [Function.comp_apply, ht] at h
    cases h
  | ok t =>
    rw [Function.comp_apply, ht] at h
    have h : finds p t = true := h
    simp only [finds, Bool.and_eq_true, decide_eq_true_eq] at h
    obtain ⟨⟨hstate, htokens⟩, hfound⟩ := h
    obtain ⟨s, it, w₁, hitem, -, hp⟩ := exists_of_foundAt hfound
    exact ⟨store, t, s, it, w₁, hw, ht, hstate, htokens, hitem, hp⟩

theorem exactlySent_iff_short : ∃ (store : Cache) (t : Serving) (s : Cache) (it : Ptr),
    holding 1 (by decide) = some (fresh store) ∧ run step (start (fresh store)) askLine = .ok t ∧
    ((t.world.cutLine 6 [0]).ExactlySent (getResponse s.items it) ↔
      t.world.conn.wbufLen = 15 + (s.items.nkey it).toNat + s.items.nbytes it + headerDigits s.items it ∧
        t.world.conn.wbufLen < t.world.conn.wbuf.length) := by
  have htrial : (asked 1 (by decide)).any (finds fun _ _ => true) = true := by decide +kernel
  obtain ⟨store, t, s, it, w, hstore, hrun, hstate, htokens, hfound, -⟩ := exists_asked htrial
  refine ⟨store, t, s, it, hstore, hrun, ?_⟩
  exact exactlySent_iff (fresh store) false false false _ _ 0 (length_zeros _) rfl askLine t hrun hstate 6 [0]
    (by rw [htokens]; rfl) (by rw [htokens]; rfl) s it (by rw [htokens]; exact hfound)

/-- A fresh connection sends the whole buffer for a value of one byte. -/
theorem not_exactlySent_short : ∃ (store : Cache) (t : Serving) (s : Cache) (it : Ptr),
    holding 1 (by decide) = some (fresh store) ∧ run step (start (fresh store)) askLine = .ok t ∧
    t.world.conn.state = .connParseCmd ∧ t.world.tokensAt 6 = getTokens ∧
    World.Found t.world getTokens s it ∧
    ¬(t.world.cutLine 6 [0]).ExactlySent (getResponse s.items it) := by
  have htrial : (asked 1 (by decide)).any (finds fun t r =>
      decide ((getResponse r.1.items r.2.1).length = 22 ∧ t.world.conn.wbufLen = 2048)) = true := by
    decide +kernel
  obtain ⟨store, t, s, it, w, hstore, hrun, hstate, htokens, hfound, hp⟩ := exists_asked htrial
  obtain ⟨hlen, hbuf⟩ : (getResponse s.items it).length = 22 ∧ t.world.conn.wbufLen = 2048 :=
    of_decide_eq_true hp
  have hordered : t.world.Ordered :=
    invariant_run (I := fun t => t.world.Ordered) (fun _ _ _ => ordered_step)
      (ordered_start (length_zeros _) rfl) hrun
  have hrested : (t.world.cutLine 6 [0]).conn.Rested :=
    (hordered.rested (by simp [hstate])).congr rfl rfl rfl rfl
  have hline : tokensOf (cstring (t.world.cutLine 6 [0]).conn.rbuf) = getTokens := htokens
  refine ⟨store, t, s, it, hstore, hrun, hstate, htokens, hfound, fun hexact => ?_⟩
  have hcond := ((World.exactlySent_iff_of_rested hrested (by rw [hline]; rfl) (by rw [hline]; rfl)
    (by rw [hline]; exact ⟨hfound.key_le, hfound.key_clean, hfound.item, hfound.nbytes_ge,
      hfound.nbytes_lt⟩)).mp hexact).1
  have hcond : t.world.conn.wbufLen = _ := hcond
  have hsize := hfound.size
  rw [length_getResponse] at hlen
  omega

end Serving

end MiniMemcached
