import MiniMemcached.Protocol.Watchers
import MiniMemcached.Runs.Halting
import Mathlib.Data.Prod.Lex

/-! When a call of `drive_machine` returns. The loop ends through `flag_stop`, and some
of its states never set it: a turn in `conn_write` or `conn_nread` that the socket gives
nothing, or whose block is of an unknown command, is taken again and again. Every other
turn uses up a part of what was received or moves the machine on. -/

namespace MiniMemcached

open Memory Runs

namespace World

/-- The states that a turn does not leave: an answer is not sent and the socket takes no
more, a block is not complete and no more of it is read, its command is unknown, or there
is no buffer for it. -/
inductive Traps (w : World) : Prop
  | unsent (hstate : w.conn.state = .connWrite) (hlen : w.conn.wbufLen ≠ w.conn.wbufWlen)
      (hwrites : w.writes = [])
  | unread (hstate : w.conn.state = .connNread) (hlen : w.conn.rnbufLen ≠ w.conn.rnbufRlen)
      (hreads : w.conn.flagShake = true ∨
        toSizeT (w.conn.rnbufLen - w.conn.rnbufRlen) ≠ 0 ∧ w.reads = [])
  | unknown (hstate : w.conn.state = .connNread) (hlen : w.conn.rnbufLen = w.conn.rnbufRlen)
      (hcmd : w.conn.cmd = .error)
  | nowhere (hstate : w.conn.state = .connNread) (hshake : w.conn.flagShake = false)
      (hnowhere : w.Nowhere)

/-! ### What a turn uses up -/

/-- The states in the order in which a call passes them. -/
def phase : ConnStates → ℕ
  | .connRead => 5
  | .connParseCmd => 4
  | .connNread => 3
  | .connWrite => 2
  | .connWaiting => 1
  | .connListening => 0
  | .connClosed => 0

/-- The bytes of the read buffer that are not zero. -/
def liveBytes (c : Conn) : ℕ := c.rbuf.countP (· ≠ 0)

/-- What a call has left to do: the bytes at the socket, then the state, then the bytes
held and the lines among them, then the results of writing. -/
def remaining (w : World) : ℕ ×ₗ ℕ ×ₗ ℕ ×ₗ ℕ ×ₗ ℕ :=
  toLex (w.readsLeft, toLex (phase w.conn.state, toLex (toSizeT w.conn.rbufRlen,
    toLex (liveBytes w.conn, w.writes.length))))

theorem readsLeft_le {w w' : World} (h : w'.reads = w.reads) : w'.readsLeft ≤ w.readsLeft := by
  unfold readsLeft
  rw [h]

theorem remaining_lt_of_reads {w w' : World} (h : w'.readsLeft < w.readsLeft) :
    w'.remaining < w.remaining :=
  Prod.Lex.toLex_lt_toLex.mpr (.inl h)

theorem remaining_lt_of_phase {w w' : World} {a b : ConnStates} (hle : w'.readsLeft ≤ w.readsLeft)
    (ha : w'.conn.state = a) (hb : w.conn.state = b) (h : phase a < phase b) :
    w'.remaining < w.remaining := by
  subst ha hb
  refine Prod.Lex.toLex_lt_toLex'.mpr ⟨hle, fun _ => ?_⟩
  exact Prod.Lex.toLex_lt_toLex.mpr (.inl h)

theorem remaining_lt_of_held {w w' : World} (hreads : w'.reads = w.reads)
    (hstate : w'.conn.state = w.conn.state)
    (h : toSizeT w'.conn.rbufRlen < toSizeT w.conn.rbufRlen) : w'.remaining < w.remaining := by
  unfold remaining readsLeft
  rw [hreads, hstate]
  refine Prod.Lex.toLex_lt_toLex.mpr (.inr ⟨rfl, Prod.Lex.toLex_lt_toLex.mpr (.inr ⟨rfl, ?_⟩)⟩)
  exact Prod.Lex.toLex_lt_toLex.mpr (.inl h)

theorem remaining_lt_of_live {w w' : World} (hreads : w'.reads = w.reads)
    (hstate : w'.conn.state = w.conn.state) (hheld : w'.conn.rbufRlen = w.conn.rbufRlen)
    (h : liveBytes w'.conn < liveBytes w.conn) : w'.remaining < w.remaining := by
  unfold remaining readsLeft
  rw [hreads, hstate, hheld]
  refine Prod.Lex.toLex_lt_toLex.mpr (.inr ⟨rfl, Prod.Lex.toLex_lt_toLex.mpr (.inr ⟨rfl, ?_⟩)⟩)
  refine Prod.Lex.toLex_lt_toLex.mpr (.inr ⟨rfl, ?_⟩)
  exact Prod.Lex.toLex_lt_toLex.mpr (.inl h)

theorem remaining_lt_of_writes {w w' : World} (hreads : w'.reads = w.reads)
    (hstate : w'.conn.state = w.conn.state) (hheld : w'.conn.rbufRlen = w.conn.rbufRlen)
    (hrbuf : w'.conn.rbuf = w.conn.rbuf) (h : w'.writes.length < w.writes.length) :
    w'.remaining < w.remaining := by
  unfold remaining readsLeft liveBytes
  rw [hreads, hstate, hheld, hrbuf]
  refine Prod.Lex.toLex_lt_toLex.mpr (.inr ⟨rfl, Prod.Lex.toLex_lt_toLex.mpr (.inr ⟨rfl, ?_⟩)⟩)
  refine Prod.Lex.toLex_lt_toLex.mpr (.inr ⟨rfl, Prod.Lex.toLex_lt_toLex.mpr (.inr ⟨rfl, h⟩)⟩)

/-- A handler clears the read buffer, or it leaves the buffer alone. -/
theorem Handled.buffer {w w' : World} {tokens : List (List UInt8)} (h : Handled w tokens w') :
    (w'.conn.rbuf = zeros w.conn.rbuf.length ∧ w'.conn.rbufRlen = 0) ∨
    (w'.conn.rbuf = w.conn.rbuf ∧ w'.conn.rbufRlen = w.conn.rbufRlen ∧
      (w'.conn.state ∈ [ConnStates.connWrite, .connNread, .connClosed] ∨
        w'.conn.state = w.conn.state)) := by
  cases h
  case answered => exact .inl ⟨rfl, rfl⟩
  case value => exact .inl ⟨rfl, rfl⟩
  case empty => exact .inl ⟨rfl, rfl⟩
  case longKey => exact .inr ⟨rfl, rfl, .inl (by simp [queued, Conn.queue])⟩
  case badFormat => exact .inr ⟨rfl, rfl, .inl (by simp [markPrecmd, queued, Conn.queue])⟩
  case noMemory => exact .inr ⟨rfl, rfl, .inl (by simp [markPrecmd, setItem, queued, Conn.queue])⟩
  case accepted => exact .inr ⟨rfl, rfl, .inl (by simp [markPrecmd, acceptLine])⟩
  case quit => exact .inr ⟨rfl, rfl, .inl (by simp)⟩
  case ignored => exact .inr ⟨rfl, rfl, .inr rfl⟩

/-- The byte where a line is cut is not zero. -/
theorem getElem?_cutAt {w : World} {endflag : ℕ}
    (hscan : memchr w.conn.rbuf 0 (toSizeT w.conn.rbufRlen) 10 = .found endflag) :
    ∃ b, w.conn.rbuf[cutAt w.conn endflag]? = some b ∧ b ≠ 0 := by
  unfold cutAt
  split
  · rename_i h
    exact ⟨13, h.2, by decide⟩
  · exact ⟨10, (memchr_found hscan).2.2, by decide⟩

/-- The cut of a line leaves fewer bytes that are not zero. -/
theorem liveBytes_logged_lt {w : World} {endflag : ℕ} (next : List UInt8)
    (hscan : memchr w.conn.rbuf 0 (toSizeT w.conn.rbufRlen) 10 = .found endflag) :
    liveBytes (w.logged endflag next).conn < liveBytes w.conn := by
  obtain ⟨b, hb, hne⟩ := getElem?_cutAt hscan
  obtain ⟨hlt, rfl⟩ := List.getElem?_eq_some_iff.mp hb
  show (w.conn.rbuf.set (cutAt w.conn endflag) 0).countP _ < _
  have hpos : 0 < w.conn.rbuf.countP (· ≠ 0) :=
    List.countP_pos_iff.mpr ⟨_, List.getElem_mem hlt, by simpa using hne⟩
  rw [List.countP_set hlt]
  simp only [liveBytes]
  simp [hne]
  simpa using hpos

/-- The bytes behind a line are fewer than those that were held. -/
theorem toSizeT_sub_lt {w : World} {tempEnd : ℕ} (hpos : 0 < tempEnd)
    (hlen : w.conn.rbuf.length < 2 ^ 31)
    (hload : tempEnd + toSizeT (w.conn.rbufRlen - tempEnd) ≤ w.conn.rbuf.length) :
    toSizeT (w.conn.rbufRlen - tempEnd) < toSizeT w.conn.rbufRlen := by
  unfold toSizeT at hload ⊢
  omega

/-- A turn in `conn_parse_cmd` ends the call, moves the machine on, or uses up a line. -/
theorem parseTurn_less {w w' : World} (hstop : w.conn.flagStop = false)
    (hlen : w.conn.rbuf.length < 2 ^ 31) (hstate : w.conn.state = .connParseCmd)
    (h : w.parseTurn = .ok w') : w'.conn.flagStop = true ∨ w'.remaining < w.remaining := by
  obtain ⟨w₁, ret, hparsed, rfl⟩ := parseTurn_spec h
  cases hparsed with
  | nothing =>
    rw [settle_of_nothing]
    split
    · exact .inr (remaining_lt_of_phase (a := .connWaiting) le_rfl rfl hstate (by decide))
    · exact .inl rfl
  | alone endflag hrlen hscan hroom hnext w₁ hhandled =>
    have hframe := hhandled.framed
    rw [settle_of_alone (w := w₁.passLine (endflag + 1)) hframe.flagShake]
    split
    · rename_i hclosed
      exact .inr (remaining_lt_of_phase (readsLeft_le hframe.reads) hclosed hstate (by decide))
    · exact .inl rfl
  | followed endflag hrlen hscan hroom next hnext hne w₁ w₂ hhandled hshaken =>
    have hframe := hhandled.framed
    have hsame : w₁.conn.rbuf.length = w.conn.rbuf.length := hframe.length.trans (List.length_set ..)
    have hreads : w₁.reads = w.reads := hframe.reads
    have hpos : 0 < endflag + 1 := by omega
    have hshake : w₁.conn.flagShake = true := hframe.flagShake.trans (decide_eq_true hne)
    have hstop₁ : w₁.conn.flagStop = false := hframe.flagStop.trans hstop
    right
    rcases hhandled.buffer with ⟨hz, hr⟩ | ⟨hb, hr, hst⟩
    · rw [hr] at hshaken
      exact absurd (by exact_mod_cast hshaken)
        (Shaken.not_cleared hpos (by omega) (by omega) ⟨_, hz⟩)
    · have hr : w₁.conn.rbufRlen = w.conn.rbufRlen := hr
      cases hshaken with
      | kept =>
        rw [settle_of_followed hshake hstop₁]
        rcases hst with hst | hst
        · have hle := readsLeft_le hreads
          simp only [List.mem_cons, List.not_mem_nil, or_false] at hst
          rcases hst with hst | hst | hst
          all_goals exact remaining_lt_of_phase hle hst hstate (by decide)
        · refine remaining_lt_of_live hreads hst hr ?_
          have hlive := liveBytes_logged_lt next hscan
          unfold liveBytes at hlive ⊢
          rw [hb]
          exact hlive
      | block =>
        rw [settle_of_followed (w := w₁.tookBlock _ _ _) rfl hstop₁]
        exact remaining_lt_of_phase (a := .connNread) (readsLeft_le hreads) rfl hstate (by decide)
      | line i hscan' hprecmd hload hroom' =>
        rw [settle_of_followed (w := w₁.tookLine _ _) rfl hstop₁]
        refine remaining_lt_of_held hreads hstate.symm ?_
        have hlt := toSizeT_sub_lt (w := w₁) hpos (by omega) (by exact_mod_cast hload)
        rw [hr] at hlt
        show toSizeT (w₁.conn.rbufRlen - (endflag + 1)) < _
        rw [hr]
        exact_mod_cast hlt

/-- A turn in `conn_read` moves the machine on or has read something. -/
theorem readTurn_less {w w' : World} (hstate : w.conn.state = .connRead)
    (h : w.readTurn = .ok w') : w'.remaining < w.remaining := by
  rcases readTurn_spec h with ⟨w₁, hf, hw'⟩ | ⟨w₁, text, hf, rfl⟩
  · have hle := hf.readsLeft
    rcases hw' with rfl | rfl | ⟨rfl, hlt⟩
    · exact remaining_lt_of_phase (a := .connWaiting) hle rfl hstate (by decide)
    · exact remaining_lt_of_phase (a := .connClosed) hle rfl hstate (by decide)
    · exact remaining_lt_of_reads hlt
  · exact remaining_lt_of_phase (a := .connWrite) hf.readsLeft rfl hstate (by decide)

/-- Where the answer is out already, a turn in `conn_write` goes on to `conn_waiting`. -/
theorem writeTurn_of_sent {w w' : World} (hlen : w.conn.wbufLen = w.conn.wbufWlen)
    (hwrites : w.writes = []) (h : w.writeTurn = .ok w') :
    w'.conn.state = .connWaiting ∧ w'.reads = w.reads := by
  simp only [writeTurn, writeActivateRead, hwrites, writeLoop, hlen, if_true] at h
  cases h
  exact ⟨rfl, rfl⟩

/-- A turn in `conn_write` that is no trap moves the machine on or uses up a result. -/
theorem writeTurn_less {w w' : World} (hstate : w.conn.state = .connWrite) (htrap : ¬w.Traps)
    (h : w.writeTurn = .ok w') : w'.remaining < w.remaining := by
  by_cases hwrites : w.writes = []
  · have hlen : w.conn.wbufLen = w.conn.wbufWlen := by
      by_contra hlen
      exact htrap (.unsent hstate hlen hwrites)
    obtain ⟨hst, hreads⟩ := writeTurn_of_sent hlen hwrites h
    exact remaining_lt_of_phase (readsLeft_le hreads) hst hstate (by decide)
  · have hpos : 0 < w.writes.length := List.length_pos_iff.mpr hwrites
    rcases writeTurn_spec h with ⟨writes, sent, wlen, now, state, rfl, hst, hle⟩ |
      ⟨writes, sent, wbuf, now, len, wlen, rfl⟩
    · rcases hst with rfl | rfl
      · refine remaining_lt_of_writes rfl rfl rfl rfl ?_
        show writes.length < _
        omega
      · exact remaining_lt_of_phase (a := .connClosed) le_rfl rfl hstate (by decide)
    · exact remaining_lt_of_phase (a := .connWaiting) le_rfl rfl hstate (by decide)

theorem Finished.reads {w w' : World} (h : Finished w w') : w'.reads = w.reads := by
  cases h <;> rfl

/-- The end of `read_value_stored` leaves the state, or it stores the item. -/
theorem Finished.less {w w' : World} (h : Finished w w') (hstate : w.conn.state = .connNread)
    (hlen : w.conn.rnbufLen = w.conn.rnbufRlen) (hcmd : w.conn.cmd ≠ .error) :
    w'.remaining < w.remaining := by
  cases h with
  | incomplete hno => exact absurd hlen hno
  | unknown _ hno => exact absurd hno hcmd
  | stored => exact remaining_lt_of_phase (a := .connWrite) le_rfl rfl hstate (by decide)

/-- A turn in `conn_nread` that is no trap stores the item or has read something. -/
theorem readValueStored_less {w w' : World} (hstate : w.conn.state = .connNread)
    (htrap : ¬w.Traps) (h : w.readValueStored = .ok w') : w'.remaining < w.remaining := by
  have hcmd : w.conn.rnbufLen = w.conn.rnbufRlen → w.conn.cmd ≠ .error :=
    fun hlen hcmd => htrap (.unknown hstate hlen hcmd)
  cases readValueStored_spec h with
  | shaken hshake w' hfin =>
    have hlen : w.conn.rnbufLen = w.conn.rnbufRlen := by
      by_contra hlen
      exact htrap (.unread hstate hlen (.inl hshake))
    exact hfin.less hstate hlen (hcmd hlen)
  | dry hshake hroom hlen hreads => exact absurd (.unread hstate hlen (.inr ⟨hroom, hreads⟩)) htrap
  | again hshake hlen reads hlt => exact remaining_lt_of_reads hlt
  | noRoom hshake hlen w' hfin => exact hfin.less hstate hlen (hcmd hlen)
  | failed hshake hlen reads hlt w' hfin =>
    refine remaining_lt_of_reads ?_
    show (w'.reads.map readWeight).sum < _
    rw [hfin.reads]
    exact hlt
  | closed hshake hlen reads hle =>
    have hle : (reads.map readWeight).sum ≤ w.readsLeft := by
      rcases hle with ⟨-, rfl⟩ | hlt
      · exact le_rfl
      · exact Nat.le_of_lt hlt
    exact remaining_lt_of_phase (a := .connClosed) hle rfl hstate (by decide)
  | part hshake hlen reads hlt rnbuf bs hlive hroom hfit w' hfin =>
    refine remaining_lt_of_reads ?_
    show (w'.reads.map readWeight).sum < _
    rw [hfin.reads]
    exact hlt
  | nowhere hshake hnowhere => exact absurd (.nowhere hstate hshake hnowhere) htrap

/-- Every turn that is no trap ends the call or leaves less to do. -/
theorem turn_less {w w' : World} (hstop : w.conn.flagStop = false)
    (hlen : w.conn.rbuf.length < 2 ^ 31) (htrap : ¬w.Traps) (h : w.turn = .ok w') :
    w'.conn.flagStop = true ∨ w'.remaining < w.remaining := by
  unfold turn at h
  split at h
  · cases h
    exact .inl rfl
  · rename_i hstate
    exact parseTurn_less hstop hlen hstate h
  · rename_i hstate
    exact .inr (readTurn_less hstate h)
  · rename_i hstate
    exact .inr (writeTurn_less hstate htrap h)
  · rename_i hstate
    exact .inr (readValueStored_less hstate htrap h)
  · cases h
    exact .inl rfl
  · cases h
    exact .inl rfl

/-! ### Traps -/

/-- A turn taken in a trap leads back into it. -/
theorem Traps.turn {w w' : World} (h : w.Traps) (hturn : w.turn = .ok w') :
    w'.Traps ∧ w'.conn.flagStop = w.conn.flagStop ∧ w'.conn.rbuf = w.conn.rbuf := by
  cases h with
  | unsent hstate hlen hwrites =>
    simp only [World.turn, hstate, writeTurn, writeActivateRead, hwrites, writeLoop, hlen, if_false] at hturn
    cases hturn
    exact ⟨.unsent hstate hlen rfl, rfl, rfl⟩
  | unread hstate hlen hreads =>
    simp only [World.turn, hstate] at hturn
    have hdry : w.conn.flagShake = false →
        toSizeT (w.conn.rnbufLen - w.conn.rnbufRlen) ≠ 0 ∧ w.reads = [] := by
      intro hshake
      rcases hreads with hreads | hreads
      · rw [hshake] at hreads
        cases hreads
      · exact hreads
    have hnone : w.conn.flagShake = false → ∀ reads : List ReadResult,
        ¬(reads.map readWeight).sum < w.readsLeft := by
      intro hshake reads hlt
      simp [readsLeft, (hdry hshake).2] at hlt
    cases readValueStored_spec hturn with
    | shaken hshake w' hfin =>
      cases hfin with
      | incomplete => exact ⟨.unread hstate hlen hreads, rfl, rfl⟩
      | unknown hno => exact absurd hno hlen
      | stored hno => exact absurd hno hlen
    | dry => exact ⟨.unread hstate hlen hreads, rfl, rfl⟩
    | again hshake _ reads hlt => exact absurd hlt (hnone hshake reads)
    | noRoom _ hno => exact absurd hno hlen
    | failed hshake _ reads hlt => exact absurd hlt (hnone hshake reads)
    | closed hshake _ reads hlt =>
      rcases hlt with ⟨hroom, -⟩ | hlt
      · exact absurd hroom (hdry hshake).1
      · exact absurd hlt (hnone hshake reads)
    | part hshake _ reads hlt => exact absurd hlt (hnone hshake reads)
    | nowhere => exact ⟨.unread hstate hlen hreads, rfl, rfl⟩
  | unknown hstate hlen hcmd =>
    simp only [World.turn, hstate] at hturn
    have hfinish : ∀ w', Finished w w' →
        w'.Traps ∧ w'.conn.flagStop = w.conn.flagStop ∧ w'.conn.rbuf = w.conn.rbuf := by
      intro w' hfin
      cases hfin with
      | incomplete hno => exact absurd hlen hno
      | unknown => exact ⟨.unknown hstate hlen hcmd, rfl, rfl⟩
      | stored _ hno => exact absurd hcmd hno
    cases readValueStored_spec hturn with
    | shaken _ w' hfin => exact hfinish w' hfin
    | noRoom _ _ w' hfin => exact hfinish w' hfin
    | dry _ _ hno => exact absurd hlen hno
    | again _ hno => exact absurd hlen hno
    | failed _ hno => exact absurd hlen hno
    | closed _ hno => exact absurd hlen hno
    | part _ hno => exact absurd hlen hno
    | nowhere _ hno => exact absurd hlen hno.incomplete
  | nowhere hstate hshake hnowhere =>
    simp only [World.turn, hstate, readValueStored_nowhere hshake hnowhere] at hturn
    cases hturn
    exact ⟨.nowhere hstate hshake hnowhere, rfl, rfl⟩

/-! ### The size of the read buffer -/

@[simp] theorem settle_rbuf (w : World) (ret : Bool) : (w.settle ret).conn.rbuf = w.conn.rbuf := by
  simp only [settle, setState, setStop, apply_ite World.conn, apply_ite Conn.rbuf, ite_self]

theorem Shaken.length {w w' : World} {tempEnd : ℕ} {valueLen : ℤ} (h : Shaken w tempEnd valueLen w') :
    w'.conn.rbuf.length = w.conn.rbuf.length := by
  cases h with
  | kept => rfl
  | block => rfl
  | line i hscan hprecmd hload hroom =>
    show (put w.conn.rbuf 0 _).length = _
    rw [length_put]
    rw [List.length_append, length_slice hload, List.length_singleton]
    omega

theorem Parsed.length {w w' : World} {ret : Bool} (h : Parsed w w' ret) :
    w'.conn.rbuf.length = w.conn.rbuf.length := by
  cases h with
  | nothing => rfl
  | alone endflag hrlen hscan hroom hnext w₁ hhandled =>
    exact hhandled.framed.length.trans (List.length_set ..)
  | followed endflag hrlen hscan hroom next hnext hne w₁ w₂ hhandled hshaken =>
    exact hshaken.length.trans (hhandled.framed.length.trans (List.length_set ..))

theorem Finished.length {w w' : World} (h : Finished w w') :
    w'.conn.rbuf.length = w.conn.rbuf.length := by
  cases h with
  | incomplete => rfl
  | unknown => rfl
  | stored => exact length_zeros _

theorem Valued.length {w w' : World} (h : Valued w w') : w'.conn.rbuf.length = w.conn.rbuf.length := by
  cases h with
  | shaken _ w' hfin => exact hfin.length
  | dry => rfl
  | again => rfl
  | noRoom _ _ w' hfin => exact hfin.length
  | failed _ _ _ _ w' hfin => exact hfin.length
  | closed => rfl
  | part _ _ _ _ _ _ _ _ _ w' hfin => exact hfin.length
  | nowhere => rfl

/-- The read buffer stays below the size that `new` refuses. -/
theorem turn_length {w w' : World} (hlen : w.conn.rbuf.length < 2 ^ 31) (h : w.turn = .ok w') :
    w'.conn.rbuf.length < 2 ^ 31 := by
  unfold turn at h
  split at h
  · cases h
    exact hlen
  · obtain ⟨w₁, ret, hparsed, rfl⟩ := parseTurn_spec h
    rw [settle_rbuf, hparsed.length]
    exact hlen
  · rcases readTurn_spec h with ⟨w₁, hf, rfl | rfl | ⟨rfl, -⟩⟩ | ⟨w₁, text, hf, rfl⟩
    all_goals exact hf.length hlen
  · rcases writeTurn_spec h with ⟨writes, sent, wlen, now, state, rfl, -⟩ |
      ⟨writes, sent, wbuf, now, len, wlen, rfl⟩
    all_goals exact hlen
  · rw [(readValueStored_spec h).length]
    exact hlen
  · cases h
    exact hlen
  · cases h
    exact hlen

/-! ### The loop of `try_read_tcp` -/

theorem write_ne_endless {b bs : List UInt8} {off : ℕ} : write b off bs ≠ .error .endless := by
  unfold write
  split <;> simp

theorem load_ne_endless {b : List UInt8} {off n : ℕ} : load b off n ≠ .error .endless := by
  unfold load
  split <;> simp

theorem readRound_ne_endless (w : World) : w.readRound ≠ .error .endless := by
  unfold readRound
  dsimp only
  split
  · simp
  · simp
  · simp
  · split
    · simp
    · intro h
      rcases Result.bind_eq_error.mp h with h | ⟨rbuf, -, h⟩
      · exact write_ne_endless h
      · cases h

/-- The bytes of one read stand behind those that are held. -/
def gotBytes (w : World) (reads : List ReadResult) (bs : List UInt8) : World :=
  { w with
    reads := reads
    conn := { w.conn with
      rbuf := put w.conn.rbuf w.conn.rbufRlen.toNat bs
      rbufNow := w.conn.rbufNow + bs.length
      rbufRlen := w.conn.rbufRlen + bs.length } }

/-- What a read that brings bytes comes to. -/
theorem readRound_got {w w' : World} {round : Round} (h : w.readRound = .ok (w', round))
    (hround : round = .part ∨ round = .full) :
    ∃ reads bs, bs ≠ [] ∧
      w.read (toSizeT (capacity w.conn.rbuf - w.conn.rbufRlen)) = ({ w with reads := reads }, .data bs) ∧
      0 ≤ w.conn.rbufRlen ∧ w.conn.rbufRlen.toNat + bs.length ≤ w.conn.rbuf.length ∧
      w' = w.gotBytes reads bs ∧
      round = if (bs.length : ℤ) = capacity w.conn.rbuf - w.conn.rbufRlen then .full else .part := by
  unfold readRound at h
  dsimp only at h
  split at h
  · cases h
    simp at hround
  · cases h
    simp at hround
  · cases h
    simp at hround
  · rename_i w₁ bs hbs hread
    split at h
    · cases h
    · rename_i hneg
      obtain ⟨rbuf, hwrite, h⟩ := Result.bind_eq_ok.mp h
      obtain ⟨hroom, rfl⟩ := write_eq_ok.mp hwrite
      cases h
      cases read_spec hread with
      | noRoom => exact absurd rfl hbs
      | took hn reads r hlt hfit => exact ⟨reads, bs, hbs, hread, by simpa using hneg, hroom, rfl, rfl⟩

/-- A read that takes all the room leaves the buffer full. -/
theorem readRound_full {w w' : World} (h : w.readRound = .ok (w', .full)) :
    capacity w'.conn.rbuf ≤ w'.conn.rbufRlen := by
  obtain ⟨reads, bs, -, -, hpos, hroom, rfl, hround⟩ := readRound_got h (.inr rfl)
  have hfull : (bs.length : ℤ) = capacity w.conn.rbuf - w.conn.rbufRlen := by
    by_contra hno
    rw [if_neg hno] at hround
    cases hround
  have hlen := length_put hroom
  show capacity (put w.conn.rbuf w.conn.rbufRlen.toNat bs) ≤ w.conn.rbufRlen + bs.length
  unfold capacity at hfull ⊢
  omega

theorem outString_ne_endless (w : World) (text : List UInt8) : w.outString text ≠ .error .endless := by
  intro h
  rcases Result.bind_eq_error.mp h with h | ⟨c, -, h⟩
  · unfold Conn.outString at h
    split at h <;> cases h
  · cases h

/-- Behind a full buffer every round doubles it, so that four rounds and the test that
ends the loop are enough. -/
theorem readLoop_full_ne_endless {fuel numAlloc : ℕ} {st : ReadState} {w : World}
    (hfull : capacity w.conn.rbuf ≤ w.conn.rbufRlen) (hle : numAlloc ≤ 4)
    (hfuel : 5 ≤ fuel + numAlloc) : readLoop fuel numAlloc st w ≠ .error .endless := by
  induction fuel generalizing numAlloc st w with
  | zero => omega
  | succ fuel ih =>
    intro h
    unfold readLoop at h
    simp only [hfull, true_and, if_true] at h
    split at h
    · cases h
    · rename_i hmore
      split at h
      · rcases Result.bind_eq_error.mp h with h | ⟨w₁, -, h⟩
        · exact outString_ne_endless _ _ h
        · cases h
      · rename_i w₁ hroom
        rcases Result.bind_eq_error.mp h with h | ⟨⟨w₂, round⟩, hround, h⟩
        · exact readRound_ne_endless w₁ h
        · cases round with
          | again => cases h
          | error => cases h
          | part => cases h
          | full => exact ih (readRound_full hround) (by omega) (by omega) h

/-- Six rounds are enough for `try_read_tcp`. -/
theorem tryReadTcp_ne_endless (w : World) : w.tryReadTcp ≠ .error .endless := by
  intro h
  rcases Result.bind_eq_error.mp h with h | ⟨w₁, -, h⟩
  · unfold moveDown at h
    split at h
    · cases h
    · split at h
      · cases h
      · rcases Result.bind_eq_error.mp h with h | ⟨held, -, h⟩
        · exact load_ne_endless h
        · rcases Result.bind_eq_error.mp h with h | ⟨rbuf, -, h⟩
          · exact write_ne_endless h
          · cases h
  · by_cases hfull : capacity w₁.conn.rbuf ≤ w₁.conn.rbufRlen
    · exact readLoop_full_ne_endless hfull (by omega) (by omega) h
    · unfold readLoop at h
      simp only [hfull, false_and, if_false, makeRoom] at h
      rcases Result.bind_eq_error.mp h with h | ⟨⟨w₂, round⟩, hround, h⟩
      · exact readRound_ne_endless w₁ h
      · cases round with
        | again => cases h
        | error => cases h
        | part => cases h
        | full => exact readLoop_full_ne_endless (readRound_full hround) (by omega) (by omega) h

end World

namespace Serving

/-- A turn, after other connections have changed the cache. -/
def disturbed (others : ℕ → Cache → Cache) (n : ℕ) (s : Serving) : Result Serving :=
  step { s with world := { s.world with cache := others n s.world.cache } } .turn

/-- The call of `drive_machine` that is at work returns. -/
def Returns (others : ℕ → Cache → Cache) (s : Serving) : Prop :=
  Halts (disturbed others) (fun t => t.running = false) s

/-- No turn of the call is taken in a trap, and every one of them completes: it makes no
illegal access and comes to the end of the chain it looks through. -/
def Passes (others : ℕ → Cache → Cache) (s : Serving) : Prop :=
  ∀ n t, iterate (disturbed others) n s = .ok t → t.running = true →
    ¬t.world.Traps ∧ ∃ t', disturbed others n t = .ok t'

/-- What every happening keeps. -/
structure Steady (s : Serving) : Prop where
  stop : s.world.conn.flagStop = false
  length : s.world.conn.rbuf.length < 2 ^ 31

theorem steady_after {w : World} (hlen : w.conn.rbuf.length < 2 ^ 31) : (after w).Steady := by
  unfold after
  split
  · exact ⟨rfl, hlen⟩
  · rename_i hstop
    exact ⟨by simpa using hstop, hlen⟩

theorem steady_step {s s' : Serving} {a : Happening} (h : s.Steady) (hstep : step s a = .ok s') :
    s'.Steady := by
  cases a with
  | event watcher reads writes =>
    simp only [step] at hstep
    split at hstep
    all_goals
      cases hstep
      exact ⟨h.stop, h.length⟩
  | turn =>
    simp only [step] at hstep
    split at hstep
    · obtain ⟨w, hturn, hstep⟩ := Result.bind_eq_ok.mp hstep
      cases hstep
      exact steady_after (World.turn_length h.length hturn)
    · cases hstep
      exact h
  | others cache =>
    cases hstep
    exact ⟨h.stop, h.length⟩

theorem steady_start {w : World} {flagPrecmd flagShake noreply : Bool} {rbuf wbuf : List UInt8}
    {cas : UInt64} (hrbuf : rbuf.length = READBUF_LEN)
    (hw : w.conn = Conn.new flagPrecmd flagShake noreply rbuf wbuf cas) : (start w).Steady := by
  refine ⟨by simp [start, hw, Conn.new], ?_⟩
  show w.conn.rbuf.length < _
  rw [hw, show (Conn.new flagPrecmd flagShake noreply rbuf wbuf cas).rbuf = rbuf from rfl, hrbuf]
  decide

/-- A turn of a machine at work, and of one that has returned. -/
theorem disturbed_eq_ok {others : ℕ → Cache → Cache} {n : ℕ} {s s' : Serving}
    (h : disturbed others n s = .ok s') :
    (s.running = true ∧ ∃ w, ({ s.world with cache := others n s.world.cache } : World).turn = .ok w ∧
      s' = after w) ∨
    (s.running = false ∧ s'.running = false) := by
  unfold disturbed step at h
  dsimp only at h
  split at h
  · rename_i hrun
    obtain ⟨w, hturn, h⟩ := Result.bind_eq_ok.mp h
    cases h
    exact .inl ⟨hrun, w, hturn, rfl⟩
  · rename_i hrun
    cases h
    have hrun : s.running = false := by simpa using hrun
    exact .inr ⟨hrun, hrun⟩

theorem disturbed_steady {others : ℕ → Cache → Cache} (n : ℕ) (s s' : Serving) (h : s.Steady)
    (hstep : disturbed others n s = .ok s') : s'.Steady :=
  steady_step (s := { s with world := { s.world with cache := others n s.world.cache } })
    ⟨h.stop, h.length⟩ hstep

/-- The condition of `Traps` does not look at the cache. -/
theorem traps_cache {w : World} (s : Cache) (h : w.Traps) : ({ w with cache := s } : World).Traps := by
  cases h with
  | unsent hstate hlen hwrites => exact .unsent hstate hlen hwrites
  | unread hstate hlen hreads => exact .unread hstate hlen hreads
  | unknown hstate hlen hcmd => exact .unknown hstate hlen hcmd
  | nowhere hstate hshake hnowhere =>
    exact .nowhere hstate hshake ⟨hnowhere.buffer, hnowhere.room, hnowhere.waiting⟩

theorem disturbed_traps {others : ℕ → Cache → Cache} (n : ℕ) (s s' : Serving) (h : s.Steady)
    (htrap : s.running = true ∧ s.world.Traps) (hstep : disturbed others n s = .ok s') :
    s'.running = true ∧ s'.world.Traps := by
  rcases disturbed_eq_ok hstep with ⟨-, w, hturn, rfl⟩ | ⟨hrun, -⟩
  · obtain ⟨htrap', hstop, -⟩ := (traps_cache _ htrap.2).turn hturn
    have hstop : w.conn.flagStop = false := hstop.trans h.stop
    unfold after
    rw [if_neg (by simp [hstop])]
    exact ⟨rfl, htrap'⟩
  · rw [htrap.1] at hrun
    cases hrun

theorem disturbed_less {others : ℕ → Cache → Cache} (n : ℕ) (s s' : Serving) (h : s.Steady)
    (hrun : ¬s.running = false) (htrap : ¬s.world.Traps) (hstep : disturbed others n s = .ok s') :
    s'.running = false ∨ s'.world.remaining < s.world.remaining := by
  rcases disturbed_eq_ok hstep with ⟨-, w, hturn, rfl⟩ | ⟨hno, -⟩
  · have hclear : ¬({ s.world with cache := others n s.world.cache } : World).Traps :=
      fun hbad => htrap (by simpa using traps_cache s.world.cache hbad)
    unfold after
    split
    · exact .inl rfl
    · rename_i hstop
      rcases World.turn_less (w := { s.world with cache := others n s.world.cache })
        h.stop h.length hclear hturn with hstop' | hlt
      · exact absurd hstop' hstop
      · exact .inr hlt
  · exact absurd hno hrun

theorem passes_iff_neverStuck {others : ℕ → Cache → Cache} {s : Serving} :
    s.Passes others ↔ NeverStuck (disturbed others) (fun t => t.running = false)
      (fun t => t.running = true ∧ t.world.Traps) s := by
  unfold Passes NeverStuck
  refine forall_congr' fun n => forall_congr' fun t => imp_congr_right fun _ => ?_
  rw [Bool.not_eq_false]
  exact imp_congr_right fun hrun => by simp [hrun]

/-- The call returns just when it passes no trap and every turn of it completes. -/
theorem returns_iff_of_steady {s : Serving} (h : s.Steady) (others : ℕ → Cache → Cache) :
    s.Returns others ↔ s.Passes others := by
  rw [passes_iff_neverStuck]
  refine halts_iff_neverStuck (I := Steady) (fun t => t.world.remaining) disturbed_steady ?_
    disturbed_traps (fun t ht => by simp [ht.1]) ?_ h
  · intro n t t' ht hstep
    rcases disturbed_eq_ok hstep with ⟨hrun, -⟩ | ⟨-, hrun⟩
    · rw [ht] at hrun
      cases hrun
    · exact hrun
  · intro n t t' hs hrun htrap hstep
    exact disturbed_less n t t' hs hrun (fun hbad => htrap ⟨by simpa using hrun, hbad⟩) hstep

/-- Whatever the requests, the reads and the writes, and whatever others do to the cache
meanwhile: a call at work on a connection returns just when none of its turns is taken in
a trap and every one of them completes. -/
theorem returns_iff (w : World) (flagPrecmd flagShake noreply : Bool) (rbuf wbuf : List UInt8)
    (cas : UInt64) (hrbuf : rbuf.length = READBUF_LEN)
    (hw : w.conn = Conn.new flagPrecmd flagShake noreply rbuf wbuf cas) (as : List Happening)
    (t : Serving) (hrun : run step (start w) as = .ok t) (others : ℕ → Cache → Cache) :
    t.Returns others ↔ t.Passes others :=
  returns_iff_of_steady (invariant_run (fun _ _ _ => steady_step) (steady_start hrbuf hw) hrun) others

theorem returns_iff_version : ∃ s t, Cache.init 1 Service.smallSettings (fun _ => true) 0 = some s ∧
    run step (start (fresh s)) [.event .read [.data (bytes "version\r\n")] []] = .ok t ∧ t.running = true ∧
    t.Passes (fun _ s => s) ∧ t.Returns (fun _ s => s) := by
  have htrial : (trial [.event .read [.data (bytes "version\r\n")] []]).any (fun t => t.running &&
      (iterate (disturbed fun _ s => s) 3 t).toOption.any fun u => !u.running) = true := by
    decide +kernel
  obtain ⟨s, t, hinit, hrun, ht⟩ := exists_of_trial htrial
  obtain ⟨hwork, ht⟩ := (Bool.and_eq_true_iff ..).mp ht
  obtain ⟨u, hu, hrest⟩ := (Option.any_eq_true _ _).mp ht
  have hreturns : t.Returns (fun _ s => s) := ⟨3, u, Result.eq_ok_of_toOption hu, by simpa using hrest⟩
  exact ⟨s, t, hinit, hrun, hwork,
    (returns_iff (fresh s) false false false _ _ 0 (length_zeros _) rfl _ t hrun
      (fun _ s => s)).mp hreturns, hreturns⟩

/-- One read brings a storage line for a block of three bytes, CRLF included, and the
next only the first of them. -/
def partBlock : List Happening :=
  [.event .read [.data (bytes "set a 0 0 1\r\n")] [], .turn, .turn, .event .read [.data [120]] []]

/-- The call that has read the first byte of the block does not return. -/
theorem not_returns_partBlock : ∃ s t, Cache.init 1 Service.smallSettings (fun _ => true) 0 = some s ∧
    run step (start (fresh s)) partBlock = .ok t ∧ t.running = true ∧ ¬t.Returns (fun _ s => s) := by
  have htrial : (trial (partBlock ++ [.turn])).any (fun u =>
      u.running && decide (u.world.conn.state = .connNread ∧
        u.world.conn.rnbufLen ≠ u.world.conn.rnbufRlen ∧
        toSizeT (u.world.conn.rnbufLen - u.world.conn.rnbufRlen) ≠ 0 ∧ u.world.reads = [])) = true := by
    decide +kernel
  obtain ⟨s, u, hinit, hrun, hu⟩ := exists_of_trial htrial
  simp only [Bool.and_eq_true, decide_eq_true_eq] at hu
  obtain ⟨hwork, hstate, hlen, hroom, hreads⟩ := hu
  obtain ⟨t, ht, hturn⟩ := (run_append_eq_ok step).mp hrun
  obtain ⟨u', hturn, hu'⟩ := (run_cons_eq_ok step).mp hturn
  cases hu'
  have hsteady : t.Steady :=
    invariant_run (fun _ _ _ => steady_step) (steady_start (length_zeros _) rfl) ht
  have hrunning : t.running = true := by
    by_contra hno
    simp only [step, hno] at hturn
    cases hturn
    exact hno hwork
  refine ⟨s, t, hinit, ht, hrunning, fun hret => ?_⟩
  have hpass := (returns_iff_of_steady hsteady _).mp hret 1 u hturn hwork
  exact hpass.1 (.unread hstate hlen (.inr ⟨hroom, hreads⟩))

end Serving

end MiniMemcached
