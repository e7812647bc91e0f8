import MiniMemcached.Protocol.OneRead
import MiniMemcached.Protocol.PartialWrites
import MiniMemcached.Service.Refinement

/-! A connection whose client waits for its turn. Each request comes whole in a read of
its own, a line with its CRLF or a data block, and is answered before the next one is
sent. The connection goes through phases, from one rest to the next; a turn of its
machine either works on the bytes alone, or carries out the request that came. -/

namespace MiniMemcached

open Memory Runs

/-- The pieces that a socket brings. -/
def arrivals (rs : List ReadResult) : List (List UInt8) := (rs.map ReadResult.bytes).filter (· ≠ [])

/-- A line that a handler answers or that announces a block, with its CRLF; it leaves room in
the read buffer. -/
structure Brings (chunk l : List UInt8) : Prop where
  eq : chunk = l ++ crlf
  clean : ∀ b ∈ l, b ≠ 0 ∧ b ≠ 10
  asks : (tokensOf l).length = 1 ∨ (tokensOf l).length = 2 ∨ VerbFits (tokensOf l)
  small : chunk.length < READBUF_LEN

/-- The answer to a `get` that finds a value. -/
def valueText (key : List UInt8) (flag : UInt8) (value : List UInt8) (id : UInt64) : List UInt8 :=
  bytes "VALUE " ++ key ++ headerText flag value.length id ++ value ++ bytes "END" ++ crlf ++ [0]

/-- A request and its answer on the wire: the line whose block is owed before it, the bytes
that bring it, those of the answer, and the line whose block is owed afterwards. A value
comes with the rest of the write buffer behind it. -/
inductive Exchange : Option StoreLine → Request → Answer → List UInt8 → List UInt8 → Option StoreLine → Prop
  | hit {l k v text : List UInt8} {flag : UInt8} {id : UInt64} (hl : tokensOf l = [bytes "get", k])
      (htext : valueText k flag v id <+: text) (hlen : text.length = WRITEBUF_LEN) :
      Exchange none (.get k) (.value v flag id) (l ++ crlf) text none
  | miss {l k : List UInt8} (hl : tokensOf l = [bytes "get", k]) :
      Exchange none (.get k) .miss (l ++ crlf) (bytes "END" ++ crlf) none
  | deleted {l k : List UInt8} (hl : tokensOf l = [bytes "delete", k]) :
      Exchange none (.delete k) .deleted (l ++ crlf) (bytes "DELETED" ++ crlf) none
  | notFound {l k : List UInt8} (hl : tokensOf l = [bytes "delete", k]) :
      Exchange none (.delete k) .notFound (l ++ crlf) (bytes "NOT_FOUND" ++ crlf) none
  | line {l : List UInt8} {L : StoreLine} (hcmd : L.cmd ≠ .error) (hl : Announces l L) :
      Exchange none (.store L hcmd) .waiting (l ++ crlf) [] (some L)
  | block {L : StoreLine} {block : List UInt8} (hlen : (block.length : ℤ) = L.vlen) (stat : StoreStat) :
      Exchange (some L) (.block block) (.stored stat) block (World.storeAnswer L.cmd stat ++ crlf) none

/-- A line that does not touch the cache, and its answer. -/
inductive Aside : List UInt8 → List UInt8 → Prop
  | version {l : List UInt8} (hl : tokensOf l = [bytes "version"]) :
      Aside (l ++ crlf) (bytes "CGXR MEMCACHE version 1.0" ++ crlf)
  | word {l t : List UInt8} (hl : tokensOf l = [t]) (hquit : t ≠ bytes "quit")
    (hversion : t ≠ bytes "version") :
      Aside (l ++ crlf) (BAD_COMMAND ++ crlf)
  | verb {l t k : List UInt8} (hl : tokensOf l = [t, k]) (hget : t ≠ bytes "get")
      (hdelete : t ≠ bytes "delete") : Aside (l ++ crlf) (BAD_COMMAND ++ crlf)

/-- What a client sends and gets: the requests with their answers, the pieces that it sends,
and the bytes that it gets, and the line whose block it owes. -/
inductive Conversation : List (Action × Answer) → List (List UInt8) → List UInt8 → Option StoreLine → Prop
  | nil : Conversation [] [] [] none
  | aside {xs : List (Action × Answer)} {heard : List (List UInt8)} {out chunk text : List UInt8}
      (h : Conversation xs heard out none) (haside : Aside chunk text) :
      Conversation xs (heard ++ [chunk]) (out ++ text) none
  | request {xs : List (Action × Answer)} {heard : List (List UInt8)} {out chunk text : List UInt8}
      {o o' : Option StoreLine} {a : Action} {r : Answer} (h : Conversation xs heard out o)
      (hexch : Exchange o a.req r chunk text o') :
      Conversation (xs ++ [(a, r)]) (heard ++ [chunk]) (out ++ text) o'

/-- The write buffer between two answers. -/
structure Conn.Ready (c : Conn) : Prop where
  rested : c.Rested
  len : c.wbufLen = WRITEBUF_LEN
  size : c.wbuf.length = WRITEBUF_LEN

/-- The read side between two requests. -/
structure Conn.Clear (c : Conn) : Prop where
  rbuf : c.rbuf = zeros READBUF_LEN
  rlen : c.rbufRlen = 0
  nread : c.rnbufRlen = 0

theorem Conn.Ready.congr {c c' : Conn} (h : c.Ready) (hbuf : c'.wbuf = c.wbuf) (hnow : c'.wbufNow = c.wbufNow)
    (hlen : c'.wbufLen = c.wbufLen) (hwlen : c'.wbufWlen = c.wbufWlen) : c'.Ready :=
  ⟨h.rested.congr hbuf hnow hlen hwlen, hlen.trans h.len, hbuf ▸ h.size⟩

theorem Conn.Clear.congr {c c' : Conn} (h : c.Clear) (hrbuf : c'.rbuf = c.rbuf)
    (hrlen : c'.rbufRlen = c.rbufRlen) (hnread : c'.rnbufRlen = c.rnbufRlen) : c'.Clear :=
  ⟨hrbuf.trans h.rbuf, hrlen.trans h.rlen, hnread.trans h.nread⟩

/-- The buffer for a block of `n` bytes, where there was memory for it. -/
def Conn.Buffers (c : Conn) (n : ℤ) : Prop :=
    c.rnbuf = .null ∨ ∃ b, c.rnbuf = .live b ∧ (b.length : ℤ) = n + 3

namespace World

/-- The phases of a connection, with the storage line whose block it waits for, the
pieces that have come and were not worked on, and the bytes of the answer that are not
sent. -/
inductive Phase (w : World) : Option Pending → List (List UInt8) → List UInt8 → Prop
  | idle (hstate : w.conn.state = .connRead ∨ w.conn.state = .connWaiting) (hclear : w.conn.Clear)
      (hready : w.conn.Ready)
      (hcoming : ∀ chunk ∈ arrivals w.reads, arrivals w.reads = [chunk] ∧ ∃ l, Brings chunk l) :
      Phase w none (arrivals w.reads) []
  | loaded {chunk l : List UInt8} (hline : Brings chunk l) (hstate : w.conn.state = .connParseCmd)
      (hrbuf : w.conn.rbuf = chunk ++ zeros (READBUF_LEN - chunk.length))
      (hrlen : w.conn.rbufRlen = chunk.length)
      (hnread : w.conn.rnbufRlen = 0) (hready : w.conn.Ready) (hnone : arrivals w.reads = []) :
      Phase w none [chunk] []
  | writing {msg : List UInt8} {k : ℕ} (hstate : w.conn.state = .connWrite) (hclear : w.conn.Clear)
      (hpart : w.conn.Partway msg k) (hsize : w.conn.wbuf.length = WRITEBUF_LEN)
      (hnone : arrivals w.reads = []) : Phase w none [] (msg.drop k)
  | awaiting {P : Pending} (hstate : w.conn.state = .connNread) (hshake : w.conn.flagShake = false)
      (hcmd : w.conn.cmd = P.line.cmd) (hne : P.line.cmd ≠ .error) (hitem : w.conn.item = some P.it)
      (hlen : w.conn.rnbufLen = P.line.vlen) (hnread : w.conn.rnbufRlen = 0)
      (hbuf : w.conn.Buffers P.line.vlen)
      (hrbuf : w.conn.rbuf.length = READBUF_LEN) (hready : w.conn.Ready)
      (hcoming : ∀ chunk ∈ arrivals w.reads, arrivals w.reads = [chunk] ∧ (chunk.length : ℤ) = P.line.vlen) :
      Phase w (some P) (arrivals w.reads) []
  | closed {o : Option Pending} {coming : List (List UInt8)} {left : List UInt8}
      (hstate : w.conn.state = .connClosed) : Phase w o coming left

/-- What a turn does for a client: nothing that it could tell; an answer without the cache; or
a request. -/
inductive Advance (st : Service) (i : ℕ) (w : World) (coming : List (List UInt8)) (left : List UInt8)
    (w' : World) : Prop
  | silent (hcache : w'.cache = w.cache) {left' : List UInt8} (hphase : Phase w' (st.pending i) coming left')
      (hsent : w'.sent ++ left' = w.sent ++ left)
  | aside {chunk text : List UInt8} (hcache : w'.cache = w.cache) (haside : Aside chunk text)
      (hfree : st.pending i = none) (hcoming : coming = [chunk]) (hleft : left = [])
      (hphase : Phase w' (st.pending i) [] text) (hsent : w'.sent = w.sent)
  | request {req : Request} {st' : Service} {chunk text : List UInt8}
      (hstep : st.step ⟨w.cache.clock, i, req⟩ = .ok st') (hcache : w'.cache = st'.cache)
      (hexch : Exchange ((st.pending i).map Pending.line) req st'.answer chunk text
        ((st'.pending i).map Pending.line))
      (hcoming : coming = [chunk]) (hleft : left = []) (hphase : Phase w' (st'.pending i) [] text)
      (hsent : w'.sent = w.sent)

variable {w w' : World} {st st' : Service} {g : Shape} {i : ℕ} {coming : List (List UInt8)}
    {left : List UInt8}

/-! ### The turn in `conn_read` -/

/-- The connection at rest with these results of the socket still to come. -/
def front (w : World) (reads : List ReadResult) : World :=
  { w with reads := reads, conn := { w.conn with rbufNow := 0 } }

/-- The state behind a round that does not fill the buffer. -/
def Round.next : Round → ConnStates
  | .again => .connWaiting
  | .error => .connClosed
  | .part | .full => .connParseCmd

theorem capacity_clear (h : w.conn.Clear) : capacity w.conn.rbuf = READBUF_LEN := by
  unfold capacity
  rw [h.rbuf, length_zeros]

theorem moveDown_clear (h : w.conn.Clear) : w.moveDown = .ok (w.front w.reads) := by
  unfold moveDown
  split
  · rename_i hnow
    unfold front
    rw [← hnow]
  · rw [if_pos h.rlen]
    rfl

/-- The turn ends with the round, unless that has filled the buffer. -/
theorem readTurn_round (h : w.conn.Clear) {w₁ : World} {round : Round}
    (hround : (w.front w.reads).readRound = .ok (w₁, round)) (hfull : round ≠ .full) :
    w.readTurn = .ok (w₁.setState round.next) := by
  have hcap := capacity_clear h
  have hroom : ¬capacity (w.front w.reads).conn.rbuf ≤ (w.front w.reads).conn.rbufRlen := by
    show ¬capacity w.conn.rbuf ≤ w.conn.rbufRlen
    rw [hcap, h.rlen]
    decide
  have hmake : (w.front w.reads).makeRoom = (w.front w.reads, true) := if_neg hroom
  unfold readTurn tryReadTcp
  rw [moveDown_clear h, Result.ok_bind, readLoop, if_neg fun hc => hroom hc.1, hmake]
  dsimp only
  rw [hround, Result.ok_bind]
  cases round with
  | again => rfl
  | error => rfl
  | part => rfl
  | full => exact absurd rfl hfull

/-- The bytes that come fill the front of the buffer. -/
def took (w : World) (rest : List ReadResult) (bs : List UInt8) : World :=
  { w with
    reads := rest
    conn := { w.conn with
      rbuf := bs ++ zeros (READBUF_LEN - bs.length), rbufNow := bs.length, rbufRlen := bs.length } }

theorem read_head {w : World} {r : ReadResult} {rest : List ReadResult} {n : ℕ} (hn : n ≠ 0)
    (hreads : w.reads = r :: rest) (hle : r.bytes.length ≤ n) : w.read n = ({ w with reads := rest }, r) := by
  unfold read
  rw [if_neg hn]
  cases r with
  | data bs => simp only [hreads, if_pos (show bs.length ≤ n from hle)]
  | again => simp only [hreads]
  | failed => simp only [hreads]

/-- One round of a connection at rest. -/
theorem readRound_clear (h : w.conn.Clear) {r : ReadResult} {rest : List ReadResult}
    (hreads : w.reads = r :: rest)
    (hsmall : r.bytes.length < READBUF_LEN) :
    (w.front w.reads).readRound = .ok (if r = .again then (w.front rest, .again)
      else if r.bytes = [] then (w.front rest, .error) else (w.took rest r.bytes, .part)) := by
  have hcap := capacity_clear h
  have hrlen := h.rlen
  have havail : toSizeT (capacity (w.front w.reads).conn.rbuf - (w.front w.reads).conn.rbufRlen) =
    READBUF_LEN := by
    show toSizeT (capacity w.conn.rbuf - w.conn.rbufRlen) = _
    rw [hcap, hrlen]
    rfl
  have hread := read_head (w := w.front w.reads) (n := READBUF_LEN) (by decide) hreads hsmall.le
  unfold readRound
  dsimp only
  rw [havail, hread]
  cases r with
  | again => rfl
  | failed => rfl
  | data bs =>
    cases bs with
    | nil => rfl
    | cons b bs =>
      have hput : put (zeros READBUF_LEN) 0 (b :: bs) =
          (b :: bs) ++ zeros (READBUF_LEN - (b :: bs).length) := by
        rw [put_front, zeros, List.drop_replicate]
        rfl
      have hsmall : (b :: bs).length < READBUF_LEN := hsmall
      have hwrite : write w.conn.rbuf w.conn.rbufRlen.toNat (b :: bs) =
          .ok ((b :: bs) ++ zeros (READBUF_LEN - (b :: bs).length)) := by
        rw [h.rbuf, hrlen, ← hput]
        exact write_of_le (by rw [length_zeros]; simpa using hsmall.le)
      have hpart : ¬((b :: bs).length : ℤ) = capacity w.conn.rbuf - w.conn.rbufRlen := by
        rw [hcap, hrlen]
        omega
      show (if w.conn.rbufRlen < 0 then _ else _) = _
      rw [if_neg (by omega)]
      show (write w.conn.rbuf w.conn.rbufRlen.toNat (b :: bs) >>= _) = _
      rw [hwrite, Result.ok_bind]
      show Except.ok (_, if ((b :: bs).length : ℤ) = capacity w.conn.rbuf - w.conn.rbufRlen then _ else _) = _
      rw [if_neg hpart]
      have htook : ({ w.front rest with conn := { (w.front rest).conn with
          rbuf := (b :: bs) ++ zeros (READBUF_LEN - (b :: bs).length)
          rbufNow := 0 + (b :: bs).length
          rbufRlen := w.conn.rbufRlen + (b :: bs).length } } : World) = w.took rest (b :: bs) := by
        unfold took front
        rw [hrlen, Nat.zero_add, Int.zero_add]
      exact congrArg (fun w₁ => Except.ok (w₁, Round.part)) htook

theorem readRound_dry (h : w.conn.Clear) (hreads : w.reads = []) :
    (w.front w.reads).readRound = .ok (w.front w.reads, .again) := by
  have hread : ∀ n, n ≠ 0 → (w.front w.reads).read n = (w.front w.reads, .again) := by
    intro n hn
    unfold read
    rw [if_neg hn]
    simp only [front, hreads]
  unfold readRound
  dsimp only
  rw [hread]
  show toSizeT (capacity w.conn.rbuf - w.conn.rbufRlen) ≠ 0
  rw [capacity_clear h, h.rlen]
  decide

theorem arrivals_cons (r : ReadResult) (rs : List ReadResult) :
    arrivals (r :: rs) = if r.bytes = [] then arrivals rs else r.bytes :: arrivals rs := by
  unfold arrivals
  rw [List.map_cons, List.filter_cons]
  by_cases hr : r.bytes = [] <;> simp [hr]

/-- A line leaves room in the buffer. -/
theorem length_head_lt {r : ReadResult} {rest : List ReadResult} (hreads : w.reads = r :: rest)
    (hcoming : ∀ chunk ∈ arrivals w.reads, arrivals w.reads = [chunk] ∧ ∃ l, Brings chunk l) :
    r.bytes.length < READBUF_LEN := by
  by_cases hr : r.bytes = []
  · rw [hr]
    decide
  · have hmem : r.bytes ∈ arrivals w.reads := by
      rw [hreads, arrivals_cons, if_neg hr]
      exact List.mem_cons_self
    obtain ⟨-, l, hl⟩ := hcoming r.bytes hmem
    exact hl.small

/-- The turn of a connection that waits for a line. -/
theorem advance_read (hfree : st.pending i = none) (hstate : w.conn.state = .connRead) (hclear : w.conn.Clear)
    (hready : w.conn.Ready)
    (hcoming : ∀ chunk ∈ arrivals w.reads, arrivals w.reads = [chunk] ∧ ∃ l, Brings chunk l)
    (hturn : w.turn = .ok w') : Advance st i w (arrivals w.reads) [] w' := by
  unfold turn at hturn
  rw [hstate] at hturn
  have hturn : w.readTurn = .ok w' := hturn
  cases hreads : w.reads with
  | nil =>
    have hround : (w.front w.reads).readRound = .ok (w.front w.reads, .again) := readRound_dry hclear hreads
    rw [readTurn_round hclear hround (by simp)] at hturn
    cases hturn
    rw [← hreads]
    exact .silent rfl (hfree ▸ .idle (.inr rfl) (hclear.congr rfl rfl rfl)
      (hready.congr rfl rfl rfl rfl) hcoming) rfl
  | cons r rest =>
    have hround := readRound_clear hclear hreads (length_head_lt hreads hcoming)
    rw [hreads, arrivals_cons] at hcoming
    rw [arrivals_cons]
    by_cases hr : r.bytes = []
    · rw [if_pos hr] at hcoming ⊢
      by_cases hagain : r = .again
      · rw [if_pos hagain] at hround
        rw [readTurn_round hclear hround (by simp)] at hturn
        cases hturn
        exact .silent rfl (hfree ▸ .idle (.inr rfl) (hclear.congr rfl rfl rfl)
          (hready.congr rfl rfl rfl rfl) hcoming) rfl
      · rw [if_neg hagain, if_pos hr] at hround
        rw [readTurn_round hclear hround (by simp)] at hturn
        cases hturn
        exact .silent rfl (.closed rfl) rfl
    · rw [if_neg hr] at hcoming ⊢
      obtain ⟨hone, l, hl⟩ := hcoming r.bytes List.mem_cons_self
      have hnone : arrivals rest = [] := (List.cons.inj hone).2
      have hagain : r ≠ .again := fun e => hr (e ▸ rfl)
      rw [if_neg hagain, if_neg hr] at hround
      rw [readTurn_round hclear hround (by simp)] at hturn
      cases hturn
      rw [hnone]
      refine .silent rfl (?_ : Phase _ _ _ []) rfl
      rw [hfree]
      exact .loaded hl rfl rfl rfl hclear.nread (hready.congr rfl rfl rfl rfl) hnone

/-! ### The turns in `conn_write` and `conn_waiting` -/

/-- The writer keeps the size of its buffer. -/
theorem length_wbuf_writeLoop {ws : List WriteResult} {res : WriteState}
    (h : writeLoop ws w = .ok (w', res)) :
    w'.conn.wbuf.length = w.conn.wbuf.length := by
  induction ws generalizing w with
  | nil =>
    unfold writeLoop at h
    split at h
    all_goals
      cases h
      rfl
  | cons r rest ih =>
    unfold writeLoop at h
    dsimp only at h
    split at h
    · cases h
      rfl
    · split at h
      · cases h
        rfl
      · cases h
        rfl
      · split at h
        · cases h
          rfl
        · split at h
          · cases h
          · obtain ⟨taken, -, h⟩ := Result.bind_eq_ok.mp h
            split at h
            · obtain ⟨c, hrewind, h⟩ := Result.bind_eq_ok.mp h
              obtain ⟨wbuf, hwrite, hrewind⟩ := Result.bind_eq_ok.mp hrewind
              obtain ⟨hroom, rfl⟩ := write_eq_ok.mp hwrite
              cases hrewind
              cases h
              exact length_put hroom
            · have hrest := ih h
              exact hrest

theorem phase_idle (hstate : w.conn.state = .connWaiting) (hclear : w.conn.Clear) (hready : w.conn.Ready)
    (hnone : arrivals w.reads = []) : Phase w none [] [] := by
  have hphase := Phase.idle (.inr hstate) hclear hready fun chunk hchunk => by
    rw [hnone] at hchunk
    cases hchunk
  rwa [hnone] at hphase

/-- The turn of a connection that sends its answer. -/
theorem advance_write {msg : List UInt8} {k : ℕ} (hfree : st.pending i = none)
    (hstate : w.conn.state = .connWrite)
    (hclear : w.conn.Clear) (hpart : w.conn.Partway msg k) (hsize : w.conn.wbuf.length = WRITEBUF_LEN)
    (hnone : arrivals w.reads = []) (hturn : w.turn = .ok w') : Advance st i w [] (msg.drop k) w' := by
  unfold turn at hturn
  rw [hstate] at hturn
  obtain ⟨⟨w₁, res⟩, hwrite, hturn⟩ := Result.bind_eq_ok.mp hturn
  have hloop : writeLoop w.writes w = .ok (w₁, res) := hwrite
  have hlength := length_wbuf_writeLoop hloop
  obtain ⟨w₂, res₂, hloop₂, hall, hmore, -⟩ := writeLoop_partway w.writes hpart
  cases hloop.symm.trans hloop₂
  rcases writeLoop_spec hloop with ⟨hres, writes, sent, wlen, now, rfl, -⟩ |
    ⟨rfl, writes, sent, wbuf, now, len, wlen, rfl⟩
  · obtain ⟨k', hk', hsent⟩ := hmore hres
    cases res with
    | all => exact absurd rfl hres
    | part =>
      cases hturn
      exact .silent rfl (hfree ▸ .writing hstate (hclear.congr rfl rfl rfl) hk' hsize hnone) hsent
    | error =>
      cases hturn
      exact .silent rfl (.closed rfl) hsent
  · obtain ⟨hsent, hrested, hlen⟩ := hall rfl
    cases hturn
    refine .silent rfl (hfree ▸ phase_idle rfl (hclear.congr rfl rfl rfl) ?_ hnone)
      ((List.append_nil _).trans hsent)
    exact ⟨hrested.congr rfl rfl rfl rfl, hlen, hlength.trans hsize⟩

/-- The turn that ends a call. -/
theorem advance_waiting (hfree : st.pending i = none) (hstate : w.conn.state = .connWaiting)
    (hclear : w.conn.Clear)
    (hready : w.conn.Ready)
    (hcoming : ∀ chunk ∈ arrivals w.reads, arrivals w.reads = [chunk] ∧ ∃ l, Brings chunk l)
    (hturn : w.turn = .ok w') : Advance st i w (arrivals w.reads) [] w' := by
  unfold turn at hturn
  rw [hstate] at hturn
  cases hturn
  exact .silent rfl (hfree ▸ .idle (.inl rfl) (hclear.congr rfl rfl rfl)
    (hready.congr rfl rfl rfl rfl) hcoming) rfl

theorem advance_closed (hstate : w.conn.state = .connClosed) (hturn : w.turn = .ok w') :
    Advance st i w coming left w' := by
  unfold turn at hturn
  rw [hstate] at hturn
  cases hturn
  exact .silent rfl (.closed hstate) rfl

end World

end MiniMemcached
