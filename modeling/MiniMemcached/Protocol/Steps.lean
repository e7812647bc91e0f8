import MiniMemcached.Protocol.Machine

/-! What the handlers and the turns of a connection can do, one case for each way
through the code. The results about connections argue from these cases and do not
unfold the handlers again. -/

namespace MiniMemcached

open Memory

theorem write_eq_ok {b b' bs : List UInt8} {off : ℕ} :
    write b off bs = .ok b' ↔ off + bs.length ≤ b.length ∧ b' = put b off bs := by
  unfold write
  split
  · rename_i h
    simp only [Except.ok.injEq, h, true_and, eq_comm]
  · rename_i h
    simp [h]

theorem load_eq_ok {b bs : List UInt8} {off n : ℕ} :
    load b off n = .ok bs ↔ off + n ≤ b.length ∧ bs = slice b off n := by
  unfold load
  split
  · rename_i h
    simp only [Except.ok.injEq, h, true_and, eq_comm]
  · rename_i h
    simp [h]

theorem Block.deref_eq_ok {p : Block} {bs : List UInt8} : p.deref = .ok bs ↔ p = .live bs := by
  cases p <;> simp [Block.deref]

namespace Conn

theorem outString_eq_ok {c c' : Conn} {text : List UInt8} :
    c.outString text = .ok c' ↔
      (c.outLine text).length + 2 ≤ c.wbuf.length ∧ c' = c.queue (c.outLine text) := by
  unfold outString
  split
  · rename_i h
    simp only [Except.ok.injEq, h, true_and, eq_comm]
  · rename_i h
    simp [h]

theorem answer_eq_ok {c c' : Conn} {text : List UInt8} :
    c.answer text = .ok c' ↔
      (c.outLine text).length + 2 ≤ c.wbuf.length ∧
        c' = (c.clearRbuf.startWrite).queue (c.outLine text) := outString_eq_ok

end Conn

namespace World

/-- The text is queued, and nothing else is done. -/
def queued (w : World) (text : List UInt8) : World :=
  { w with conn := w.conn.queue (w.conn.outLine text) }

/-- The text is queued, the read buffer is cleared, and the write watcher is started. -/
def answered (w : World) (s : Cache) (text : List UInt8) : World :=
  { w with cache := s, conn := (w.conn.clearRbuf.startWrite).queue (w.conn.outLine text) }

/-- The text has room in the write buffer. -/
def Fits (w : World) (text : List UInt8) : Prop :=
  (w.conn.outLine text).length + 2 ≤ w.conn.wbuf.length

theorem outString_eq_ok {w w' : World} {text : List UInt8} :
    w.outString text = .ok w' ↔ w.Fits text ∧ w' = w.queued text := by
  unfold World.outString
  rw [Result.bind_eq_ok]
  constructor
  · rintro ⟨c, hc, h⟩
    obtain ⟨hlen, rfl⟩ := Conn.outString_eq_ok.mp hc
    cases h
    exact ⟨hlen, rfl⟩
  · rintro ⟨hlen, rfl⟩
    exact ⟨_, Conn.outString_eq_ok.mpr ⟨hlen, rfl⟩, rfl⟩

theorem answer_eq_ok {w w' : World} {text : List UInt8} :
    w.answer text = .ok w' ↔ w.Fits text ∧ w' = w.answered w.cache text := by
  unfold World.answer
  rw [Result.bind_eq_ok]
  constructor
  · rintro ⟨c, hc, h⟩
    obtain ⟨hlen, rfl⟩ := Conn.answer_eq_ok.mp hc
    cases h
    exact ⟨hlen, rfl⟩
  · rintro ⟨hlen, rfl⟩
    exact ⟨_, Conn.answer_eq_ok.mpr ⟨hlen, rfl⟩, rfl⟩

/-- `growWbuf` changes the write buffer alone. -/
theorem growWbuf_spec {w w' : World} {ntotal : ℤ} (h : w.growWbuf ntotal = .ok w') :
    ∃ heap wbuf now len, w' = { w with
      heap := heap
      conn := { w.conn with wbuf := wbuf, wbufNow := now, wbufLen := len } } ∧
      (ntotal ≤ w.conn.wbufLen ∧ wbuf = w.conn.wbuf ∧ now = w.conn.wbufNow ∧ len = w.conn.wbufLen ∨
        wbuf.length = ntotal.toNat) := by
  unfold growWbuf at h
  split at h
  · split at h
    · rename_i heap wbuf hnew
      cases h
      refine ⟨_, _, _, _, rfl, .inr ?_⟩
      simp only [Heap.new, Prod.mk.injEq] at hnew
      obtain ⟨-, hb⟩ := hnew
      split at hb
      · cases hb
        simp
      · cases hb
    · cases h
  · rename_i hle
    cases h
    exact ⟨_, _, _, _, rfl, .inl ⟨Int.not_lt.mp hle, rfl, rfl, rfl⟩⟩

/-- The mark of a line of five tokens. -/
def markPrecmd (w : World) (tokens : List (List UInt8)) : World :=
  { w with conn := { w.conn with flagPrecmd := decide (tokens.length = 5) || w.conn.flagPrecmd } }

/-- The connection with the command of a storage line. -/
def withCmd (w : World) (tokens : List (List UInt8)) : World :=
  { w with conn := { w.conn with cmd := nreadStatSet (tokens.getD 0 []) } }

def setItem (w : World) (s : Cache) (item : Option Ptr) : World :=
  { w with cache := s, conn := { w.conn with item := item } }

/-- A `get` whose key is too long. -/
def LongGet (tokens : List (List UInt8)) : Prop :=
  tokens.length = 2 ∧ tokens.getD 0 [] = bytes "get" ∧ KEY_MAX_LENGTH < (tokens.getD 1 []).length

/-- The ways of a handler through a line with these tokens. -/
inductive Handled (w : World) (tokens : List (List UInt8)) : World → Prop
  | answered (s : Cache) (text : List UInt8) (hlen : tokens.length = 1 ∨ tokens.length = 2)
      (hquit : tokens.getD 0 [] ≠ bytes "quit" ∨ tokens.length = 2)
      (hlong : ¬LongGet tokens) : Handled w tokens (w.answered s text)
  | value (s : Cache) (it : Ptr) (hlen : tokens.length = 2) (hget : tokens.getD 0 [] = bytes "get")
      (hkey : (tokens.getD 1 []).length ≤ KEY_MAX_LENGTH)
      (hitem : w.cache.itemGet (tokens.getD 1 []) = .ok (s, some it)) (heap : Heap)
      (wbuf wbuf' : List UInt8) (now : Option ℕ) (len : ℤ)
      (hbuf : wbuf = w.conn.wbuf ∧ now = w.conn.wbufNow ∧ len = w.conn.wbufLen ∨
        wbuf.length = (toInt (5 + (s.items.nkey it).toNat + 1 + 4 + 2 + s.items.nbytes it)).toNat)
      (hfmt : formatValue wbuf s.items it = .ok wbuf') :
      Handled w tokens { w with
        cache := s
        heap := heap
        conn := { w.conn.clearRbuf.startWrite with
          wbuf := wbuf', wbufNow := now, wbufLen := len, state := .connWrite } }
  | longKey (hlong : LongGet tokens) : Handled w tokens (w.queued BAD_FORMAT)
  | badFormat (hlen : tokens.length = 5 ∨ tokens.length = 6)
      (hparse : parseStoreLine tokens (decide (tokens.length = 6)) = none) :
      Handled w tokens (((w.withCmd tokens).queued BAD_FORMAT).markPrecmd tokens)
  | noMemory (L : StoreLine) (s s' : Cache) (item : Option Ptr) (text : List UInt8)
      (hlen : tokens.length = 5 ∨ tokens.length = 6)
      (hparse : parseStoreLine tokens (decide (tokens.length = 6)) = some L)
      (halloc : w.cache.allocLine L = .ok (s, none)) :
      Handled w tokens ((((w.withCmd tokens).queued text).setItem s' item).markPrecmd tokens)
  | accepted (L : StoreLine) (s : Cache) (it : Ptr) (hlen : tokens.length = 5 ∨ tokens.length = 6)
      (hparse : parseStoreLine tokens (decide (tokens.length = 6)) = some L)
      (halloc : w.cache.allocLine L = .ok (s, some it)) :
      Handled w tokens
        ((({ w.withCmd tokens with cache := s } : World).acceptLine it L).markPrecmd tokens)
  | quit (hlen : tokens.length = 1) (hquit : tokens.getD 0 [] = bytes "quit") :
      Handled w tokens { w with conn := { w.conn with state := .connClosed } }
  | ignored (hlen : tokens.length = 3) : Handled w tokens w
  | empty (hlen : tokens.length ∉ [1, 2, 3, 5, 6]) :
      Handled w tokens { w with conn :=
        { w.conn.clearRbuf with rbufNow := 0, state := .connRead, flagPrecmd := false } }

theorem commandOnePara_spec {w w' : World} {tokens : List (List UInt8)}
    (hlen : tokens.length = 1) (h : w.commandOnePara tokens = .ok w') : Handled w tokens w' := by
  unfold commandOnePara at h
  split at h
  · rename_i hquit
    cases h
    exact .quit hlen hquit
  · rename_i hquit
    split at h
    all_goals
      obtain ⟨-, rfl⟩ := answer_eq_ok.mp h
      exact .answered w.cache _ (.inl hlen) (.inl hquit) fun hg => by simp [LongGet, hlen] at hg

theorem deleteCommand_spec {w w' : World} {tokens : List (List UInt8)}
    (hlen : tokens.length = 2) (hlong : ¬LongGet tokens) (h : w.deleteCommand tokens = .ok w') :
    Handled w tokens w' := by
  unfold deleteCommand at h
  obtain ⟨⟨s, o⟩, -, h⟩ := Result.bind_eq_ok.mp h
  cases o with
  | none =>
    obtain ⟨-, rfl⟩ := answer_eq_ok.mp h
    exact .answered s _ (.inr hlen) (.inr hlen) hlong
  | some it =>
    obtain ⟨s', -, h⟩ := Result.bind_eq_ok.mp h
    obtain ⟨-, rfl⟩ := answer_eq_ok.mp h
    exact .answered _ _ (.inr hlen) (.inr hlen) hlong

theorem getCommand_spec {w w' : World} {tokens : List (List UInt8)} (hlen : tokens.length = 2)
    (hget : tokens.getD 0 [] = bytes "get") (h : w.getCommand tokens = .ok w') :
    Handled w tokens w' := by
  unfold getCommand at h
  dsimp only at h
  split at h
  · rename_i hkey
    obtain ⟨-, rfl⟩ := outString_eq_ok.mp h
    exact .longKey ⟨hlen, hget, hkey⟩
  · rename_i hkey
    obtain ⟨⟨s, o⟩, hitem, h⟩ := Result.bind_eq_ok.mp h
    cases o with
    | none =>
      obtain ⟨-, rfl⟩ := answer_eq_ok.mp h
      exact .answered s _ (.inr hlen) (.inr hlen) fun hg => hkey hg.2.2
    | some it =>
      obtain ⟨wg, hgrow, h⟩ := Result.bind_eq_ok.mp h
      obtain ⟨heap, wbuf, now, len, rfl, hbuf⟩ := growWbuf_spec hgrow
      obtain ⟨wbuf', hfmt, h⟩ := Result.bind_eq_ok.mp h
      cases h
      exact .value s it hlen hget (by omega) hitem heap _ wbuf' now len
        (hbuf.imp_left And.right) hfmt

theorem commandTwoPara_spec {w w' : World} {tokens : List (List UInt8)}
    (hlen : tokens.length = 2) (h : w.commandTwoPara tokens = .ok w') : Handled w tokens w' := by
  unfold commandTwoPara at h
  split at h
  · rename_i hget
    exact getCommand_spec hlen hget h
  · rename_i hget
    have hlong : ¬LongGet tokens := fun hg => hget hg.2.1
    split at h
    · exact deleteCommand_spec hlen hlong h
    · obtain ⟨-, rfl⟩ := answer_eq_ok.mp h
      exact .answered w.cache _ (.inr hlen) (.inr hlen) hlong

/-- A line without memory queues a text and leaves the item that was removed. -/
theorem refuseLine_spec {w w' : World} {L : StoreLine} (h : w.refuseLine L = .ok w') :
    ∃ (s : Cache) (item : Option Ptr) (text : List UInt8), w' = (w.queued text).setItem s item := by
  unfold refuseLine at h
  obtain ⟨w₁, hout, h⟩ := Result.bind_eq_ok.mp h
  obtain ⟨-, rfl⟩ := outString_eq_ok.mp hout
  split at h
  · obtain ⟨⟨s, o⟩, -, h⟩ := Result.bind_eq_ok.mp h
    cases o with
    | none =>
      cases h
      exact ⟨_, _, _, rfl⟩
    | some it =>
      obtain ⟨s', -, h⟩ := Result.bind_eq_ok.mp h
      cases h
      exact ⟨_, _, _, rfl⟩
  · cases h
    exact ⟨w.cache, none, _, rfl⟩

/-- The ways of a storage line. -/
theorem commandFiveSixPara_spec {w w' : World} {tokens : List (List UInt8)} {cas : Bool}
    (h : w.commandFiveSixPara tokens cas = .ok w') :
    (parseStoreLine tokens cas = none ∧ w' = (w.withCmd tokens).queued BAD_FORMAT) ∨
    (∃ (L : StoreLine) (s s' : Cache) (item : Option Ptr) (text : List UInt8),
      parseStoreLine tokens cas = some L ∧ w.cache.allocLine L = .ok (s, none) ∧
      w' = ((w.withCmd tokens).queued text).setItem s' item) ∨
    ∃ (L : StoreLine) (s : Cache) (it : Ptr),
      parseStoreLine tokens cas = some L ∧ w.cache.allocLine L = .ok (s, some it) ∧
      w' = ({ w.withCmd tokens with cache := s } : World).acceptLine it L := by
  unfold commandFiveSixPara at h
  dsimp only at h
  split at h
  · rename_i hparse
    obtain ⟨-, rfl⟩ := outString_eq_ok.mp h
    exact .inl ⟨hparse, rfl⟩
  · rename_i L hparse
    obtain ⟨⟨s, o⟩, halloc, h⟩ := Result.bind_eq_ok.mp h
    cases o with
    | none =>
      obtain ⟨s', item, text, rfl⟩ := refuseLine_spec h
      exact .inr (.inl ⟨L, s, s', item, text, hparse, halloc, rfl⟩)
    | some it =>
      cases h
      exact .inr (.inr ⟨L, s, it, hparse, halloc, rfl⟩)

theorem handled_storage {w w₁ w' : World} {tokens : List (List UInt8)}
    (hlen : tokens.length = 5 ∨ tokens.length = 6)
    (h : w.commandFiveSixPara tokens (decide (tokens.length = 6)) = .ok w₁)
    (hw' : w' = w₁.markPrecmd tokens) : Handled w tokens w' := by
  subst hw'
  rcases commandFiveSixPara_spec h with ⟨hparse, rfl⟩ |
    ⟨L, s, s', item, text, hparse, halloc, rfl⟩ | ⟨L, s, it, hparse, halloc, rfl⟩
  · exact .badFormat hlen hparse
  · exact .noMemory L s s' item text hlen hparse halloc
  · exact .accepted L s it hlen hparse halloc

theorem dispatch_spec {w w' : World} {tokens : List (List UInt8)}
    (h : w.dispatch tokens = .ok w') : Handled w tokens w' := by
  unfold dispatch at h
  split at h
  · rename_i hlen
    exact commandOnePara_spec hlen h
  · rename_i hlen
    exact commandTwoPara_spec hlen h
  · rename_i hlen
    cases h
    exact .ignored hlen
  · rename_i hlen
    obtain ⟨w₁, h₁, h⟩ := Result.bind_eq_ok.mp h
    cases h
    exact handled_storage (.inl hlen) (by rw [hlen]; exact h₁) (by simp [markPrecmd, hlen])
  · rename_i hlen
    exact handled_storage (.inr hlen) (by rw [hlen]; exact h) (by simp [markPrecmd, hlen])
  · rename_i h1 h2 h3 h5 h6
    cases h
    exact .empty (by simpa using ⟨h1, h2, h3, h5, h6⟩)

/-- What a handler leaves alone: the flags of the loop, the size of the read buffer,
and what was received, sent and done. -/
structure Framed (w w' : World) : Prop where
  flagStop : w'.conn.flagStop = w.conn.flagStop
  flagShake : w'.conn.flagShake = w.conn.flagShake
  length : w'.conn.rbuf.length = w.conn.rbuf.length
  reads : w'.reads = w.reads
  writes : w'.writes = w.writes
  sent : w'.sent = w.sent
  deeds : w'.deeds = w.deeds

theorem Handled.framed {w w' : World} {tokens : List (List UInt8)} (h : Handled w tokens w') :
    Framed w w' := by
  cases h
  case answered => exact ⟨rfl, rfl, length_zeros _, rfl, rfl, rfl, rfl⟩
  case value => exact ⟨rfl, rfl, length_zeros _, rfl, rfl, rfl, rfl⟩
  case empty => exact ⟨rfl, rfl, length_zeros _, rfl, rfl, rfl, rfl⟩
  all_goals exact ⟨rfl, rfl, rfl, rfl, rfl, rfl, rfl⟩

/-- A block taken from behind a line. -/
def tookBlock (w : World) (rnbuf value : List UInt8) (valueLen : ℤ) : World :=
  { w with
    conn := { w.conn with
      rnbuf := .live rnbuf
      rnbufRlen := valueLen - 2
      state := .connNread
      flagPrecmd := false
      flagShake := true }
    deeds := w.deeds ++ [.block value] }

/-- The bytes behind a line moved to the front of the buffer. -/
def tookLine (w : World) (rest : List UInt8) (valueLen : ℤ) : World :=
  { w with conn := { w.conn with
    rbuf := put w.conn.rbuf 0 (rest ++ [0])
    rbufNow := 0
    rbufRlen := valueLen
    state := .connParseCmd
    flagShake := true } }

/-- The ways through `conn_shake`. -/
inductive Shaken (w : World) (tempEnd : ℕ) (valueLen : ℤ) : World → Prop
  | kept (hscan : memchr w.conn.rbuf tempEnd (toSizeT valueLen) 13 = .missing) :
      Shaken w tempEnd valueLen w
  | block (i : ℕ) (hscan : memchr w.conn.rbuf tempEnd (toSizeT valueLen) 13 = .found i)
      (hprecmd : w.conn.flagPrecmd = true) (rnbuf : List UInt8) (hlive : w.conn.rnbuf = .live rnbuf)
      (hload : tempEnd + toSizeT (valueLen - 2) ≤ w.conn.rbuf.length)
      (hroom : toSizeT (valueLen - 2) + 1 ≤ rnbuf.length) :
      Shaken w tempEnd valueLen (w.tookBlock
        (put rnbuf 0 (slice w.conn.rbuf tempEnd (toSizeT (valueLen - 2)) ++ [0]))
        (slice w.conn.rbuf tempEnd (toSizeT (valueLen - 2))) valueLen)
  | line (i : ℕ) (hscan : memchr w.conn.rbuf tempEnd (toSizeT valueLen) 13 = .found i)
      (hprecmd : w.conn.flagPrecmd = false)
      (hload : tempEnd + toSizeT valueLen ≤ w.conn.rbuf.length)
      (hroom : toSizeT valueLen + 1 ≤ w.conn.rbuf.length) :
      Shaken w tempEnd valueLen (w.tookLine (slice w.conn.rbuf tempEnd (toSizeT valueLen)) valueLen)

theorem connShake_spec {w w' : World} {tempEnd : ℕ} {valueLen : ℤ}
    (h : w.connShake tempEnd valueLen = .ok w') : Shaken w tempEnd valueLen w' := by
  unfold connShake at h
  split at h
  · cases h
  · rename_i hscan
    cases h
    exact .kept hscan
  · rename_i i hscan
    split at h
    · rename_i hprecmd
      obtain ⟨rnbuf, hlive, h⟩ := Result.bind_eq_ok.mp h
      obtain ⟨value, hvalue, h⟩ := Result.bind_eq_ok.mp h
      obtain ⟨rnbuf', hwrite, h⟩ := Result.bind_eq_ok.mp h
      obtain ⟨hload, rfl⟩ := load_eq_ok.mp hvalue
      obtain ⟨hroom, rfl⟩ := write_eq_ok.mp hwrite
      cases h
      rw [List.length_append, length_slice hload, List.length_singleton] at hroom
      exact .block i hscan hprecmd rnbuf (Block.deref_eq_ok.mp hlive) hload (by omega)
    · rename_i hprecmd
      obtain ⟨rest, hrest, h⟩ := Result.bind_eq_ok.mp h
      obtain ⟨rbuf, hwrite, h⟩ := Result.bind_eq_ok.mp h
      obtain ⟨hload, rfl⟩ := load_eq_ok.mp hrest
      obtain ⟨hroom, rfl⟩ := write_eq_ok.mp hwrite
      cases h
      rw [List.length_append, length_slice hload, List.length_singleton] at hroom
      exact .line i hscan (by simpa using hprecmd) hload (by omega)

/-- The connection after the command of the line that ends at `endflag`. -/
def logged (w : World) (endflag : ℕ) (next : List UInt8) : World :=
  let w := w.cutLine endflag next
  { w with deeds := w.deeds ++ [.command (tokensOf (cstring w.conn.rbuf))] }

/-- The tokens of the line that ends at `endflag`. -/
def tokensAt (w : World) (endflag : ℕ) : List (List UInt8) :=
  tokensOf (cstring (w.conn.rbuf.set (cutAt w.conn endflag) 0))

/-- The ways through `try_read_command`. -/
inductive Parsed (w : World) : World → Bool → Prop
  | nothing (hrlen : w.conn.rbufRlen = 0) : Parsed w w false
  | alone (endflag : ℕ) (hrlen : w.conn.rbufRlen ≠ 0)
      (hscan : memchr w.conn.rbuf 0 (toSizeT w.conn.rbufRlen) 10 = .found endflag)
      (hroom : endflag + 2 ≤ w.conn.rbuf.length) (hnext : slice w.conn.rbuf (endflag + 1) 1 = [0])
      (w₁ : World) (hhandled : Handled (w.logged endflag [0]) (w.tokensAt endflag) w₁) :
      Parsed w (w₁.passLine (endflag + 1)) true
  | followed (endflag : ℕ) (hrlen : w.conn.rbufRlen ≠ 0)
      (hscan : memchr w.conn.rbuf 0 (toSizeT w.conn.rbufRlen) 10 = .found endflag)
      (hroom : endflag + 2 ≤ w.conn.rbuf.length) (next : List UInt8)
      (hnext : slice w.conn.rbuf (endflag + 1) 1 = next) (hne : next ≠ [0]) (w₁ w₂ : World)
      (hhandled : Handled (w.logged endflag next) (w.tokensAt endflag) w₁)
      (hshaken : Shaken w₁ (endflag + 1) (w₁.conn.rbufRlen - (endflag + 1)) w₂) : Parsed w w₂ true

theorem tryReadCommand_spec {w w' : World} {ret : Bool} (h : w.tryReadCommand = .ok (w', ret)) :
    Parsed w w' ret := by
  unfold tryReadCommand at h
  split at h
  · rename_i hrlen
    cases h
    exact .nothing hrlen
  · rename_i hrlen
    split at h
    · cases h
    · cases h
    · rename_i endflag hscan
      obtain ⟨next, hload, h⟩ := Result.bind_eq_ok.mp h
      obtain ⟨hroom, hnext⟩ := load_eq_ok.mp hload
      obtain ⟨w₁, hproc, h⟩ := Result.bind_eq_ok.mp h
      have hhandled : Handled (w.logged endflag next) (w.tokensAt endflag) w₁ := dispatch_spec hproc
      have hflag : w₁.conn.flagShake = decide (next ≠ [0]) := hhandled.framed.flagShake
      split at h
      · rename_i hshake
        obtain ⟨w₂, hsh, h⟩ := Result.bind_eq_ok.mp h
        cases h
        exact .followed endflag hrlen hscan (by omega) next hnext.symm
          (by simpa [hflag] using hshake) w₁ _ hhandled (connShake_spec hsh)
      · rename_i hshake
        cases h
        have hzero : next = [0] := by simpa [hflag] using hshake
        subst hzero
        exact .alone endflag hrlen hscan (by omega) hnext.symm w₁ hhandled

/-- How much the socket still has to give: its results and their bytes. -/
def readWeight : ReadResult → ℕ
  | .data bs => bs.length + 1
  | .again => 1
  | .failed => 1

def readsLeft (w : World) : ℕ := (w.reads.map readWeight).sum

/-- What `read` with room for `n` bytes does: it takes a result, or the front of one. -/
inductive Taken (w : World) (n : ℕ) : World → ReadResult → Prop
  | noRoom (hn : n = 0) : Taken w n w (.data [])
  | dry (hn : n ≠ 0) (hreads : w.reads = []) : Taken w n w .again
  | took (hn : n ≠ 0) (reads : List ReadResult) (r : ReadResult)
      (hlt : (reads.map readWeight).sum < w.readsLeft)
      (hfit : ∀ bs, r = .data bs → bs.length ≤ n) : Taken w n { w with reads := reads } r

theorem read_spec {w w' : World} {n : ℕ} {r : ReadResult} (h : w.read n = (w', r)) :
    Taken w n w' r := by
  unfold read at h
  split at h
  · rename_i hn
    cases h
    exact .noRoom hn
  · rename_i hn
    have hleft : ∀ r rest, w.reads = r :: rest → (rest.map readWeight).sum + readWeight r = w.readsLeft := by
      intro r rest hreads
      simp [readsLeft, hreads, Nat.add_comm]
    split at h
    · rename_i hreads
      cases h
      exact .dry hn hreads
    · rename_i rest hreads
      cases h
      have := hleft _ _ hreads
      exact .took hn rest .again (by simp [readWeight] at this; omega) (fun bs hbs => nomatch hbs)
    · rename_i rest hreads
      cases h
      have := hleft _ _ hreads
      exact .took hn rest .failed (by simp [readWeight] at this; omega) (fun bs hbs => nomatch hbs)
    · rename_i bs rest hreads
      have := hleft _ _ hreads
      simp only [readWeight] at this
      split at h
      · rename_i hfit
        cases h
        exact .took hn rest (.data bs) (by omega) (fun b hb => by cases hb; exact hfit)
      · rename_i hfit
        cases h
        refine .took hn _ _ ?_ (fun b hb => by cases hb; exact List.length_take_le n bs)
        simp only [List.map_cons, List.sum_cons, readWeight, List.length_drop]
        omega

/-- The part of a connection that reading a request changes. -/
structure Fetched (w w' : World) : Prop where
  world : ∃ heap reads rbuf now rlen, w' = { w with
    heap := heap
    reads := reads
    conn := { w.conn with rbuf := rbuf, rbufNow := now, rbufRlen := rlen } }
  length : w.conn.rbuf.length < 2 ^ 31 → w'.conn.rbuf.length < 2 ^ 31
  readsLeft : w'.readsLeft ≤ w.readsLeft

theorem Fetched.refl (w : World) : Fetched w w :=
  ⟨⟨w.heap, w.reads, w.conn.rbuf, w.conn.rbufNow, w.conn.rbufRlen, rfl⟩, id, le_rfl⟩

theorem Fetched.trans {w w' w'' : World} (h : Fetched w w') (h' : Fetched w' w'') : Fetched w w'' := by
  obtain ⟨heap, reads, rbuf, now, rlen, rfl⟩ := h.world
  obtain ⟨heap', reads', rbuf', now', rlen', rfl⟩ := h'.world
  exact ⟨⟨heap', reads', rbuf', now', rlen', rfl⟩, fun hlen => h'.length (h.length hlen),
    h'.readsLeft.trans h.readsLeft⟩

theorem growRbuf_spec {w w' : World} {grown : Bool} (h : w.growRbuf = (w', grown)) :
    Fetched w w' := by
  unfold growRbuf Heap.new at h
  dsimp only at h
  split at h
  · rename_i heap b hnew
    cases h
    refine ⟨⟨_, _, _, _, _, rfl⟩, fun _ => ?_, le_rfl⟩
    simp only [Prod.mk.injEq] at hnew
    obtain ⟨-, hb⟩ := hnew
    split at hb
    · rename_i hlt
      cases hb
      show (put _ 0 w.conn.rbuf).length < _
      rw [length_put (by simp; omega)]
      simpa using hlt.1
    · cases hb
  · cases h
    exact ⟨⟨_, _, _, _, _, rfl⟩, id, le_rfl⟩

theorem makeRoom_spec {w w' : World} {grown : Bool} (h : w.makeRoom = (w', grown)) :
    Fetched w w' := by
  unfold makeRoom at h
  split at h
  · exact growRbuf_spec h
  · cases h
    exact .refl w

theorem readRound_spec {w w' : World} {round : Round} (h : w.readRound = .ok (w', round)) :
    Fetched w w' ∧ (round = .part ∨ round = .full → w'.readsLeft < w.readsLeft) := by
  unfold readRound at h
  dsimp only at h
  split at h
  all_goals rename_i hread
  all_goals have htaken := read_spec hread
  · cases h
    cases htaken with
    | took hn reads r hlt => exact ⟨⟨⟨_, _, _, _, _, rfl⟩, id, Nat.le_of_lt hlt⟩, by simp⟩
  · cases h
    cases htaken with
    | dry => exact ⟨.refl w, by simp⟩
    | took hn reads r hlt => exact ⟨⟨⟨_, _, _, _, _, rfl⟩, id, Nat.le_of_lt hlt⟩, by simp⟩
  · cases h
    cases htaken with
    | noRoom => exact ⟨.refl w, by simp⟩
    | took hn reads r hlt => exact ⟨⟨⟨_, _, _, _, _, rfl⟩, id, Nat.le_of_lt hlt⟩, by simp⟩
  · rename_i bs hbs
    split at h
    · cases h
    · rename_i hneg
      obtain ⟨rbuf, hwrite, h⟩ := Result.bind_eq_ok.mp h
      obtain ⟨hroom, rfl⟩ := write_eq_ok.mp hwrite
      cases h
      cases htaken with
      | noRoom => exact absurd rfl hbs
      | took hn reads r hlt =>
        exact ⟨⟨⟨_, _, _, _, _, rfl⟩, fun hlen => (length_put hroom).trans_lt hlen, Nat.le_of_lt hlt⟩,
          fun _ => hlt⟩

/-- What reading a request comes to. Unless there is no memory, the state and the
watchers stay, and bytes that were received are taken from the socket. -/
theorem readLoop_spec {fuel : ℕ} {numAlloc : ℕ} {st res : ReadState} {w w' : World}
    (h : readLoop fuel numAlloc st w = .ok (w', res)) (hst : st ≠ .memoryError) :
    (res ≠ .memoryError ∧ Fetched w w' ∧
      (res = .received → st = .received ∨ w'.readsLeft < w.readsLeft)) ∨
    ∃ w₁ text, res = .memoryError ∧ Fetched w w₁ ∧ w' = w₁.queued text := by
  induction fuel generalizing numAlloc st w with
  | zero => cases h
  | succ fuel ih =>
    unfold readLoop at h
    dsimp only at h
    split at h
    · cases h
      exact .inl ⟨hst, .refl _, .inl⟩
    · split at h
      · rename_i w₁ hroom
        obtain ⟨w₂, hout, h⟩ := Result.bind_eq_ok.mp h
        obtain ⟨-, rfl⟩ := outString_eq_ok.mp hout
        cases h
        exact .inr ⟨w₁, _, rfl, makeRoom_spec hroom, rfl⟩
      · rename_i w₁ hroom
        have hf := makeRoom_spec hroom
        obtain ⟨⟨w₂, round⟩, hround, h⟩ := Result.bind_eq_ok.mp h
        obtain ⟨hf', hlt⟩ := readRound_spec hround
        have hle := hf.readsLeft
        cases round with
        | again =>
          cases h
          exact .inl ⟨hst, hf.trans hf', .inl⟩
        | error =>
          cases h
          exact .inl ⟨by simp, hf.trans hf', by simp⟩
        | part =>
          cases h
          exact .inl ⟨by simp, hf.trans hf', fun _ => .inr (lt_of_lt_of_le (hlt (.inl rfl)) hle)⟩
        | full =>
          have hlt := hlt (.inr rfl)
          rcases ih h (by simp) with ⟨hres, hf'', -⟩ | ⟨w₃, text, hres, hf'', rfl⟩
          · have hle' : w'.readsLeft ≤ w₂.readsLeft := hf''.readsLeft
            exact .inl ⟨hres, (hf.trans hf').trans hf'', fun _ => .inr (by omega)⟩
          · exact .inr ⟨w₃, text, hres, (hf.trans hf').trans hf'', rfl⟩

theorem moveDown_spec {w w' : World} (h : w.moveDown = .ok w') : Fetched w w' := by
  unfold moveDown at h
  split at h
  · cases h
    exact .refl w
  · split at h
    · cases h
      exact ⟨⟨_, _, _, _, _, rfl⟩, id, le_rfl⟩
    · obtain ⟨held, hload, h⟩ := Result.bind_eq_ok.mp h
      obtain ⟨rbuf, hwrite, h⟩ := Result.bind_eq_ok.mp h
      obtain ⟨hroom, rfl⟩ := write_eq_ok.mp hwrite
      cases h
      exact ⟨⟨_, _, _, _, _, rfl⟩, fun hlen => (length_put hroom).trans_lt hlen, le_rfl⟩

theorem tryReadTcp_spec {res : ReadState} {w w' : World} (h : w.tryReadTcp = .ok (w', res)) :
    (res ≠ .memoryError ∧ Fetched w w' ∧ (res = .received → w'.readsLeft < w.readsLeft)) ∨
    ∃ w₁ text, res = .memoryError ∧ Fetched w w₁ ∧ w' = w₁.queued text := by
  obtain ⟨w₁, hmove, hloop⟩ := Result.bind_eq_ok.mp h
  have hf := moveDown_spec hmove
  have hle := hf.readsLeft
  rcases readLoop_spec hloop (by simp) with ⟨hres, hf', hgot⟩ | ⟨w₂, text, hres, hf', rfl⟩
  · refine .inl ⟨hres, hf.trans hf', fun hr => ?_⟩
    rcases hgot hr with hno | hlt
    · cases hno
    · omega
  · exact .inr ⟨w₂, text, hres, hf.trans hf', rfl⟩

/-- The block of a storage command is complete and the item is stored. -/
def storedWith (w : World) (s : Cache) (cas : UInt64) (text value : List UInt8) (key : List UInt8)
    (stat : StoreStat) : World :=
  { w with
    cache := s
    conn := ({ w.conn.clearRbuf with rnbuf := .dangling, rnbufRlen := 0, cas := cas } : Conn).queue
      (w.conn.outLine text) |>.startWrite
    deeds := w.deeds ++ [.store w.conn.cmd key value stat] }

/-- The ways through the end of `read_value_stored`. -/
inductive Finished (w : World) : World → Prop
  | incomplete (hlen : w.conn.rnbufLen ≠ w.conn.rnbufRlen) : Finished w w
  | unknown (hlen : w.conn.rnbufLen = w.conn.rnbufRlen) (hcmd : w.conn.cmd = .error) :
      Finished w { w with conn := w.conn.startWrite }
  | stored (hlen : w.conn.rnbufLen = w.conn.rnbufRlen) (hcmd : w.conn.cmd ≠ .error) (it : Ptr)
      (hitem : w.conn.item = some it) (rnbuf : List UInt8) (hlive : w.conn.rnbuf = .live rnbuf)
      (hvalue : toSizeT w.conn.rnbufLen ≤ rnbuf.length) (s : Cache) (stat : StoreStat)
      (cas : Option UInt64)
      (hstore : w.cache.commandBlock it w.conn.cmd (slice rnbuf 0 (toSizeT w.conn.rnbufLen)) =
        .ok (s, stat, cas)) :
      Finished w (w.storedWith s (cas.getD w.conn.cas) (storeAnswer w.conn.cmd stat)
        (slice rnbuf 0 (toSizeT w.conn.rnbufLen)) (w.cache.items.key it) stat)

theorem finishValue_spec {w w' : World} (h : w.finishValue = .ok w') : Finished w w' := by
  unfold finishValue at h
  split at h
  · rename_i hlen
    cases h
    exact .incomplete hlen
  · rename_i hlen
    have hlen : w.conn.rnbufLen = w.conn.rnbufRlen := by simpa using hlen
    split at h
    · rename_i hcmd
      cases h
      exact .unknown hlen hcmd
    · rename_i hcmd
      obtain ⟨w₁, hstore, h⟩ := Result.bind_eq_ok.mp h
      cases h
      unfold storeValue at hstore
      split at hstore
      · cases hstore
      · rename_i it hitem
        obtain ⟨rnbuf, hlive, hstore⟩ := Result.bind_eq_ok.mp hstore
        obtain ⟨value, hload, hstore⟩ := Result.bind_eq_ok.mp hstore
        obtain ⟨hvalue, rfl⟩ := load_eq_ok.mp hload
        obtain ⟨⟨s, stat, cas⟩, hblock, hstore⟩ := Result.bind_eq_ok.mp hstore
        dsimp only at hstore
        split at hstore
        · cases hstore
        · obtain ⟨c, hout, hstore⟩ := Result.bind_eq_ok.mp hstore
          obtain ⟨-, rfl⟩ := Conn.outString_eq_ok.mp hout
          cases hstore
          exact .stored hlen hcmd it hitem rnbuf (Block.deref_eq_ok.mp hlive) (by omega) s stat cas hblock

/-- A part of the block read from the socket. -/
def tookPart (w : World) (reads : List ReadResult) (rnbuf bs : List UInt8) : World :=
  { w with
    reads := reads
    conn := { w.conn with
      rnbuf := .live (put rnbuf 0 bs)
      rnbufRlen := w.conn.rnbufRlen + bs.length }
    deeds := w.deeds ++ [.block bs] }

/-- There is no buffer for the bytes that the socket has. -/
structure Nowhere (w : World) : Prop where
  buffer : w.conn.rnbuf = .null
  room : toSizeT (w.conn.rnbufLen - w.conn.rnbufRlen) ≠ 0
  waiting : ∃ bs rest, bs ≠ [] ∧ w.reads = .data bs :: rest

/-- The ways through `read_value_stored`. -/
inductive Valued (w : World) : World → Prop
  | shaken (hshake : w.conn.flagShake = true) (w' : World) (hfin : Finished w w') : Valued w w'
  | dry (hshake : w.conn.flagShake = false)
      (hroom : toSizeT (w.conn.rnbufLen - w.conn.rnbufRlen) ≠ 0)
      (hlen : w.conn.rnbufLen ≠ w.conn.rnbufRlen) (hreads : w.reads = []) : Valued w w
  | again (hshake : w.conn.flagShake = false) (hlen : w.conn.rnbufLen ≠ w.conn.rnbufRlen)
      (reads : List ReadResult)
      (hlt : (reads.map readWeight).sum < w.readsLeft) : Valued w { w with reads := reads }
  | noRoom (hshake : w.conn.flagShake = false) (hlen : w.conn.rnbufLen = w.conn.rnbufRlen)
      (w' : World) (hfin : Finished w w') : Valued w w'
  | failed (hshake : w.conn.flagShake = false) (hlen : w.conn.rnbufLen ≠ w.conn.rnbufRlen)
      (reads : List ReadResult)
      (hlt : (reads.map readWeight).sum < w.readsLeft) (w' : World)
      (hfin : Finished { w with reads := reads } w') : Valued w w'
  | closed (hshake : w.conn.flagShake = false) (hlen : w.conn.rnbufLen ≠ w.conn.rnbufRlen)
      (reads : List ReadResult)
      (hlt : toSizeT (w.conn.rnbufLen - w.conn.rnbufRlen) = 0 ∧ reads = w.reads ∨
        (reads.map readWeight).sum < w.readsLeft) :
      Valued w (({ w with reads := reads } : World).setState .connClosed)
  | part (hshake : w.conn.flagShake = false) (hlen : w.conn.rnbufLen ≠ w.conn.rnbufRlen)
      (reads : List ReadResult)
      (hlt : (reads.map readWeight).sum < w.readsLeft) (rnbuf bs : List UInt8)
      (hlive : w.conn.rnbuf = .live rnbuf) (hroom : bs.length ≤ rnbuf.length)
      (hfit : bs.length ≤ toSizeT (w.conn.rnbufLen - w.conn.rnbufRlen)) (w' : World)
      (hfin : Finished (w.tookPart reads rnbuf bs) w') : Valued w w'
  | nowhere (hshake : w.conn.flagShake = false) (hnowhere : w.Nowhere) : Valued w w

theorem ne_of_room {a b : ℤ} (h : toSizeT (a - b) ≠ 0) : a ≠ b := by
  rintro rfl
  exact h (by rw [sub_self]; rfl)

theorem Nowhere.incomplete {w : World} (h : w.Nowhere) : w.conn.rnbufLen ≠ w.conn.rnbufRlen :=
  ne_of_room h.room

/-- Bytes are handed out from those that wait. -/
theorem read_waiting {w w' : World} {n : ℕ} {bs : List UInt8} (h : w.read n = (w', .data bs))
    (hbs : bs ≠ []) : n ≠ 0 ∧ ∃ front rest, front ≠ [] ∧ w.reads = .data front :: rest := by
  unfold read at h
  split at h
  · cases h
    exact absurd rfl hbs
  · rename_i hn
    refine ⟨hn, ?_⟩
    split at h
    · cases h
    · cases h
    · cases h
    · rename_i front rest hreads
      refine ⟨front, rest, ?_, hreads⟩
      rintro rfl
      simp only [List.length_nil, Nat.zero_le, if_true] at h
      cases h
      exact absurd rfl hbs

theorem Nowhere.read {w : World} (h : w.Nowhere) :
    ∃ taken b bs, w.read (toSizeT (w.conn.rnbufLen - w.conn.rnbufRlen)) = (taken, .data (b :: bs)) := by
  obtain ⟨bs, rest, hbs, hreads⟩ := h.waiting
  obtain ⟨b, bs, rfl⟩ := List.exists_cons_of_ne_nil hbs
  unfold World.read
  rw [if_neg h.room, hreads]
  dsimp only
  split_ifs
  · exact ⟨_, b, bs, rfl⟩
  · obtain ⟨m, hm⟩ := Nat.exists_eq_succ_of_ne_zero h.room
    exact ⟨_, b, bs.take m, by rw [hm, List.take_succ_cons]⟩

/-- Where there is no buffer for the bytes that wait, nothing happens. -/
theorem readValueStored_nowhere {w : World} (hshake : w.conn.flagShake = false) (h : w.Nowhere) :
    w.readValueStored = .ok w := by
  obtain ⟨taken, b, bs, hread⟩ := h.read
  unfold readValueStored
  rw [if_neg (by simp [hshake]), hread]
  dsimp only
  rw [if_pos h.buffer]
  exact if_pos h.incomplete

theorem readValueStored_spec {w w' : World} (h : w.readValueStored = .ok w') : Valued w w' := by
  unfold readValueStored at h
  split at h
  · rename_i hshake
    exact .shaken hshake w' (finishValue_spec h)
  · rename_i hshake
    have hshake : w.conn.flagShake = false := by simpa using hshake
    split at h
    all_goals rename_i hread
    all_goals have htaken := read_spec hread
    · cases h
      cases htaken with
      | dry hn hreads => exact .dry hshake hn (ne_of_room hn) hreads
      | took hn reads r hlt => exact .again hshake (ne_of_room hn) reads hlt
    · cases htaken with
      | took hn reads r hlt => exact .failed hshake (ne_of_room hn) reads hlt w' (finishValue_spec h)
    · split at h
      · rename_i hlen
        cases h
        cases htaken with
        | noRoom hn => exact .closed hshake (fun e => hlen e.symm) w.reads (.inl ⟨hn, rfl⟩)
        | took hn reads r hlt => exact .closed hshake (fun e => hlen e.symm) reads (.inr hlt)
      · rename_i hlen
        cases htaken with
        | noRoom =>
          have hlen : w.conn.rnbufLen = w.conn.rnbufRlen := by simpa [eq_comm] using hlen
          exact .noRoom hshake hlen w' (finishValue_spec h)
        | took hn =>
          have hlen : w.conn.rnbufLen = w.conn.rnbufRlen := by simpa [eq_comm] using hlen
          exact absurd hlen (ne_of_room hn)
    · rename_i bs hbs
      split at h
      · rename_i hnull
        obtain ⟨hroom, hwaiting⟩ := read_waiting hread hbs
        have hnowhere : w.Nowhere := ⟨hnull, hroom, hwaiting⟩
        rw [show w.finishValue = .ok w from if_pos hnowhere.incomplete] at h
        cases h
        exact .nowhere hshake hnowhere
      · obtain ⟨rnbuf, hlive, h⟩ := Result.bind_eq_ok.mp h
        obtain ⟨rnbuf', hwrite, h⟩ := Result.bind_eq_ok.mp h
        obtain ⟨hroom, rfl⟩ := write_eq_ok.mp hwrite
        cases htaken with
        | noRoom => exact absurd rfl hbs
        | took hn reads r hlt hfit =>
          exact .part hshake (ne_of_room hn) reads hlt rnbuf bs (Block.deref_eq_ok.mp hlive) (by omega)
            (hfit bs rfl) w' (finishValue_spec h)

/-- What writing comes to: some of the answer is left, and the socket takes no more for
now; or the answer is out, and the connection listens again; or the socket failed. -/
theorem writeLoop_spec {ws : List WriteResult} {w w' : World} {res : WriteState}
    (h : writeLoop ws w = .ok (w', res)) :
    (res ≠ .all ∧ ∃ writes sent wlen now, w' = { w with
        writes := writes
        sent := sent
        conn := { w.conn with wbufWlen := wlen, wbufNow := now } } ∧
      writes.length ≤ ws.length - 1) ∨
    (res = .all ∧ ∃ writes sent wbuf now len wlen, w' = { w with
      writes := writes
      sent := sent
      conn := { w.conn.startRead with
        wbuf := wbuf, wbufNow := now, wbufLen := len, wbufWlen := wlen } }) := by
  induction ws generalizing w with
  | nil =>
    unfold writeLoop at h
    split at h
    · cases h
      exact .inr ⟨rfl, _, _, _, _, _, _, rfl⟩
    · cases h
      exact .inl ⟨by simp, _, _, _, _, rfl, le_rfl⟩
  | cons r rest ih =>
    unfold writeLoop at h
    dsimp only at h
    split at h
    · cases h
      exact .inr ⟨rfl, _, _, _, _, _, _, rfl⟩
    · split at h
      · cases h
        exact .inl ⟨by simp, _, _, _, _, rfl, le_rfl⟩
      · cases h
        exact .inl ⟨by simp, _, _, _, _, rfl, le_rfl⟩
      · split at h
        · cases h
          exact .inl ⟨by simp, _, _, _, _, rfl, le_rfl⟩
        · split at h
          · cases h
          · obtain ⟨taken, hload, h⟩ := Result.bind_eq_ok.mp h
            split at h
            · obtain ⟨c, hrewind, h⟩ := Result.bind_eq_ok.mp h
              obtain ⟨wbuf, hwrite, hrewind⟩ := Result.bind_eq_ok.mp hrewind
              cases hrewind
              cases h
              exact .inr ⟨rfl, _, _, _, _, _, _, rfl⟩
            · rcases ih h with ⟨hres, writes, sent, wlen, now, rfl, hle⟩ |
                ⟨hres, writes, sent, wbuf, now, len, wlen, rfl⟩
              · exact .inl ⟨hres, writes, sent, wlen, now, rfl, hle.trans (Nat.sub_le _ _)⟩
              · exact .inr ⟨hres, writes, sent, wbuf, now, len, wlen, rfl⟩

theorem parseTurn_spec {w w' : World} (h : w.parseTurn = .ok w') :
    ∃ w₁ ret, Parsed w w₁ ret ∧ w' = w₁.settle ret := by
  obtain ⟨⟨w₁, ret⟩, hparse, h⟩ := Result.bind_eq_ok.mp h
  cases h
  exact ⟨w₁, ret, tryReadCommand_spec hparse, rfl⟩

/-- The ways through the turn in `conn_read`. -/
theorem readTurn_spec {w w' : World} (h : w.readTurn = .ok w') :
    (∃ w₁, Fetched w w₁ ∧ (w' = w₁.setState .connWaiting ∨ w' = w₁.setState .connClosed ∨
      w' = w₁.setState .connParseCmd ∧ w₁.readsLeft < w.readsLeft)) ∨
    ∃ w₁ text, Fetched w w₁ ∧ w' = w₁.queued text := by
  obtain ⟨⟨w₁, res⟩, hread, h⟩ := Result.bind_eq_ok.mp h
  rcases tryReadTcp_spec hread with ⟨hres, hf, hgot⟩ | ⟨w₂, text, hres, hf, rfl⟩
  · cases res with
    | noData => cases h; exact .inl ⟨w₁, hf, .inl rfl⟩
    | error => cases h; exact .inl ⟨w₁, hf, .inr (.inl rfl)⟩
    | received => cases h; exact .inl ⟨w₁, hf, .inr (.inr ⟨rfl, hgot rfl⟩)⟩
    | memoryError => exact absurd rfl hres
  · subst hres
    cases h
    exact .inr ⟨w₂, text, hf, rfl⟩

/-- The ways through the turn in `conn_write`. -/
theorem writeTurn_spec {w w' : World} (h : w.writeTurn = .ok w') :
    (∃ writes sent wlen now state, w' = { w with
        writes := writes
        sent := sent
        conn := { w.conn with wbufWlen := wlen, wbufNow := now, state := state } } ∧
      (state = w.conn.state ∨ state = .connClosed) ∧ writes.length ≤ w.writes.length - 1) ∨
    ∃ writes sent wbuf now len wlen, w' = { w with
      writes := writes
      sent := sent
      conn := { w.conn.startRead with
        wbuf := wbuf, wbufNow := now, wbufLen := len, wbufWlen := wlen, state := .connWaiting } } := by
  obtain ⟨⟨w₁, res⟩, hwrite, h⟩ := Result.bind_eq_ok.mp h
  rcases writeLoop_spec hwrite with ⟨hres, writes, sent, wlen, now, rfl, hle⟩ |
    ⟨hres, writes, sent, wbuf, now, len, wlen, rfl⟩
  · cases res with
    | part => cases h; exact .inl ⟨writes, sent, wlen, now, _, rfl, .inl rfl, hle⟩
    | error => cases h; exact .inl ⟨writes, sent, wlen, now, _, rfl, .inr rfl, hle⟩
    | all => exact absurd rfl hres
  · subst hres
    cases h
    exact .inr ⟨writes, sent, wbuf, now, len, wlen, rfl⟩

end World

end MiniMemcached
