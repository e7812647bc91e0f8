import MiniMemcached.Protocol.Reading
import MiniMemcached.Protocol.Grammar

/-! One read or two. A storage line and its block may come in one read, and then
`conn_shake` takes what is behind the line: after a line of five fields without its
CRLF, which `rnbuf_len` counts, and after another line as lines to be run. Neither way
brings the block whole to the item, as a read of its own does. -/

namespace MiniMemcached

open Memory

/-- A call of `drive_machine` to which the socket brings `bs`, and whose first turn takes
them all. -/
def Takes (w : World) (bs : List UInt8) (w' : World) : Prop :=
  ∃ writes w₁, World.turn { w with reads := w.reads ++ [.data bs], writes := w.writes ++ writes } = .ok w₁ ∧
    w₁.reads = [] ∧ Returns w [.data bs] writes w'

/-- Calls of `drive_machine` that find nothing to read. -/
def Quiet : World → World → Prop := Relation.ReflTransGen fun w w' => ∃ writes, Returns w [] writes w'

/-- The chunks come one after the other, each in a read of its own. -/
def Delivered : World → List (List UInt8) → World → Prop
  | w, [], w' => w' = w
  | w, bs :: chunks, w' => ∃ w₁ w₂, Takes w bs w₁ ∧ Quiet w₁ w₂ ∧ Delivered w₂ chunks w'

/-- In one read or in two, the command is carried out on the block with the same status,
and the same bytes are sent back. -/
def PathsAgree (w : World) (line block : List UInt8) : Prop :=
  ∃ t t' cmd key stat, Delivered w [line ++ block] t ∧ Delivered w [line, block] t' ∧
    Deed.store cmd key block stat ∈ t.deeds ∧ Deed.store cmd key block stat ∈ t'.deeds ∧ t.sent = t'.sent

/-- A line that announces a block, without its CRLF. -/
structure Announces (l : List UInt8) (L : StoreLine) : Prop where
  clean : ∀ b ∈ l, b ≠ 0 ∧ b ≠ 10
  verb : VerbFits (tokensOf l)
  fields : parseStoreLine (tokensOf l) (decide ((tokensOf l).length = 6)) = some L

/-- The block that a line announces: its bytes, and a CRLF. -/
def BlockOf (L : StoreLine) (block : List UInt8) : Prop :=
  ∃ data : List UInt8, block = data ++ crlf ∧ (data.length : ℤ) + 2 = L.vlen

namespace World

variable {w w' : World} {block bs : List UInt8}

/-- The connection waits for a command, and nothing is half done. -/
structure Idle (w : World) : Prop where
  state : w.conn.state = .connRead
  stop : w.conn.flagStop = false
  rlen : w.conn.rbufRlen = 0
  nread : w.conn.rnbufRlen = 0
  pos : 0 < w.conn.rbuf.length
  length : w.conn.rbuf.length < 2 ^ 31
  reads : w.reads = []
  deeds : w.deeds = []

/-- The bytes that were brought stand in the buffer, and a line is looked for. -/
structure Loaded (bs : List UInt8) (w : World) : Prop where
  state : w.conn.state = .connParseCmd
  stop : w.conn.flagStop = false
  held : w.held = bs
  rlen : 0 ≤ w.conn.rbufRlen
  le : w.conn.rbufRlen ≤ capacity w.conn.rbuf
  nread : w.conn.rnbufRlen = 0
  length : w.conn.rbuf.length < 2 ^ 31
  reads : w.reads = []
  deeds : w.deeds = []

/-- The socket has no more to give, and what is left of the block is too short for it:
the bytes taken for a block, and those in which a line is looked for. -/
structure Spent (block : List UInt8) (w : World) : Prop where
  reads : w.reads = []
  length : w.conn.rbuf.length < 2 ^ 31
  nread : 0 ≤ w.conn.rnbufRlen
  short : w.conn.rnbufRlen + 2 ≤ block.length
  parse : w.conn.state = .connParseCmd →
    w.conn.rbufNow = 0 ∧ 0 ≤ w.conn.rbufRlen ∧ w.conn.rbufRlen ≤ block.length
  deeds : ∀ cmd key stat, Deed.store cmd key block stat ∉ w.deeds

/-- What does not look for a line has only the block to keep short. -/
theorem Spent.congr (h : Spent block w) (hreads : w'.reads = []) (hlen : w'.conn.rbuf.length < 2 ^ 31)
    (hnread : w'.conn.rnbufRlen = w.conn.rnbufRlen) (hdeeds : w'.deeds = w.deeds)
    (hstate : w'.conn.state ≠ .connParseCmd) : Spent block w' where
  reads := hreads
  length := hlen
  nread := hnread ▸ h.nread
  short := hnread ▸ h.short
  parse := fun hs => absurd hs hstate
  deeds := hdeeds ▸ h.deeds

theorem Spent.settle (h : Spent block w) (ret : Bool) : Spent block (w.settle ret) := by
  have hstop : ∀ b, Spent block (w.setStop b) := fun b =>
    ⟨h.reads, h.length, h.nread, h.short, h.parse, h.deeds⟩
  have hwait : ∀ b, Spent block ((w.setState .connWaiting).setStop b) := fun b =>
    h.congr h.reads h.length rfl rfl (by simp [setState, setStop])
  unfold World.settle
  dsimp only
  cases ret
  all_goals split_ifs
  all_goals first | exact h | exact hstop _ | exact hwait _

/-- What a handler leaves of the counts of bytes. -/
theorem Handled.counts {tokens : List (List UInt8)} (h : Handled w tokens w') :
    w'.conn.rnbufRlen = w.conn.rnbufRlen ∧ (w'.conn.rbufNow = w.conn.rbufNow ∨ w'.conn.rbufNow = 0) ∧
      (w'.conn.rbufRlen = w.conn.rbufRlen ∨ w'.conn.rbufRlen = 0) := by
  cases h
  case empty => exact ⟨rfl, .inr rfl, .inr rfl⟩
  case answered => exact ⟨rfl, .inl rfl, .inr rfl⟩
  case value => exact ⟨rfl, .inl rfl, .inr rfl⟩
  all_goals exact ⟨rfl, .inl rfl, .inl rfl⟩

/-- A storage line keeps the bytes behind it, and looks for no other. -/
theorem Handled.storage {tokens : List (List UInt8)} (h : Handled w tokens w')
    (hlen : tokens.length = 5 ∨ tokens.length = 6) :
    w'.conn.rbufRlen = w.conn.rbufRlen ∧ w'.conn.state ≠ .connParseCmd := by
  cases h
  case badFormat => exact ⟨rfl, by simp [markPrecmd, queued, Conn.queue]⟩
  case noMemory => exact ⟨rfl, by simp [markPrecmd, setItem, queued, Conn.queue]⟩
  case accepted => exact ⟨rfl, by simp [markPrecmd, acceptLine]⟩
  case longKey hlong =>
    have := hlong.1
    omega
  case empty hno =>
    refine absurd ?_ hno
    rcases hlen with hlen | hlen <;> simp [hlen]
  all_goals omega

theorem store_notMem_append {deeds : List Deed} {d : Deed} {cmd : Nread} {key : List UInt8} {stat : StoreStat}
    (h : Deed.store cmd key block stat ∉ deeds) (hd : Deed.store cmd key block stat ≠ d) :
    Deed.store cmd key block stat ∉ deeds ++ [d] := by
  intro hmem
  rcases List.mem_append.mp hmem with hmem | hmem
  · exact h hmem
  · exact hd (List.mem_singleton.mp hmem)

/-- Bytes behind a line that come from no more than a block leave too few for one. -/
theorem Shaken.spent {endp : ℕ} (h : Shaken w endp (w.conn.rbufRlen - endp) w')
    (hreads : w.reads = []) (hlen : w.conn.rbuf.length < 2 ^ 31) (hnread : 0 ≤ w.conn.rnbufRlen)
    (hshort : w.conn.rnbufRlen + 2 ≤ block.length) (hrlen : 0 ≤ w.conn.rbufRlen)
    (hle : w.conn.rbufRlen - endp ≤ block.length)
    (hdeeds : ∀ cmd key stat, Deed.store cmd key block stat ∉ w.deeds)
    (hparse : w.conn.state = .connParseCmd →
      w.conn.rbufNow = 0 ∧ 0 ≤ w.conn.rbufRlen ∧ w.conn.rbufRlen ≤ block.length) : Spent block w' := by
  cases h with
  | kept => exact ⟨hreads, hlen, hnread, hshort, hparse, hdeeds⟩
  | block i hscan hprecmd rnbuf hlive hload hroom =>
    have hvalue : 0 ≤ w.conn.rbufRlen - endp - 2 := by
      by_contra hneg
      unfold toSizeT at hload
      omega
    refine ⟨hreads, hlen, hvalue, ?_, fun hs => ?_, fun cmd key stat => ?_⟩
    · show w.conn.rbufRlen - endp - 2 + 2 ≤ block.length
      omega
    · cases hs
    · exact store_notMem_append (hdeeds cmd key stat) (by simp)
  | line i hscan hprecmd hload hroom =>
    have hrest : 0 ≤ w.conn.rbufRlen - endp := by
      by_contra hneg
      unfold toSizeT at hload
      omega
    have hsame : (put w.conn.rbuf 0 (slice w.conn.rbuf endp
      (toSizeT (w.conn.rbufRlen - endp)) ++ [0])).length =
        w.conn.rbuf.length := by
      apply length_put
      rw [List.length_append, length_slice hload, List.length_singleton]
      omega
    exact ⟨hreads, hsame.trans_lt hlen, hnread, hshort, fun _ => ⟨rfl, hrest, hle⟩, hdeeds⟩

theorem toSizeT_le {z : ℤ} (h : 0 ≤ z) : (toSizeT z : ℤ) ≤ z := by
  unfold toSizeT
  omega

/-- The line that is found stands within the bytes that are held. -/
theorem line_le_rlen {endflag : ℕ} (hpos : 0 ≤ w.conn.rbufRlen)
    (hscan : memchr w.conn.rbuf 0 (toSizeT w.conn.rbufRlen) 10 = .found endflag) :
    (endflag : ℤ) + 1 ≤ w.conn.rbufRlen := by
  have hlt := (memchr_found hscan).2.1
  have hle := toSizeT_le hpos
  omega

/-- A handler reads nothing and stores nothing. -/
theorem Handled.stores_none {endflag : ℕ} {next : List UInt8} {tokens : List (List UInt8)} {w₁ : World}
    (h : Handled (w.logged endflag next) tokens w₁) (hreads : w.reads = [])
    (hlen : w.conn.rbuf.length < 2 ^ 31) (hdeeds : ∀ cmd key stat, Deed.store cmd key block stat ∉ w.deeds) :
    w₁.reads = [] ∧ w₁.conn.rbuf.length < 2 ^ 31 ∧
      ∀ cmd key stat, Deed.store cmd key block stat ∉ w₁.deeds := by
  have hframed := h.framed
  refine ⟨hframed.reads.trans hreads, ?_, fun cmd key stat => ?_⟩
  · rw [hframed.length]
    exact (List.length_set ..).trans_lt hlen
  · rw [hframed.deeds]
    exact store_notMem_append (hdeeds cmd key stat) (by simp)

/-- A line that is run from the rest of a block leaves less of it. -/
theorem Spent.parseTurn (h : Spent block w) (hstate : w.conn.state = .connParseCmd)
    (hturn : w.parseTurn = .ok w') : Spent block w' := by
  obtain ⟨w₁, ret, hparsed, rfl⟩ := parseTurn_spec hturn
  obtain ⟨hnow, hpos, hle⟩ := h.parse hstate
  apply Spent.settle
  cases hparsed with
  | nothing => exact h
  | alone endflag hrlen hscan hroom hnext w₁ hhandled =>
    obtain ⟨hnread, hnow₁, hrlen₁⟩ := hhandled.counts
    obtain ⟨hreads, hlength, hdeeds⟩ := hhandled.stores_none h.reads h.length h.deeds
    have hline := line_le_rlen hpos hscan
    have hnow₁ : w₁.conn.rbufNow = 0 := hnow₁.elim (fun heq => heq.trans hnow) id
    have hrlen₁ : w₁.conn.rbufRlen = w.conn.rbufRlen ∨ w₁.conn.rbufRlen = 0 := hrlen₁
    refine ⟨hreads, hlength, hnread ▸ h.nread, hnread ▸ h.short, fun _ => ?_, hdeeds⟩
    simp only [passLine, hnow₁, ne_eq, not_true, if_false]
    refine ⟨trivial, ?_⟩
    split <;> omega
  | followed endflag hrlen hscan hroom next hnext hne w₁ w₂ hhandled hshaken =>
    obtain ⟨hnread, hnow₁, hrlen₁⟩ := hhandled.counts
    obtain ⟨hreads, hlength, hdeeds⟩ := hhandled.stores_none h.reads h.length h.deeds
    have hnow₁ : w₁.conn.rbufNow = 0 := hnow₁.elim (fun heq => heq.trans hnow) id
    have hrlen₁ : w₁.conn.rbufRlen = w.conn.rbufRlen ∨ w₁.conn.rbufRlen = 0 := hrlen₁
    exact Shaken.spent (by exact_mod_cast hshaken) hreads hlength (hnread ▸ h.nread) (hnread ▸ h.short)
      (by omega) (by omega) hdeeds fun _ => ⟨hnow₁, by omega, by omega⟩

theorem reads_nil (h : w'.readsLeft ≤ w.readsLeft) (hreads : w.reads = []) : w'.reads = [] := by
  have hzero : w'.readsLeft = 0 := by
    have hleft : w.readsLeft = 0 := by simp [readsLeft, hreads]
    omega
  unfold readsLeft at hzero
  cases hr : w'.reads with
  | nil => rfl
  | cons r rest =>
    rw [hr, List.map_cons, List.sum_cons] at hzero
    cases r <;> simp [readWeight] at hzero

/-- A socket that is dry brings no request. -/
theorem Spent.readTurn (h : Spent block w) (hturn : w.readTurn = .ok w') : Spent block w' := by
  have hfetched : ∀ {w₁ : World}, Fetched w w₁ → w₁.reads = [] ∧ w₁.conn.rbuf.length < 2 ^ 31 ∧
      w₁.conn.rnbufRlen = w.conn.rnbufRlen ∧ w₁.deeds = w.deeds := by
    intro w₁ hf
    refine ⟨reads_nil hf.readsLeft h.reads, hf.length h.length, ?_⟩
    obtain ⟨heap, reads, rbuf, now, rlen, rfl⟩ := hf.world
    exact ⟨rfl, rfl⟩
  rcases readTurn_spec hturn with ⟨w₁, hf, rfl | rfl | ⟨rfl, hlt⟩⟩ | ⟨w₁, text, hf, rfl⟩
  · obtain ⟨hreads, hlen, hnread, hdeeds⟩ := hfetched hf
    exact h.congr hreads hlen hnread hdeeds (by simp [setState])
  · obtain ⟨hreads, hlen, hnread, hdeeds⟩ := hfetched hf
    exact h.congr hreads hlen hnread hdeeds (by simp [setState])
  · have hleft : w.readsLeft = 0 := by simp [readsLeft, h.reads]
    omega
  · obtain ⟨hreads, hlen, hnread, hdeeds⟩ := hfetched hf
    exact h.congr hreads hlen hnread hdeeds (by simp [queued, Conn.queue])

/-- A block that is finished is shorter than the one that was sent. -/
theorem Finished.spent (hfin : Finished w w') (h : Spent block w) (hstate : w.conn.state = .connNread) :
    Spent block w' := by
  cases hfin with
  | incomplete => exact h
  | unknown => exact h.congr h.reads h.length rfl rfl (by simp [Conn.startWrite, hstate])
  | stored hlen hcmd it hitem rnbuf hlive hvalue s stat cas hstore =>
    have hpos := h.nread
    have hshort := h.short
    refine ⟨h.reads, (length_zeros _).trans_lt h.length, le_rfl,
      ?_, fun hs => absurd hs (by simp [storedWith, Conn.queue, Conn.startWrite]),
      fun cmd key stat' => store_notMem_append (h.deeds cmd key stat') ?_⟩
    · show (0 : ℤ) + 2 ≤ block.length
      omega
    · intro heq
      injection heq with _ _ hblock _
      have hle := toSizeT_le (z := w.conn.rnbufLen) (by omega)
      have hlength := congrArg List.length hblock
      rw [length_slice (by omega)] at hlength
      omega

theorem Spent.readValueStored (h : Spent block w) (hstate : w.conn.state = .connNread)
    (hturn : w.readValueStored = .ok w') : Spent block w' := by
  have hleft : w.readsLeft = 0 := by simp [readsLeft, h.reads]
  cases readValueStored_spec hturn with
  | shaken hshake _ hfin => exact hfin.spent h hstate
  | dry => exact h
  | noRoom hshake hlen _ hfin => exact hfin.spent h hstate
  | closed hshake hlen reads hlt =>
    rcases hlt with ⟨-, rfl⟩ | hlt
    · exact h.congr h.reads h.length rfl rfl (by simp [setState])
    · omega
  | again hshake hlen reads hlt => omega
  | failed hshake hlen reads hlt => omega
  | part hshake hlen reads hlt => omega
  | nowhere => exact h

/-- Every turn keeps what is left of the block too short. -/
theorem Spent.turn (h : Spent block w) (hturn : w.turn = .ok w') : Spent block w' := by
  unfold World.turn at hturn
  split at hturn
  · rename_i hstate
    cases hturn
    exact h.congr h.reads h.length rfl rfl (by simp [setStop, hstate])
  · rename_i hstate
    exact h.parseTurn hstate hturn
  · exact h.readTurn hturn
  · rename_i hstate
    rcases writeTurn_spec hturn with ⟨writes, sent, wlen, now, state, rfl, hnext, -⟩ |
      ⟨writes, sent, wbuf, now, len, wlen, rfl⟩
    · refine h.congr h.reads h.length rfl rfl ?_
      rcases hnext with rfl | rfl
      · simp [hstate]
      · simp
    · exact h.congr h.reads h.length rfl rfl (by simp)
  · rename_i hstate
    exact h.readValueStored hstate hturn
  · cases hturn
    exact h.congr h.reads h.length rfl rfl (by simp [setState, setStop])
  · rename_i hstate
    cases hturn
    exact h.congr h.reads h.length rfl rfl (by simp [connClose, setStop, hstate])

/-- The first turn of a call that reads everything: a line is looked for in the bytes that
were brought, or they were not taken for a request. -/
theorem Idle.readTurn (h : Idle w) {writes : List WriteResult} (hblock : 2 ≤ block.length)
    (hturn : World.turn { w with reads := w.reads ++ [.data bs], writes := writes } = .ok w')
    (hreads : w'.reads = []) : Loaded bs w' ∨ Spent block w' := by
  set w₀ : World := { w with reads := w.reads ++ [.data bs], writes := writes } with hw₀
  have hunread : w₀.unread = bs := by simp [World.unread, hw₀, h.reads, ReadResult.bytes]
  have hspent : ∀ {w₁ w₂ : World}, Fetched w₀ w₁ → w₂.reads = [] → w₂.conn.rbuf = w₁.conn.rbuf →
      w₂.conn.rnbufRlen = w₁.conn.rnbufRlen → w₂.deeds = w₁.deeds → w₂.conn.state ≠ .connParseCmd →
      Spent block w₂ := by
    intro w₁ w₂ hf hr hrbuf hnread hdeeds hstate
    have hlen := hf.length h.length
    obtain ⟨heap, reads, rbuf, now, rlen, rfl⟩ := hf.world
    have hzero : w₂.conn.rnbufRlen = 0 := hnread.trans h.nread
    refine ⟨hr, hrbuf ▸ hlen, hzero.ge, by omega, fun hs => absurd hs hstate, fun cmd key stat => ?_⟩
    rw [hdeeds]
    exact h.deeds ▸ List.not_mem_nil
  have hstart : w₀.conn.state = .connRead := h.state
  unfold World.turn at hturn
  rw [hstart] at hturn
  obtain ⟨⟨w₁, res⟩, hread, hturn⟩ := Result.bind_eq_ok.mp hturn
  rcases tryReadTcp_spec hread with ⟨hres, hf, -⟩ | ⟨w₂, text, hres, hf, rfl⟩
  · cases res with
    | noData =>
      cases hturn
      exact .inr (hspent hf hreads rfl rfl rfl (by simp [setState]))
    | error =>
      cases hturn
      exact .inr (hspent hf hreads rfl rfl rfl (by simp [setState]))
    | memoryError => exact absurd rfl hres
    | received =>
      cases hturn
      obtain ⟨wm, hmove, hloop⟩ := Result.bind_eq_ok.mp hread
      have hfront : wm = { w₀ with conn := { w₀.conn with rbufNow := 0 } } := by
        unfold moveDown at hmove
        split at hmove
        · rename_i hnow
          cases hmove
          rw [← hnow]
        · rw [if_pos (show w₀.conn.rbufRlen = 0 from h.rlen)] at hmove
          cases hmove
          rfl
      subst hfront
      have hrlen : w₀.conn.rbufRlen = 0 := h.rlen
      have hempty : w₀.held = [] := by simp [World.held, hrlen, slice]
      obtain ⟨d, calls, hgathered⟩ := readLoop_stream hloop hres hrlen.ge
        (hrlen.le.trans (Int.natCast_nonneg _)) h.pos h.length
      have hnone : w₁.unread = [] := by
        have hr : w₁.reads = [] := hreads
        simp [World.unread, hr]
      have hstream := hgathered.stream
      rw [hnone, List.append_nil] at hstream
      have hheld : w₁.held = bs := hstream.trans ((congrArg (· ++ w₀.unread) hempty).trans hunread)
      have hlen := hf.length h.length
      have hge := hgathered.ge
      have hle := hgathered.le
      obtain ⟨heap, reads, rbuf, now, rlen, rfl⟩ := hf.world
      exact .inl ⟨rfl, h.stop, hheld, hge, hle, h.nread, hlen, hreads, h.deeds⟩
  · subst hres
    cases hturn
    exact .inr (hspent hf hreads rfl rfl rfl (by simp [queued, Conn.queue]))

/-- The carriage return is a separator like any other. -/
theorem tokensOf_cr (l : List UInt8) : tokensOf (l ++ [13]) = tokensOf l := by
  have hsep : isSeparator 13 = true := by decide
  unfold tokensOf
  rw [List.splitOnP_append_cons l [] hsep, List.filter_append, List.splitOnP_nil]
  exact List.append_nil _

/-- The line that stands in front is found, whichever of its two last bytes is cut off. -/
theorem Loaded.line {l : List UInt8} (h : Loaded (l ++ crlf ++ block) w)
    (hclean : ∀ b ∈ l, b ≠ 0 ∧ b ≠ 10) :
    w.conn.rbufRlen = l.length + 2 + block.length ∧
      memchr w.conn.rbuf 0 (toSizeT w.conn.rbufRlen) 10 = .found (l.length + 1) ∧
      w.tokensAt (l.length + 1) = tokensOf l := by
  have hrlen := h.rlen
  have hle := h.le
  have hlength := h.length
  unfold capacity at hle
  have hsize : toSizeT w.conn.rbufRlen = w.conn.rbufRlen.toNat := toSizeT_of_bounds hrlen (by omega)
  have hheld : slice w.conn.rbuf 0 w.conn.rbufRlen.toNat = (l ++ [13]) ++ 10 :: block := by
    rw [show slice w.conn.rbuf 0 w.conn.rbufRlen.toNat = l ++ crlf ++ block from h.held]
    simp [crlf]
  have hcount := congrArg List.length hheld
  rw [length_slice (by omega)] at hcount
  simp only [List.length_append, List.length_cons, List.length_nil] at hcount
  have h10 : 10 ∉ l ++ [13] := by
    intro hmem
    rcases List.mem_append.mp hmem with hmem | hmem
    · exact (hclean 10 hmem).2 rfl
    · exact absurd (List.mem_singleton.mp hmem) (by decide)
  have h0 : 0 ∉ l := fun hmem => (hclean 0 hmem).1 rfl
  have h0' : 0 ∉ l ++ [13] := by simpa using h0
  have hlast : (l ++ [13]).length = l.length + 1 := by simp
  refine ⟨by omega, ?_, ?_⟩
  · unfold memchr
    rw [hsize, hheld, idxOf?_append_cons block h10]
    simp [hlast]
  · have hbuf : w.conn.rbuf = (l ++ [13]) ++ 10 :: (block ++ w.conn.rbuf.drop w.conn.rbufRlen.toNat) := by
      rw [← List.cons_append, ← List.append_assoc, ← hheld]
      exact (List.take_append_drop ..).symm
    unfold tokensAt cutAt
    generalize w.conn.rbuf.drop w.conn.rbufRlen.toNat = rest at hbuf
    split
    · have hcut : w.conn.rbuf.set (l.length + 1 - 1) 0 = l ++ 0 :: (10 :: (block ++ rest)) := by
        rw [hbuf]
        simp
      rw [hcut, cstring_append h0]
    · have hcut : w.conn.rbuf.set (l.length + 1) 0 = (l ++ [13]) ++ 0 :: (block ++ rest) := by
        rw [hbuf, ← hlast]
        simp
      rw [hcut, cstring_append h0', tokensOf_cr]

/-- The parse of the line leaves too little for its block: a part of it that was taken
without the CRLF, or lines to be run. -/
theorem Loaded.parseTurn {l : List UInt8} (h : Loaded (l ++ crlf ++ block) w)
    (hclean : ∀ b ∈ l, b ≠ 0 ∧ b ≠ 10) (hlen : (tokensOf l).length = 5 ∨ (tokensOf l).length = 6)
    (hblock : 2 ≤ block.length) (hturn : w.parseTurn = .ok w') : Spent block w' := by
  obtain ⟨w₁, ret, hparsed, rfl⟩ := parseTurn_spec hturn
  obtain ⟨hrlen, hfound, htokens⟩ := h.line hclean
  have hnone : ∀ cmd key stat, Deed.store cmd key block stat ∉ w.deeds := fun cmd key stat =>
    h.deeds ▸ List.not_mem_nil
  apply Spent.settle
  cases hparsed with
  | nothing hzero => omega
  | alone endflag hne hscan hroom hnext w₁ hhandled =>
    obtain rfl : l.length + 1 = endflag := Scan.found.inj (hfound.symm.trans hscan)
    rw [htokens] at hhandled
    obtain ⟨-, hstate⟩ := hhandled.storage hlen
    obtain ⟨hreads, hlength, hdeeds⟩ := hhandled.stores_none h.reads h.length hnone
    have hzero : w₁.conn.rnbufRlen = 0 := hhandled.counts.1.trans h.nread
    refine ⟨hreads, hlength, hzero.ge, ?_, fun hs => absurd hs hstate, hdeeds⟩
    show w₁.conn.rnbufRlen + 2 ≤ block.length
    omega
  | followed endflag hne hscan hroom next hnext hnz w₁ w₂ hhandled hshaken =>
    obtain rfl : l.length + 1 = endflag := Scan.found.inj (hfound.symm.trans hscan)
    rw [htokens] at hhandled
    obtain ⟨hsame, hstate⟩ := hhandled.storage hlen
    obtain ⟨hreads, hlength, hdeeds⟩ := hhandled.stores_none h.reads h.length hnone
    have hsame : w₁.conn.rbufRlen = w.conn.rbufRlen := hsame
    have hzero : w₁.conn.rnbufRlen = 0 := hhandled.counts.1.trans h.nread
    exact Shaken.spent (by exact_mod_cast hshaken) hreads hlength hzero.ge (by omega) (by omega)
      (by push_cast; omega) hdeeds fun hs => absurd hs hstate

/-! ### The calls of `drive_machine` -/

theorem driveMachine_going {n : ℕ} (h : w.conn.flagStop = false) :
    driveMachine (n + 1) w = w.turn >>= driveMachine n := by
  rw [driveMachine, h, if_neg Bool.false_ne_true]

theorem Spent.drive {n : ℕ} (h : Spent block w) (hrun : driveMachine n w = .ok w') : Spent block w' := by
  induction n generalizing w with
  | zero => cases hrun
  | succ n ih =>
    unfold driveMachine at hrun
    split at hrun
    · cases hrun
      exact ⟨h.reads, h.length, h.nread, h.short, h.parse, h.deeds⟩
    · obtain ⟨w₁, hturn, hrun⟩ := Result.bind_eq_ok.mp hrun
      exact ih (h.turn hturn) hrun

theorem Spent.quiet (h : Spent block w) (hquiet : Quiet w w') : Spent block w' := by
  induction hquiet with
  | refl => exact h
  | tail _ hcall ih =>
    obtain ⟨writes, n, hrun⟩ := hcall
    refine Spent.drive ?_ hrun
    exact ⟨(List.append_nil _).trans ih.reads, ih.length, ih.nread, ih.short, ih.parse, ih.deeds⟩

/-- The call that gets the line and the block together. -/
theorem Idle.takes {l : List UInt8} (h : Idle w) (hclean : ∀ b ∈ l, b ≠ 0 ∧ b ≠ 10)
    (hlen : (tokensOf l).length = 5 ∨ (tokensOf l).length = 6) (hblock : 2 ≤ block.length)
    (htakes : Takes w (l ++ crlf ++ block) w') : Spent block w' := by
  obtain ⟨writes, w₁, hfirst, hreads, n, hrun⟩ := htakes
  cases n with
  | zero => cases hrun
  | succ n =>
    rw [driveMachine_going (by exact h.stop), hfirst] at hrun
    have hrun : driveMachine n w₁ = .ok w' := hrun
    rcases h.readTurn hblock hfirst hreads with hloaded | hspent
    · cases n with
      | zero => cases hrun
      | succ n =>
        rw [driveMachine_going hloaded.stop] at hrun
        obtain ⟨w₂, hturn, hrun⟩ := Result.bind_eq_ok.mp hrun
        unfold World.turn at hturn
        rw [hloaded.state] at hturn
        exact (hloaded.parseTurn hclean hlen hblock hturn).drive hrun
    · exact hspent.drive hrun

/-- Behind a line that comes with its block, the block is not stored. -/
theorem Idle.never_stores {l : List UInt8} (h : Idle w) (hclean : ∀ b ∈ l, b ≠ 0 ∧ b ≠ 10)
    (hlen : (tokensOf l).length = 5 ∨ (tokensOf l).length = 6) (hblock : 2 ≤ block.length)
    (hdelivered : Delivered w [l ++ crlf ++ block] w') (cmd : Nread) (key : List UInt8) (stat : StoreStat) :
    Deed.store cmd key block stat ∉ w'.deeds := by
  obtain ⟨w₁, w₂, htakes, hquiet, rfl⟩ := hdelivered
  exact ((h.takes hclean hlen hblock htakes).quiet hquiet).deeds cmd key stat

end World

theorem VerbFits.length {tokens : List (List UInt8)} (h : VerbFits tokens) :
    tokens.length = 5 ∨ tokens.length = 6 := h.imp And.left And.left

/-- There is no line and no block on which the two ways agree. -/
theorem not_pathsAgree (w : World) (hidle : w.Idle) (l block : List UInt8) (L : StoreLine)
    (hline : Announces l L) (hblock : BlockOf L block) : ¬PathsAgree w (l ++ crlf) block := by
  rintro ⟨t, t', cmd, key, stat, hone, -, hstored, -, -⟩
  obtain ⟨data, rfl, -⟩ := hblock
  have htwo : 2 ≤ (data ++ crlf).length := by simp [crlf]
  exact hidle.never_stores hline.clean hline.verb.length htwo hone cmd key stat hstored

theorem World.idle_fresh (s : Cache) : (Serving.fresh s).Idle where
  state := rfl
  stop := rfl
  rlen := rfl
  nread := rfl
  pos := by simp [Serving.fresh, Conn.new, READBUF_LEN]
  length := by simp [Serving.fresh, Conn.new, READBUF_LEN]
  reads := rfl
  deeds := rfl

/-- A `set` of one byte. -/
def setOne : List UInt8 := bytes "set a 0 0 1"

theorem announces_setOne : ∃ L, Announces setOne L ∧ BlockOf L (120 :: crlf) := by
  have hparse : (parseStoreLine (tokensOf setOne) (decide ((tokensOf setOne).length = 6))).any
      (fun L => decide (L.vlen = 3)) = true := by decide +kernel
  obtain ⟨L, hL, hvlen⟩ := (Option.any_eq_true _ _).mp hparse
  have hvlen : L.vlen = 3 := of_decide_eq_true hvlen
  exact ⟨L, ⟨by decide +kernel, by decide +kernel, hL⟩, [120], rfl, by rw [hvlen]; rfl⟩

theorem not_pathsAgree_setOne : ∃ s, Cache.init 1 Service.smallSettings (fun _ => true) 0 = some s ∧
    ¬PathsAgree (Serving.fresh s) (setOne ++ crlf) (120 :: crlf) := by
  obtain ⟨s, hinit⟩ := Serving.init_small
  obtain ⟨L, hline, hblock⟩ := announces_setOne
  exact ⟨s, hinit, not_pathsAgree _ (World.idle_fresh s) _ _ L hline hblock⟩

/-- A call with a few turns of which the first reads everything. -/
def takesTurns (w : World) (bs : List UInt8) (writes : List WriteResult) : Result World := do
  let w₁ ← World.turn { w with reads := w.reads ++ [.data bs], writes := w.writes ++ writes }
  if w₁.reads = [] then fewTurns w [.data bs] writes else .error .endless

theorem takes_of_takesTurns {w w' : World} {bs : List UInt8} {writes : List WriteResult}
    (h : takesTurns w bs writes = .ok w') : Takes w bs w' := by
  obtain ⟨w₁, hturn, h⟩ := Result.bind_eq_ok.mp h
  split at h
  · rename_i hreads
    exact ⟨writes, w₁, hturn, hreads, 5, h⟩
  · cases h

/-- The line in one read and the block in the next. -/
def twoReads (s : Cache) : Result World := do
  let w ← takesTurns (Serving.fresh s) (setOne ++ crlf) []
  takesTurns w (120 :: crlf) [.wrote 8]

/-- In two reads the block is stored and the client is told so; in one read it never is. -/
theorem stored_in_two_reads : ∃ s t, Cache.init 1 Service.smallSettings (fun _ => true) 0 = some s ∧
    Delivered (Serving.fresh s) [setOne ++ crlf, 120 :: crlf] t ∧
    Deed.store .set [97] (120 :: crlf) .STORED ∈ t.deeds ∧ t.sent = bytes "STORED" ++ crlf ∧
    ¬PathsAgree (Serving.fresh s) (setOne ++ crlf) (120 :: crlf) := by
  have htrial : (Cache.init 1 Service.smallSettings (fun _ => true) 0).any (fun s =>
      (twoReads s).toOption.any fun t => decide (Deed.store .set [97] (120 :: crlf) .STORED ∈ t.deeds ∧
        t.sent = bytes "STORED" ++ crlf)) = true := by
    decide +kernel
  obtain ⟨s, hinit, hs⟩ := Service.exists_init htrial
  obtain ⟨t, ht, hp⟩ := (Option.any_eq_true _ _).mp hs
  obtain ⟨w₁, hfirst, hsecond⟩ := Result.bind_eq_ok.mp (Result.eq_ok_of_toOption ht)
  obtain ⟨hstored, hsent⟩ := of_decide_eq_true hp
  refine ⟨s, t, hinit, ?_, hstored, hsent, ?_⟩
  · exact ⟨w₁, w₁, takes_of_takesTurns hfirst, .refl, t, t, takes_of_takesTurns hsecond, .refl, rfl⟩
  · rintro ⟨t, t', cmd, key, stat, hone, -, hmem, -, -⟩
    exact (World.idle_fresh s).never_stores (by decide +kernel) (by decide +kernel) (by decide) hone
      cmd key stat hmem

end MiniMemcached
