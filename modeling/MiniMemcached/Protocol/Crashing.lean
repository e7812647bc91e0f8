import MiniMemcached.Protocol.Dialogue
import MiniMemcached.Service.Outcomes

/-! When the server goes down. With clients that wait for their turn there are two ways for
a machine to fail in its turn: the answer to a `get` does not fit into the write buffer, or
the block of a `cas` comes for a key that has no value. In every other turn, of every run,
it gets on. -/

namespace MiniMemcached

open Memory Runs

namespace World

/-- A `get` is about to be parsed whose answer does not fit. -/
def Overflows (w : World) : Prop :=
  w.conn.state = .connParseCmd ∧ ∃ e, memchr w.conn.rbuf 0 (toSizeT w.conn.rbufRlen) 10 = .found e ∧
    (w.tokensAt e).length = 2 ∧ ¬w.AnswerFits (w.tokensAt e)

/-- A block is about to be read whose item is to be compared with that of a key that has
none. -/
def Misses (w : World) : Prop :=
  w.conn.state = .connNread ∧ w.conn.rnbuf ≠ .null ∧ (∃ bs rest, w.reads = .data bs :: rest ∧ bs ≠ []) ∧
    w.conn.cmd = .cas ∧ ∃ it, w.conn.item = some it ∧ ∀ p, ¬w.cache.live (w.cache.items.key it) p

/-- The turn goes wrong. -/
def Crashes (w : World) : Prop := w.Overflows ∨ w.Misses

variable {w w' : World} {st : Service} {g : Shape} {i : ℕ} {coming : List (List UInt8)} {left : List UInt8}

theorem not_crashes (hparse : w.conn.state ≠ .connParseCmd) (hnread : w.conn.state ≠ .connNread) :
    ¬w.Crashes := by
  rintro (⟨hstate, -⟩ | ⟨hstate, -⟩)
  · exact hparse hstate
  · exact hnread hstate

/-- A connection that waits for a line gets on. -/
theorem turn_read_ok (hstate : w.conn.state = .connRead) (hclear : w.conn.Clear)
    (hcoming : ∀ chunk ∈ arrivals w.reads, arrivals w.reads = [chunk] ∧ ∃ l, Brings chunk l) :
    ∃ w', w.turn = .ok w' := by
  unfold turn
  rw [hstate]
  by_cases hdry : w.reads = []
  · exact ⟨_, readTurn_round hclear (readRound_dry hclear hdry) (by simp)⟩
  · obtain ⟨r, rest, hreads⟩ := List.exists_cons_of_ne_nil hdry
    have hround := readRound_clear hclear hreads (length_head_lt hreads hcoming)
    by_cases hagain : r = .again
    · rw [if_pos hagain] at hround
      exact ⟨_, readTurn_round hclear hround (by simp)⟩
    · rw [if_neg hagain] at hround
      by_cases hr : r.bytes = []
      · rw [if_pos hr] at hround
        exact ⟨_, readTurn_round hclear hround (by simp)⟩
      · rw [if_neg hr] at hround
        exact ⟨_, readTurn_round hclear hround (by simp)⟩

/-- So does one that sends. -/
theorem turn_write_ok {msg : List UInt8} {k : ℕ} (hstate : w.conn.state = .connWrite)
    (hpart : w.conn.Partway msg k) :
    ∃ w', w.turn = .ok w' := by
  obtain ⟨w₁, res, hloop, -⟩ := writeLoop_partway w.writes hpart
  have hwrite : w.writeActivateRead = .ok (w₁, res) := hloop
  unfold turn
  rw [hstate]
  unfold writeTurn
  dsimp only
  rw [hwrite, Result.ok_bind]
  cases res <;> exact ⟨_, rfl⟩

/-- Whether a block can be stored. -/
theorem commandBlock_ok_iff {P : Pending} {bs : List UInt8} (hinv : Service.Inv st g)
    (hclock : w.cache = { st.cache with clock := w.cache.clock }) (hP : st.pending i = some P)
    (hbytes : (bs.length : ℤ) = P.line.vlen) :
    (∃ r, w.cache.commandBlock P.it P.line.cmd bs = .ok r) ↔
      ¬(P.line.cmd = .cas ∧ ∀ p, ¬w.cache.live (w.cache.items.key P.it) p) := by
  set a : Action := ⟨w.cache.clock, i, .block bs⟩ with ha
  have hat : st.at_ a = w.cache := hclock.symm
  have hkey : w.cache.items.key P.it = P.line.key := by
    rw [hclock]
    exact (hinv.filled i P hP).key
  have hsound : Sound w.cache g := hclock ▸ hinv.sound.setClock _
  have hstep : (∃ r, w.cache.commandBlock P.it P.line.cmd bs = .ok r) ↔ ∃ st', st.step a = .ok st' := by
    unfold Service.step
    simp only [ha, hP, hbytes, if_true]
    rw [← ha, hat]
    constructor
    · rintro ⟨r, hr⟩
      rw [hr]
      exact ⟨_, rfl⟩
    · rintro ⟨st', h⟩
      obtain ⟨r, hr, -⟩ := Result.bind_eq_ok.mp h
      exact ⟨r, hr⟩
  rw [hstep, hkey]
  rcases Service.step_spec hinv a with ⟨herr, bytes, P', -, hP', hcas, acts, hget⟩ |
    ⟨st', g', acts, hok, -, -, hacts⟩
  · cases hP.symm.trans hP'
    rw [hat] at hget
    refine iff_of_false ?_ (not_not.mpr ⟨hcas, fun p hp => ?_⟩)
    · rintro ⟨st', hok⟩
      cases herr.symm.trans hok
    · cases (hget.live_iff hsound p).mp hp
  · refine iff_of_true ⟨st', hok⟩ ?_
    rintro ⟨hcas, hnone⟩
    cases hacts with
    | ignored hno =>
      refine hno ?_
      unfold Service.Allowed
      simp only [ha, hP]
      exact hbytes
    | longKey k hreq => cases hreq
    | get k hreq => cases hreq
    | delete k hreq => cases hreq
    | accepted L hcmd hreq => cases hreq
    | refused L hcmd hreq => cases hreq
    | block P' bytes hreq hP' hlen acts stat hstore =>
      cases hP.symm.trans hP'
      rw [hat, hcas] at hstore
      obtain ⟨p, hp⟩ := hstore.exists_live hsound
      exact hnone p (hkey ▸ hp)

/-- The turn in which the block comes. -/
theorem turn_block_ok_iff {P : Pending} {bs : List UInt8} {rest : List ReadResult} (hinv : Service.Inv st g)
    (hclock : w.cache = { st.cache with clock := w.cache.clock }) (hP : st.pending i = some P)
    (hstate : w.conn.state = .connNread) (hshake : w.conn.flagShake = false) (hcmd : w.conn.cmd = P.line.cmd)
    (hne : P.line.cmd ≠ .error) (hitem : w.conn.item = some P.it) (hlen : w.conn.rnbufLen = P.line.vlen)
    (hnread : w.conn.rnbufRlen = 0) (hbuf : w.conn.Buffers P.line.vlen)
    (hready : w.conn.Ready) (hreads : w.reads = .data bs :: rest) (hbs : bs ≠ [])
    (hbytes : (bs.length : ℤ) = P.line.vlen) : (∃ w', w.turn = .ok w') ↔ ¬w.Misses := by
  have hge := P.line.vlen_ge
  have hlt := P.line.vlen_lt
  have hsize : toSizeT w.conn.rnbufLen = bs.length := by
    rw [hlen, toSizeT_of_bounds (by omega) (by omega)]
    omega
  have hroom : toSizeT (w.conn.rnbufLen - w.conn.rnbufRlen) = bs.length := by rw [hnread, sub_zero, hsize]
  rcases hbuf with hnull | ⟨b, hlive, hb⟩
  · have hnowhere : w.Nowhere := ⟨hnull, by omega, bs, rest, hbs, hreads⟩
    refine iff_of_true ⟨w, ?_⟩ fun h => h.2.1 hnull
    unfold turn
    rw [hstate]
    exact readValueStored_nowhere hshake hnowhere
  have hput : (put b 0 bs).length = b.length := length_put (by omega)
  have hslice : slice (put b 0 bs) 0 (toSizeT w.conn.rnbufLen) = bs := by
    rw [hsize, put_front, slice, List.drop_zero, List.take_left]
  have hfin := finishValue_complete (w := w.tookPart rest b bs) (b := put b 0 bs)
    (by show w.conn.rnbufLen = w.conn.rnbufRlen + bs.length; omega)
      (by show w.conn.cmd ≠ .error; rwa [hcmd]) hitem rfl
    (by show 0 ≤ w.conn.rnbufLen; omega) (by show w.conn.rnbufLen < _; omega)
    (by show w.conn.rnbufLen + 3 ≤ _; omega) (hready.rested.congr rfl rfl rfl rfl)
  rw [show (w.tookPart rest b bs).conn.rnbufLen = w.conn.rnbufLen from rfl, hslice] at hfin
  have hturn : (∃ w', w.turn = .ok w') ↔ ∃ r, w.cache.commandBlock P.it P.line.cmd bs = .ok r := by
    rw [turn_piece hstate hshake hreads hlive hbs (by omega) hroom.ge, hfin, ← hcmd]
    constructor
    · rintro ⟨w', h⟩
      obtain ⟨r, hr, -⟩ := Result.bind_eq_ok.mp h
      exact ⟨r, hr⟩
    · rintro ⟨r, hr⟩
      exact ⟨_, Result.bind_eq_ok.mpr ⟨r, hr, rfl⟩⟩
  rw [hturn, commandBlock_ok_iff hinv hclock hP hbytes, not_iff_not]
  constructor
  · rintro ⟨hcas, hnone⟩
    exact ⟨hstate, by simp [hlive], ⟨bs, rest, hreads, hbs⟩, hcmd.trans hcas, P.it, hitem, hnone⟩
  · rintro ⟨-, -, -, hcas, it, hit, hnone⟩
    cases hitem.symm.trans hit
    exact ⟨hcmd.symm.trans hcas, hnone⟩

/-- The turn of a connection that waits for a block. -/
theorem turn_nread_ok_iff {P : Pending} (hinv : Service.Inv st g)
    (hclock : w.cache = { st.cache with clock := w.cache.clock }) (hP : st.pending i = some P)
    (hstate : w.conn.state = .connNread) (hshake : w.conn.flagShake = false) (hcmd : w.conn.cmd = P.line.cmd)
    (hne : P.line.cmd ≠ .error) (hitem : w.conn.item = some P.it) (hlen : w.conn.rnbufLen = P.line.vlen)
    (hnread : w.conn.rnbufRlen = 0) (hbuf : w.conn.Buffers P.line.vlen)
    (hready : w.conn.Ready)
    (hcoming : ∀ chunk ∈ arrivals w.reads, arrivals w.reads = [chunk] ∧ (chunk.length : ℤ) = P.line.vlen) :
    (∃ w', w.turn = .ok w') ↔ ¬w.Misses := by
  have hge := P.line.vlen_ge
  have hlt := P.line.vlen_lt
  have hsize : toSizeT (w.conn.rnbufLen - w.conn.rnbufRlen) = P.line.vlen.toNat := by
    rw [hlen, hnread, toSizeT_of_bounds (by omega) (by omega), sub_zero]
  have hincomplete : w.conn.rnbufLen ≠ w.conn.rnbufRlen := by omega
  have hrun : w.turn = w.readValueStored := by
    unfold turn
    rw [hstate]
  by_cases hdry : w.reads = []
  · have hread : w.read (toSizeT (w.conn.rnbufLen - w.conn.rnbufRlen)) = (w, .again) := by
      unfold read
      rw [if_neg (by omega)]
      simp only [hdry]
    refine iff_of_true ⟨w, ?_⟩ ?_
    · rw [hrun]
      unfold readValueStored
      rw [if_neg (by simp [hshake]), hread]
      rfl
    · rintro ⟨-, -, ⟨bs, rest, hreads, -⟩, -⟩
      cases hdry.symm.trans hreads
  obtain ⟨r, rest, hreads⟩ := List.exists_cons_of_ne_nil hdry
  by_cases hr : r.bytes = []
  · have hread := read_head (w := w) (n := toSizeT (w.conn.rnbufLen - w.conn.rnbufRlen)) (by omega) hreads
      (by rw [hr]; exact Nat.zero_le _)
    refine iff_of_true ?_ ?_
    · rw [hrun]
      unfold readValueStored
      rw [if_neg (by simp [hshake]), hread]
      cases r with
      | again => exact ⟨_, rfl⟩
      | failed => exact ⟨_, finishValue_incomplete (w := { w with reads := rest }) hincomplete⟩
      | data bs =>
        obtain rfl : bs = [] := hr
        show ∃ w', (if w.conn.rnbufRlen ≠ w.conn.rnbufLen then _ else _) = Except.ok w'
        rw [if_pos hincomplete.symm]
        exact ⟨_, rfl⟩
    · rintro ⟨-, -, ⟨bs, rest', hreads', hbs⟩, -⟩
      cases hreads.symm.trans hreads'
      exact hbs hr
  · have hmem : r.bytes ∈ arrivals w.reads := by
      rw [hreads, arrivals_cons, if_neg hr]
      exact List.mem_cons_self
    obtain ⟨bs, rfl⟩ : ∃ bs, r = .data bs := by
      cases r with
      | data bs => exact ⟨bs, rfl⟩
      | again | failed => exact absurd rfl hr
    exact turn_block_ok_iff hinv hclock hP hstate hshake hcmd hne hitem hlen hnread hbuf hready hreads hr
      (hcoming _ hmem).2

/-! ### The parse of a line -/

/-- A `get` comes to its end just when its answer fits. -/
theorem getCommand_ok_iff {tokens : List (List UInt8)} (hsound : Sound w.cache g) (hsized : Sized w.cache g)
    (hrested : w.conn.Rested) (hclean : ∀ b ∈ tokens.getD 1 [], b ≠ 0 ∧ isSeparator b = false)
    (hget : tokens.getD 0 [] = bytes "get") : (∃ w', w.getCommand tokens = .ok w') ↔ w.AnswerFits tokens := by
  constructor
  · rintro ⟨w', hok⟩ - hshort p hp
    obtain ⟨s, g', acts, o, hitem, -, hacts, -⟩ := Steps.itemGet hsound (tokens.getD 1 [])
    cases (hacts.live_iff hsound p).mp hp
    obtain ⟨hfound, hnkey, hnbytes, hdigits⟩ := found_of_live hsound hsized hclean hshort hitem
    obtain ⟨hcount, wbuf, hfmt, -⟩ := hfound.getCommand_eq_ok.mp hok
    have hle := (formatValue_ok_iff hfound.clean).mp ⟨wbuf, hfmt⟩
    rw [valueAnswer_eq, List.length_append, length_getResponse, List.length_singleton] at hle
    have hsize := hfound.size
    rw [← hnkey, ← hnbytes, ← hdigits]
    exact ⟨hcount, by omega⟩
  · intro hfits
    obtain ⟨w', hok, -⟩ := (getCommand_outcome_iff hsound hsized hrested hclean hget).mpr hfits
    exact ⟨w', hok⟩

/-- The handlers come to their end, but for a `get` whose answer does not fit. -/
theorem dispatch_ok_iff {tokens : List (List UInt8)} (hsound : Sound w.cache g) (hsized : Sized w.cache g)
    (hrested : w.conn.Rested) (hclean : ∀ b ∈ tokens.getD 1 [], b ≠ 0 ∧ isSeparator b = false)
    (hasks : tokens.length = 1 ∨ tokens.length = 2 ∨ VerbFits tokens) :
    (∃ w', w.dispatch tokens = .ok w') ↔ (tokens.length = 2 → w.AnswerFits tokens) := by
  rcases hasks with hlen | hlen | hverb
  · refine iff_of_true ?_ (by omega)
    obtain ⟨w', hok, -⟩ := commandOnePara_outcome hrested hlen
    unfold dispatch
    rw [hlen]
    exact ⟨w', hok⟩
  · have htwo : w.dispatch tokens = w.commandTwoPara tokens := by
      unfold dispatch
      rw [hlen]
      rfl
    rw [forall_prop_of_true hlen, htwo]
    unfold commandTwoPara
    by_cases hget : tokens.getD 0 [] = bytes "get"
    · rw [if_pos hget]
      exact getCommand_ok_iff hsound hsized hrested hclean hget
    · refine iff_of_true ?_ fun h => absurd h hget
      rw [if_neg hget]
      split
      · have hdelete : ∃ w', w.deleteCommand tokens = .ok w' ∧ Outcome w tokens w' :=
          deleteCommand_outcome hsound hrested
        obtain ⟨w', hok, -⟩ := hdelete
        exact ⟨w', hok⟩
      · obtain ⟨w', hok, -⟩ := answer_replies hrested BAD_COMMAND (by simp [ANSWERS, BAD_COMMAND])
        exact ⟨w', hok⟩
  · have hlen := hverb.length
    refine iff_of_true ?_ (by omega)
    obtain ⟨w', hok, -⟩ := (commandFiveSixPara_outcome_iff tokens hsound hrested).mpr (.inl hverb)
    unfold dispatch
    rcases hlen with hlen | hlen
    · rw [show decide (tokens.length = 6) = false by simp [hlen]] at hok
      rw [hlen]
      exact ⟨_, Result.bind_eq_ok.mpr ⟨w', hok, rfl⟩⟩
    · rw [show decide (tokens.length = 6) = true by simp [hlen]] at hok
      rw [hlen]
      exact ⟨w', hok⟩

/-- The parse of a line that nothing follows comes to its end when its handler does. -/
theorem parseTurn_alone_ok {e : ℕ} {w₁ : World} (hrlen : w.conn.rbufRlen ≠ 0)
    (hscan : memchr w.conn.rbuf 0 (toSizeT w.conn.rbufRlen) 10 = .found e)
    (hnext : slice w.conn.rbuf (e + 1) 1 = [0])
    (hdispatch : (w.logged e [0]).dispatch (w.tokensAt e) = .ok w₁) :
    ∃ w', w.parseTurn = .ok w' := by
  have hinside : e + 1 + 1 ≤ w.conn.rbuf.length := by
    have hlength := congrArg List.length hnext
    rw [slice, List.length_take, List.length_drop, List.length_singleton] at hlength
    omega
  have hload : load w.conn.rbuf (e + 1) 1 = .ok [0] := load_eq_ok.mpr ⟨hinside, hnext.symm⟩
  have hproc : (w.cutLine e [0]).processCommand = .ok w₁ := hdispatch
  have hshake : w₁.conn.flagShake = false := (dispatch_spec hdispatch).framed.flagShake
  refine ⟨_, Result.bind_eq_ok.mpr ⟨(w₁.passLine (e + 1), true), ?_, rfl⟩⟩
  unfold tryReadCommand
  rw [if_neg hrlen, hscan]
  dsimp only
  rw [hload, Result.ok_bind, hproc, Result.ok_bind, if_neg (by simp [hshake])]
  rfl

/-- The turn in which a line is parsed. -/
theorem turn_parse_ok_iff {chunk l : List UInt8} (hsound : Sound w.cache g) (hsized : Sized w.cache g)
    (hline : Brings chunk l) (hstate : w.conn.state = .connParseCmd)
    (hrbuf : w.conn.rbuf = chunk ++ zeros (READBUF_LEN - chunk.length))
    (hrlen : w.conn.rbufRlen = chunk.length)
    (hready : w.conn.Ready) : (∃ w', w.turn = .ok w') ↔ ¬w.Overflows := by
  obtain ⟨hne, hscan, hnext, htokens⟩ := loaded_line hline hrbuf hrlen
  have hclean : ∀ b ∈ (tokensOf l).getD 1 [], b ≠ 0 ∧ isSeparator b = false := by
    rw [← htokens]
    exact fun b hb => tokensOf_clean hb
  have hturn : (∃ w', w.turn = .ok w') ↔
    ∃ w₁, (w.logged (l.length + 1) [0]).dispatch (tokensOf l) = .ok w₁ := by
    unfold turn
    rw [hstate, ← htokens]
    constructor
    · rintro ⟨w', h⟩
      obtain ⟨w₁, hdispatch, -⟩ := parseTurn_alone hne hscan hnext h
      exact ⟨w₁, hdispatch⟩
    · rintro ⟨w₁, hdispatch⟩
      exact parseTurn_alone_ok hne hscan hnext hdispatch
  have hrested : (w.logged (l.length + 1) [0]).conn.Rested := hready.rested.congr rfl rfl rfl rfl
  have hoverflows : w.Overflows ↔ (tokensOf l).length = 2 ∧ ¬w.AnswerFits (tokensOf l) := by
    constructor
    · rintro ⟨-, e, he, hlong⟩
      cases hscan.symm.trans he
      rwa [htokens] at hlong
    · exact fun h => ⟨hstate, _, hscan, by rwa [htokens]⟩
  have hok := dispatch_ok_iff (w := w.logged (l.length + 1) [0]) hsound hsized hrested hclean hline.asks
  rw [hturn, hok, hoverflows, not_and, not_not]
  exact Iff.rfl

/-- In every phase a turn comes to its end just when nothing goes wrong. -/
theorem Phase.turn_ok_iff (h : Phase w (st.pending i) coming left) (hinv : Service.Inv st g)
    (hsized : Sized st.cache g) (hclock : w.cache = { st.cache with clock := w.cache.clock }) :
    (∃ w', w.turn = .ok w') ↔ ¬w.Crashes := by
  have hsound : Sound w.cache g := hclock ▸ hinv.sound.setClock _
  have hsized : Sized w.cache g := hclock ▸ hsized.setClock _
  generalize hpend : st.pending i = o at h
  cases h with
  | idle hstate hclear hready hcoming =>
    rcases hstate with hstate | hstate
    · exact iff_of_true (turn_read_ok hstate hclear hcoming)
        (not_crashes (by simp [hstate]) (by simp [hstate]))
    · refine iff_of_true ?_ (not_crashes (by simp [hstate]) (by simp [hstate]))
      unfold turn
      rw [hstate]
      exact ⟨_, rfl⟩
  | loaded hline hstate hrbuf hrlen hnread hready hnone =>
    have hno : ¬w.Misses := fun h => by cases hstate.symm.trans h.1
    rw [Crashes, or_iff_left hno]
    exact turn_parse_ok_iff hsound hsized hline hstate hrbuf hrlen hready
  | writing hstate hclear hpart hsize hnone =>
    exact iff_of_true (turn_write_ok hstate hpart) (not_crashes (by simp [hstate]) (by simp [hstate]))
  | awaiting hstate hshake hcmd hne hitem hlen hnread hbuf hrbuf hready hcoming =>
    have hno : ¬w.Overflows := fun h => by cases hstate.symm.trans h.1
    rw [Crashes, or_iff_right hno]
    exact turn_nread_ok_iff hinv hclock hpend hstate hshake hcmd hne hitem hlen hnread hbuf hready hcoming
  | closed hstate =>
    refine iff_of_true ?_ (not_crashes (by simp [hstate]) (by simp [hstate]))
    unfold turn
    rw [hstate]
    exact ⟨_, rfl⟩

end World

namespace Server

variable {V V' : Server} {as : List Stir} {xs : List (Action × Answer)} {st : Service} {i : ℕ}

/-- A machine at work takes a turn that goes wrong. -/
def Crashes (V : Server) : Stir → Prop
  | .turn i => (V.conn i).running = true ∧ (V.serving i).world.Crashes
  | _ => False

theorem Tracks.step_ok_iff (h : Tracks as V xs st) (a : Stir) : (∃ V', V.step a = .ok V') ↔ ¬V.Crashes a := by
  cases a with
  | event i watcher reads writes =>
    refine iff_of_true ?_ id
    unfold step Serving.step
    simp only
    split <;> exact ⟨_, rfl⟩
  | clock now => exact iff_of_true ⟨_, rfl⟩ id
  | turn i =>
    obtain ⟨g, hinv, hsized⟩ := h.inv
    obtain ⟨heard, coming, out, left, -, hphase, -⟩ := (h.client i).talk
    have hserving : (V.serving i).world.Phase (st.pending i) coming left := hphase.congr rfl rfl
    have hclock : (V.serving i).world.cache =
      { st.cache with clock := (V.serving i).world.cache.clock } := h.cache
    have hturn := hserving.turn_ok_iff hinv hsized hclock
    unfold Crashes step Serving.step
    by_cases hrun : (V.conn i).running = true
    · have hrun' : (V.serving i).running = true := hrun
      simp only [hrun, hrun', if_true, true_and]
      rw [← hturn]
      constructor
      · rintro ⟨V', h⟩
        obtain ⟨s, hs, -⟩ := Result.bind_eq_ok.mp h
        obtain ⟨w, hw, -⟩ := Result.bind_eq_ok.mp hs
        exact ⟨w, hw⟩
      · rintro ⟨w, hw⟩
        exact ⟨_, Result.bind_eq_ok.mpr ⟨_, Result.bind_eq_ok.mpr ⟨w, hw, rfl⟩, rfl⟩⟩
    · have hrun' : ¬(V.serving i).running = true := hrun
      simp only [hrun']
      exact iff_of_true ⟨_, rfl⟩ fun h => hrun h.1

/-- A run of the server whose clients wait for their turn comes to its end just when in no
turn the answer to a `get` is too long for the write buffer, or the block of a `cas` comes
for a key that has no value. -/
theorem run_ends_iff {limit : ℕ} {set : Settings} {mallocOk : ℕ → Bool} {hashpower : ℕ} {s₀ : Cache}
    (hinit : Cache.init limit set mallocOk hashpower = some s₀) (w : ℕ → World) (hopened : ∀ i, (w i).Opened)
    {as : List Stir} (hpolite : EachStep step Polite (start s₀ w) as) :
    (∃ V, run step (start s₀ w) as = .ok V) ↔ EachStep step (fun V a => ¬V.Crashes a) (start s₀ w) as :=
  follows.run_ok_iff (fun _ _ _ _ a h _ => h.step_ok_iff a) (tracks_start hinit hopened) hpolite

/-- A `cas` of a key that was never set. -/
def casAlone : List Stir := reading 0 (bytes "cas a 0 0 1 1" ++ crlf) 2 ++ reading 0 (120 :: crlf) 1

theorem run_ends_iff_casAlone : ∃ s₀, Cache.init 1 Service.smallSettings (fun _ => true) 0 = some s₀ ∧
    EachStep step (fun V a => ¬V.Crashes a) (start s₀ fun _ => Serving.fresh s₀) setThenAsk ∧
    ¬EachStep step (fun V a => ¬V.Crashes a) (start s₀ fun _ => Serving.fresh s₀) casAlone := by
  have htrial : (Cache.init 1 Service.smallSettings (fun _ => true) 0).any (fun s =>
      decide (EachStep step Polite (start s fun _ => Serving.fresh s) setThenAsk) &&
      decide (EachStep step Polite (start s fun _ => Serving.fresh s) casAlone) &&
      (run step (start s fun _ => Serving.fresh s) setThenAsk).toOption.isSome &&
      (run step (start s fun _ => Serving.fresh s) casAlone).toOption.isNone) = true := by
    decide +kernel
  obtain ⟨s₀, hinit, hs⟩ := Service.exists_init htrial
  simp only [Bool.and_eq_true, decide_eq_true_eq] at hs
  obtain ⟨⟨⟨hset, hcas⟩, hends⟩, hfails⟩ := hs
  have hopened : ∀ _ : ℕ, (Serving.fresh s₀).Opened := fun _ =>
    ⟨⟨false, false, false, _, 0, length_zeros _, rfl⟩, rfl, rfl⟩
  obtain ⟨V, hV⟩ := Option.isSome_iff_exists.mp hends
  refine ⟨s₀, hinit, (run_ends_iff hinit _ hopened hset).mp ⟨V, Result.eq_ok_of_toOption hV⟩, fun hno => ?_⟩
  obtain ⟨V', hV'⟩ := (run_ends_iff hinit _ hopened hcas).mpr hno
  rw [hV'] at hfails
  cases hfails

end Server

end MiniMemcached
