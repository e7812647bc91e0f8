import MiniMemcached.Protocol.Returning

/-! The loop of `try_read_tcp` and the bytes it keeps. Beside the loop runs a log of its
calls of `read`. The buffer is doubled when it is full, four times at the most, and
behind what was held at the start it takes up what the calls bring, in their order. -/

namespace MiniMemcached

open Memory

/-- A call of `read`: where in `rbuf` it starts and how many bytes it is offered there, the
size of `rbuf`, and the bytes that it brings. -/
structure ReadCall where
  offset : ℤ
  count : ℕ
  rbufLen : ℕ
  got : List UInt8

/-- A call is offered room, and the room is in the buffer. -/
def ReadCall.Fits (c : ReadCall) : Prop :=
  0 < c.count ∧ 0 ≤ c.offset ∧ c.offset + c.count ≤ c.rbufLen

/-- The bytes that a `read` has brought. -/
def ReadResult.bytes : ReadResult → List UInt8
  | .data bs => bs
  | .again => []
  | .failed => []

namespace World

/-- The call of `read` in a round. -/
def readCall (w : World) : ReadCall where
  offset := w.conn.rbufRlen
  count := toSizeT (capacity w.conn.rbuf - w.conn.rbufRlen)
  rbufLen := w.conn.rbuf.length
  got := (w.read (toSizeT (capacity w.conn.rbuf - w.conn.rbufRlen))).2.bytes

/-- The calls of `read` that `readLoop` makes. -/
def readCalls : ℕ → ℕ → World → List ReadCall
  | 0, _, _ => []
  | fuel + 1, numAlloc, w =>
    if capacity w.conn.rbuf ≤ w.conn.rbufRlen ∧ numAlloc = 4 then []
    else
      let allocs := if capacity w.conn.rbuf ≤ w.conn.rbufRlen then numAlloc + 1 else numAlloc
      match w.makeRoom with
      | (_, false) => []
      | (w, true) =>
        w.readCall :: match w.readRound with
          | .ok (w, .full) => readCalls fuel allocs w
          | _ => []

/-- The bytes of the request that are in the buffer. -/
def held (w : World) : List UInt8 := slice w.conn.rbuf 0 w.conn.rbufRlen.toNat

/-- The bytes that are still in the socket. -/
def unread (w : World) : List UInt8 := w.reads.flatMap ReadResult.bytes

/-- Part of a run of the loop: the buffer has been doubled `d` times, and the bytes that
the calls have brought stand behind those held. -/
structure Gathered (w : World) (d : ℕ) (calls : List ReadCall) (w' : World) : Prop where
  heap : w'.heap.allocOk = w.heap.allocOk
  length : w'.conn.rbuf.length = 2 ^ d * w.conn.rbuf.length
  ge : 0 ≤ w'.conn.rbufRlen
  le : w'.conn.rbufRlen ≤ capacity w'.conn.rbuf
  fits : ∀ c ∈ calls, c.Fits
  held : w'.held = w.held ++ calls.flatMap ReadCall.got
  unread : w.unread = calls.flatMap ReadCall.got ++ w'.unread

theorem Gathered.refl {w : World} (h0 : 0 ≤ w.conn.rbufRlen)
    (hle : w.conn.rbufRlen ≤ capacity w.conn.rbuf) : Gathered w 0 [] w where
  heap := rfl
  length := by simp
  ge := h0
  le := hle
  fits := by simp
  held := by simp
  unread := by simp

theorem Gathered.trans {w w' w'' : World} {d d' : ℕ} {calls calls' : List ReadCall}
    (h : Gathered w d calls w') (h' : Gathered w' d' calls' w'') :
    Gathered w (d + d') (calls ++ calls') w'' where
  heap := h'.heap.trans h.heap
  length := by
    rw [h'.length, h.length, pow_add]
    ring
  ge := h'.ge
  le := h'.le
  fits := by
    intro c hc
    rcases List.mem_append.mp hc with hc | hc
    · exact h.fits c hc
    · exact h'.fits c hc
  held := by rw [h'.held, h.held, List.flatMap_append, List.append_assoc]
  unread := by rw [h.unread, h'.unread, List.flatMap_append, List.append_assoc]

theorem slice_put_front {b bs : List UInt8} {n : ℕ} (hn : n ≤ bs.length) :
    slice (put b 0 bs) 0 n = slice bs 0 n := by
  rw [put_front]
  simp only [slice, List.drop_zero]
  exact List.take_append_of_le_length hn

theorem slice_put_behind {b bs : List UInt8} {n : ℕ} (hn : n ≤ b.length) :
    slice (put b n bs) 0 (n + bs.length) = slice b 0 n ++ bs := by
  simp only [slice, put, List.drop_zero]
  have hlen : (b.take n ++ bs).length = n + bs.length := by
    rw [List.length_append, List.length_take, Nat.min_eq_left hn]
  rw [← hlen, List.take_left]

/-- What a `read` brings comes from the socket. -/
theorem read_unread {w w' : World} {n : ℕ} {r : ReadResult} (h : w.read n = (w', r)) :
    w.unread = r.bytes ++ w'.unread := by
  unfold read at h
  split at h
  · cases h
    rfl
  · split at h
    · cases h
      rfl
    · rename_i rest hreads
      cases h
      simp [World.unread, ReadResult.bytes, hreads]
    · rename_i rest hreads
      cases h
      simp [World.unread, ReadResult.bytes, hreads]
    · rename_i bs rest hreads
      split at h
      · cases h
        simp [World.unread, ReadResult.bytes, hreads]
      · cases h
        simp only [World.unread, ReadResult.bytes, hreads, List.flatMap_cons, ← List.append_assoc,
          List.take_append_drop]

/-- Where a buffer has room, a call fits. -/
theorem readCall_fits {w : World} (h0 : 0 ≤ w.conn.rbufRlen)
    (hlt : w.conn.rbufRlen < capacity w.conn.rbuf) (hlen : w.conn.rbuf.length < 2 ^ 31) :
    w.readCall.Fits := by
  unfold capacity at hlt
  have hcount : w.readCall.count = (capacity w.conn.rbuf - w.conn.rbufRlen).toNat :=
    toSizeT_of_bounds (by unfold capacity; omega) (by unfold capacity; omega)
  have hoffset : w.readCall.offset = w.conn.rbufRlen := rfl
  have hrbufLen : w.readCall.rbufLen = w.conn.rbuf.length := rfl
  unfold capacity at hcount
  unfold ReadCall.Fits
  omega

/-- A round that brings no bytes. -/
theorem Gathered.idle {w : World} {reads : List ReadResult} (h0 : 0 ≤ w.conn.rbufRlen)
    (hlt : w.conn.rbufRlen < capacity w.conn.rbuf) (hlen : w.conn.rbuf.length < 2 ^ 31)
    (hgot : w.readCall.got = []) (hunread : w.unread = ({ w with reads := reads } : World).unread) :
    Gathered w 0 [w.readCall] { w with reads := reads } where
  heap := rfl
  length := by simp
  ge := h0
  le := hlt.le
  fits := by simpa using readCall_fits h0 hlt hlen
  held := by
    simp only [List.flatMap_cons, List.flatMap_nil, hgot, List.append_nil]
    rfl
  unread := by
    simp only [List.flatMap_cons, List.flatMap_nil, hgot, List.append_nil]
    exact hunread

/-- A round that brings bytes puts them behind those that are held. -/
theorem Gathered.got {w : World} {reads : List ReadResult} {bs : List UInt8}
    (h0 : 0 ≤ w.conn.rbufRlen) (hlt : w.conn.rbufRlen < capacity w.conn.rbuf)
    (hlen : w.conn.rbuf.length < 2 ^ 31) (hgot : w.readCall.got = bs)
    (hroom : w.conn.rbufRlen.toNat + bs.length ≤ w.conn.rbuf.length)
    (hunread : w.unread = bs ++ ({ w with reads := reads } : World).unread) :
    Gathered w 0 [w.readCall] (w.gotBytes reads bs) := by
  have hlength : (w.gotBytes reads bs).conn.rbuf.length = w.conn.rbuf.length := length_put hroom
  have hrlen : (w.gotBytes reads bs).conn.rbufRlen = w.conn.rbufRlen + bs.length := rfl
  refine ⟨rfl, by simpa using hlength, by omega, ?_, ?_, ?_, ?_⟩
  · unfold capacity
    omega
  · simpa using readCall_fits h0 hlt hlen
  · have hto : (w.gotBytes reads bs).conn.rbufRlen.toNat = w.conn.rbufRlen.toNat + bs.length := by
      omega
    simp only [List.flatMap_cons, List.flatMap_nil, hgot, List.append_nil]
    unfold World.held
    rw [hto]
    exact slice_put_behind (by omega)
  · simp only [List.flatMap_cons, List.flatMap_nil, hgot, List.append_nil]
    exact hunread

/-- A round with room in the buffer comes to its end. -/
theorem readRound_gathered {w : World} (h0 : 0 ≤ w.conn.rbufRlen)
    (hlt : w.conn.rbufRlen < capacity w.conn.rbuf) (hlen : w.conn.rbuf.length < 2 ^ 31) :
    ∃ w' round, w.readRound = .ok (w', round) ∧ Gathered w 0 [w.readCall] w' := by
  cases hread : w.read (toSizeT (capacity w.conn.rbuf - w.conn.rbufRlen)) with
  | mk w₁ r =>
    have hgot : w.readCall.got = r.bytes := by
      unfold readCall
      rw [hread]
    have hunread := read_unread hread
    have htaken := read_spec hread
    have hfit : ∀ bs, r = .data bs → w.conn.rbufRlen.toNat + bs.length ≤ w.conn.rbuf.length := by
      intro bs hbs
      have hle : bs.length ≤ toSizeT (capacity w.conn.rbuf - w.conn.rbufRlen) := by
        cases htaken with
        | noRoom =>
          cases hbs
          exact Nat.zero_le _
        | dry => cases hbs
        | took hn reads r hlt hfit => exact hfit bs hbs
      unfold capacity at hle hlt
      rw [toSizeT_of_bounds (by omega) (by omega)] at hle
      omega
    have hreads : ∃ reads, w₁ = { w with reads := reads } := by
      cases htaken
      all_goals exact ⟨_, rfl⟩
    obtain ⟨reads, rfl⟩ := hreads
    unfold readRound
    dsimp only
    rw [hread]
    cases r with
    | again => exact ⟨_, .again, rfl, .idle h0 hlt hlen hgot hunread⟩
    | failed => exact ⟨_, .error, rfl, .idle h0 hlt hlen hgot hunread⟩
    | data bs =>
      have hroom := hfit bs rfl
      have hdone := Gathered.got h0 hlt hlen hgot hroom hunread
      cases bs with
      | nil => exact ⟨_, .error, rfl, .idle h0 hlt hlen hgot hunread⟩
      | cons b rest =>
        dsimp only
        rw [if_neg (not_lt.mpr h0), write_eq_ok.mpr ⟨hroom, rfl⟩]
        exact ⟨_, _, rfl, hdone⟩

/-- The doubled buffer keeps the bytes of the one before. -/
theorem growRbuf_gathered {w w' : World} (h0 : 0 ≤ w.conn.rbufRlen)
    (hle : w.conn.rbufRlen ≤ capacity w.conn.rbuf) (hpos : 0 < w.conn.rbuf.length)
    (hgrow : w.growRbuf = (w', true)) :
    Gathered w 1 [] w' ∧ w'.conn.rbufRlen < capacity w'.conn.rbuf ∧ w'.conn.rbuf.length < 2 ^ 31 := by
  unfold growRbuf Heap.new at hgrow
  dsimp only at hgrow
  split at hgrow
  · rename_i heap b hnew
    obtain ⟨rfl, hb⟩ := Prod.mk.inj hnew
    split at hb
    · rename_i hmem
      cases hb
      cases hgrow
      have hlength : (put ((List.range (w.conn.rbuf.length * 2)).map (w.heap.garbage w.heap.calls)) 0
          w.conn.rbuf).length = w.conn.rbuf.length * 2 := by
        rw [length_put (by simp; omega)]
        simp
      unfold capacity at hle
      refine ⟨⟨rfl, ?_, h0, ?_, by simp, ?_, by rfl⟩, ?_, ?_⟩
      · exact hlength.trans (by rw [pow_one, mul_comm])
      · show w.conn.rbufRlen ≤ ((put _ 0 w.conn.rbuf).length : ℤ)
        rw [hlength]
        omega
      · rw [List.flatMap_nil, List.append_nil]
        exact slice_put_front (by simpa using hle)
      · show w.conn.rbufRlen < ((put _ 0 w.conn.rbuf).length : ℤ)
        rw [hlength]
        omega
      · exact hlength.trans_lt hmem.1
    · cases hb
  · cases hgrow

/-- Where memory is had, a full buffer is doubled and keeps its bytes. -/
theorem makeRoom_gathered {w : World} (hmem : ∀ i, w.heap.allocOk i = true)
    (h0 : 0 ≤ w.conn.rbufRlen) (hle : w.conn.rbufRlen ≤ capacity w.conn.rbuf)
    (hfull : capacity w.conn.rbuf ≤ w.conn.rbufRlen) (hpos : 0 < w.conn.rbuf.length)
    (hlen : w.conn.rbuf.length * 2 < 2 ^ 31) :
    ∃ w', w.makeRoom = (w', true) ∧ Gathered w 1 [] w' ∧
      w'.conn.rbufRlen < capacity w'.conn.rbuf := by
  have hgrow : ∃ w', w.growRbuf = (w', true) := by
    unfold growRbuf Heap.new
    rw [if_pos ⟨hlen, hmem _⟩]
    exact ⟨_, rfl⟩
  obtain ⟨w', hgrow⟩ := hgrow
  obtain ⟨hgrown, hlt, -⟩ := growRbuf_gathered h0 hle hpos hgrow
  exact ⟨w', (if_pos hfull).trans hgrow, hgrown, hlt⟩

/-- The loop of a buffer with room: its round is the last, or it goes on behind a buffer
that the round has filled. -/
theorem readLoop_room (fuel numAlloc : ℕ) (st : ReadState) {w : World}
    (h0 : 0 ≤ w.conn.rbufRlen) (hlt : w.conn.rbufRlen < capacity w.conn.rbuf)
    (hlen : w.conn.rbuf.length < 2 ^ 31) :
    ∃ w', Gathered w 0 [w.readCall] w' ∧
      ((∃ res, readLoop (fuel + 1) numAlloc st w = .ok (w', res) ∧
          readCalls (fuel + 1) numAlloc w = [w.readCall]) ∨
        (capacity w'.conn.rbuf ≤ w'.conn.rbufRlen ∧
          readLoop (fuel + 1) numAlloc st w = readLoop fuel numAlloc .received w' ∧
          readCalls (fuel + 1) numAlloc w = w.readCall :: readCalls fuel numAlloc w')) := by
  have hnot : ¬ capacity w.conn.rbuf ≤ w.conn.rbufRlen := not_le.mpr hlt
  have hroom : w.makeRoom = (w, true) := if_neg hnot
  obtain ⟨w', round, hround, hgathered⟩ := readRound_gathered h0 hlt hlen
  refine ⟨w', hgathered, ?_⟩
  simp only [readLoop, readCalls, hnot, hroom, hround, false_and, if_false]
  cases round with
  | again => exact .inl ⟨st, rfl, rfl⟩
  | error => exact .inl ⟨.error, rfl, rfl⟩
  | part => exact .inl ⟨.received, rfl, rfl⟩
  | full => exact .inr ⟨readRound_full hround, rfl, rfl⟩

/-- Behind a full buffer the loop doubles it and goes on with room. -/
theorem readLoop_grown (fuel : ℕ) {numAlloc : ℕ} (st : ReadState) {w w₁ : World}
    (hfull : capacity w.conn.rbuf ≤ w.conn.rbufRlen) (hmore : numAlloc ≠ 4)
    (hroom : w.makeRoom = (w₁, true)) (hlt : w₁.conn.rbufRlen < capacity w₁.conn.rbuf) :
    readLoop (fuel + 1) numAlloc st w = readLoop (fuel + 1) (numAlloc + 1) st w₁ ∧
      readCalls (fuel + 1) numAlloc w = readCalls (fuel + 1) (numAlloc + 1) w₁ := by
  have hnot : ¬ capacity w₁.conn.rbuf ≤ w₁.conn.rbufRlen := not_le.mpr hlt
  have hroom₁ : w₁.makeRoom = (w₁, true) := if_neg hnot
  constructor
  · simp only [readLoop, hfull, hnot, hmore, hroom, hroom₁, true_and, false_and, if_true, if_false]
  · simp only [readCalls, hfull, hnot, hmore, hroom, hroom₁, true_and, false_and, if_true, if_false]

/-- Behind a full buffer every call follows a doubling, and there are four of them. -/
theorem readLoop_full_gathered (fuel numAlloc : ℕ) (st : ReadState) {w : World}
    (hmem : ∀ i, w.heap.allocOk i = true) (h0 : 0 ≤ w.conn.rbufRlen)
    (hle : w.conn.rbufRlen ≤ capacity w.conn.rbuf) (hpos : 0 < w.conn.rbuf.length)
    (hfull : capacity w.conn.rbuf ≤ w.conn.rbufRlen) (halloc : numAlloc ≤ 4)
    (hlen : w.conn.rbuf.length * 2 ^ (4 - numAlloc) < 2 ^ 31) (hfuel : 5 ≤ fuel + numAlloc) :
    ∃ w' res d, readLoop fuel numAlloc st w = .ok (w', res) ∧ d + numAlloc ≤ 4 ∧
      (readCalls fuel numAlloc w).length ≤ d ∧ Gathered w d (readCalls fuel numAlloc w) w' := by
  induction fuel generalizing numAlloc st w with
  | zero => omega
  | succ fuel ih =>
    by_cases hmore : numAlloc = 4
    · have hend : capacity w.conn.rbuf ≤ w.conn.rbufRlen ∧ numAlloc = 4 := ⟨hfull, hmore⟩
      have hcalls : readCalls (fuel + 1) numAlloc w = [] := by
        rw [readCalls, if_pos hend]
      have hloop : readLoop (fuel + 1) numAlloc st w = .ok (w, st) := by
        rw [readLoop, if_pos hend]
      rw [hcalls, hloop]
      exact ⟨w, st, 0, rfl, by omega, le_rfl, .refl h0 hle⟩
    · have hpow : (2 : ℕ) ^ (4 - numAlloc) = 2 * 2 ^ (4 - (numAlloc + 1)) := by
        rw [← pow_succ']
        congr 1
        omega
      rw [hpow, ← mul_assoc] at hlen
      have hone : 1 ≤ 2 ^ (4 - (numAlloc + 1)) := Nat.one_le_two_pow
      have hdouble : w.conn.rbuf.length * 2 < 2 ^ 31 := (Nat.le_mul_of_pos_right _ hone).trans_lt hlen
      obtain ⟨w₁, hroom, hgrown, hlt⟩ := makeRoom_gathered hmem h0 hle hfull hpos hdouble
      have hlength₁ : w₁.conn.rbuf.length = w.conn.rbuf.length * 2 := by
        rw [hgrown.length, pow_one, mul_comm]
      have hmem₁ : ∀ i, w₁.heap.allocOk i = true := by
        rw [hgrown.heap]
        exact hmem
      obtain ⟨hloop, hcalls⟩ := readLoop_grown fuel st hfull hmore hroom hlt
      obtain ⟨w₂, hround, hnext⟩ := readLoop_room fuel (numAlloc + 1) st hgrown.ge hlt
        (by rw [hlength₁]; exact hdouble)
      rw [hloop, hcalls]
      rcases hnext with ⟨res, hloop₁, hcalls₁⟩ | ⟨hfull₂, hloop₁, hcalls₁⟩
      · rw [hloop₁, hcalls₁]
        exact ⟨w₂, res, 1, rfl, by omega, le_rfl, hgrown.trans hround⟩
      · have hlength₂ : w₂.conn.rbuf.length = w.conn.rbuf.length * 2 := by
          rw [hround.length, hlength₁, pow_zero, one_mul]
        have hmem₂ : ∀ i, w₂.heap.allocOk i = true := by
          rw [hround.heap]
          exact hmem₁
        obtain ⟨w', res, d, hloop₂, hd, hfew, hrest⟩ := @ih (numAlloc + 1) .received w₂ hmem₂
          hround.ge hround.le (by omega) hfull₂ (by omega) (by rw [hlength₂]; exact hlen) (by omega)
        rw [hloop₁, hcalls₁, hloop₂]
        refine ⟨w', res, 1 + d, rfl, by omega, ?_, ?_⟩
        · rw [List.length_cons]
          omega
        · exact hgrown.trans (by simpa using hround.trans hrest)

/-- The loop of `try_read_tcp`, from any buffer. -/
theorem readLoop_gathered (st : ReadState) {w : World} (hmem : ∀ i, w.heap.allocOk i = true)
    (h0 : 0 ≤ w.conn.rbufRlen) (hle : w.conn.rbufRlen ≤ capacity w.conn.rbuf)
    (hpos : 0 < w.conn.rbuf.length) (hlen : w.conn.rbuf.length < 2 ^ 27) :
    ∃ w' res d, readLoop 6 0 st w = .ok (w', res) ∧ d ≤ 4 ∧ (readCalls 6 0 w).length ≤ d + 1 ∧
      Gathered w d (readCalls 6 0 w) w' := by
  rcases le_or_gt (capacity w.conn.rbuf) w.conn.rbufRlen with hfull | hlt
  · obtain ⟨w', res, d, hloop, hd, hfew, hgathered⟩ :=
      readLoop_full_gathered 6 0 st hmem h0 hle hpos hfull (by omega) (by omega) (by omega)
    exact ⟨w', res, d, hloop, hd, by omega, hgathered⟩
  · obtain ⟨w₁, hround, hnext⟩ := readLoop_room 5 0 st h0 hlt (by omega)
    rcases hnext with ⟨res, hloop, hcalls⟩ | ⟨hfull, hloop, hcalls⟩
    · rw [hloop, hcalls]
      exact ⟨w₁, res, 0, rfl, by omega, le_rfl, hround⟩
    · have hlength : w₁.conn.rbuf.length = w.conn.rbuf.length := by
        rw [hround.length, pow_zero, one_mul]
      have hmem₁ : ∀ i, w₁.heap.allocOk i = true := by
        rw [hround.heap]
        exact hmem
      obtain ⟨w', res, d, hloop₁, hd, hfew, hrest⟩ :=
        readLoop_full_gathered 5 0 .received hmem₁ hround.ge hround.le (by omega) hfull (by omega)
          (by omega) (by omega)
      rw [hloop, hcalls, hloop₁]
      refine ⟨w', res, d, rfl, by omega, ?_, ?_⟩
      · rw [List.length_cons]
        omega
      · simpa using hround.trans hrest

/-- `try_read_tcp` comes to an end. It doubles the buffer four times at the most, each of
its calls is offered room in it, and what it leaves in the buffer are the bytes held
before and, behind them, those that the calls have taken from the socket. -/
theorem tryReadTcp_gathered {w : World} (hnow : w.conn.rbufNow = 0) (h0 : 0 ≤ w.conn.rbufRlen)
    (hle : w.conn.rbufRlen ≤ w.conn.rbuf.length) (hpos : 0 < w.conn.rbuf.length)
    (hlen : w.conn.rbuf.length < 2 ^ 27) (hmem : ∀ i, w.heap.allocOk i = true) :
    ∃ w' res d, w.tryReadTcp = .ok (w', res) ∧ d ≤ 4 ∧ (readCalls 6 0 w).length ≤ d + 1 ∧
      Gathered w d (readCalls 6 0 w) w' := by
  have hmove : w.moveDown = .ok w := if_pos hnow
  obtain ⟨w', res, d, hloop, hgathered⟩ := readLoop_gathered .noData hmem h0 hle hpos hlen
  refine ⟨w', res, d, ?_, hgathered⟩
  unfold tryReadTcp
  rw [hmove]
  exact hloop

/-- Whatever memory is had: unless it runs out, the loop puts what it reads behind what
is held. -/
theorem readLoop_stream {fuel numAlloc : ℕ} {st res : ReadState} {w w' : World}
    (h : readLoop fuel numAlloc st w = .ok (w', res)) (hres : res ≠ .memoryError)
    (h0 : 0 ≤ w.conn.rbufRlen) (hle : w.conn.rbufRlen ≤ capacity w.conn.rbuf)
    (hpos : 0 < w.conn.rbuf.length) (hlen : w.conn.rbuf.length < 2 ^ 31) :
    ∃ d calls, Gathered w d calls w' := by
  induction fuel generalizing numAlloc st w with
  | zero => cases h
  | succ fuel ih =>
    unfold readLoop at h
    dsimp only at h
    split at h
    · cases h
      exact ⟨0, [], .refl h0 hle⟩
    · split at h
      · obtain ⟨w₁, -, h⟩ := Result.bind_eq_ok.mp h
        cases h
        exact absurd rfl hres
      · rename_i w₁ hroom
        have hgrown : ∃ d, Gathered w d [] w₁ ∧ w₁.conn.rbufRlen < capacity w₁.conn.rbuf ∧
            w₁.conn.rbuf.length < 2 ^ 31 := by
          unfold makeRoom at hroom
          split at hroom
          · exact ⟨1, growRbuf_gathered h0 hle hpos hroom⟩
          · rename_i hlt
            cases hroom
            exact ⟨0, .refl h0 hle, not_le.mp hlt, hlen⟩
        obtain ⟨d, hgrown, hlt, hlen₁⟩ := hgrown
        obtain ⟨w₂, round, hround, hgathered⟩ := readRound_gathered hgrown.ge hlt hlen₁
        rw [hround] at h
        have hread := hgrown.trans hgathered
        cases round with
        | again => cases h; exact ⟨_, _, hread⟩
        | error => cases h; exact ⟨_, _, hread⟩
        | part => cases h; exact ⟨_, _, hread⟩
        | full =>
          have hlen₂ : w₂.conn.rbuf.length = w₁.conn.rbuf.length := by
            rw [hgathered.length, pow_zero, one_mul]
          have hpos₁ : 0 < w₁.conn.rbuf.length := by
            rw [hgrown.length]
            positivity
          obtain ⟨d', calls, hrest⟩ := ih h hgathered.ge hgathered.le (hpos₁.trans_eq hlen₂.symm)
            (hlen₂.trans_lt hlen₁)
          exact ⟨_, _, hread.trans hrest⟩

/-- No byte is lost between the socket and the buffer. -/
theorem Gathered.stream {w w' : World} {d : ℕ} {calls : List ReadCall} (h : Gathered w d calls w') :
    w'.held ++ w'.unread = w.held ++ w.unread := by
  rw [h.held, h.unread, List.append_assoc]

/-- A connection with room for four bytes, and a socket with eight. -/
def narrow (s : Cache) : World :=
  let w := Serving.fresh s
  { w with
    conn := { w.conn with rbuf := zeros 4 }
    reads := [.data (bytes "get a"), .data (bytes "bc\n"), .again] }

/-- The small buffer is filled, doubled and filled in part. -/
theorem tryReadTcp_gathered_narrow : ∃ s w' res d,
    Cache.init 1 Service.smallSettings (fun _ => true) 0 = some s ∧
    (narrow s).tryReadTcp = .ok (w', res) ∧ d ≤ 4 ∧
    (readCalls 6 0 (narrow s)).length ≤ d + 1 ∧
    Gathered (narrow s) d (readCalls 6 0 (narrow s)) w' := by
  obtain ⟨s, hinit⟩ := Serving.init_small
  have hpos : 0 < (zeros 4).length := by decide
  have hlen : (zeros 4).length < 2 ^ 27 := by decide
  obtain ⟨w', res, d, hread⟩ := tryReadTcp_gathered (w := narrow s) rfl le_rfl
    (Int.natCast_nonneg _) hpos hlen (fun _ => rfl)
  exact ⟨s, w', res, d, hinit, hread⟩

end World

end MiniMemcached
