import MiniMemcached.Protocol.Sending
import MiniMemcached.Service.Outcomes

/-! A data block that arrives in several reads. `read_value_stored` adds up the lengths
of the reads and compares the sum with the length of the block, but gives every `read`
the front of `rnbuf`, so a later piece lies over the earlier ones. -/

namespace MiniMemcached

open Memory Runs

/-- The results of `read` bring the block in pieces that are not empty, with nothing at
the socket any number of times before each of them. -/
inductive Splits : List UInt8 → List ReadResult → Prop
  | last {bs : List UInt8} (hbs : bs ≠ []) : Splits bs [.data bs]
  | again {block : List UInt8} {rs : List ReadResult} (h : Splits block rs) :
      Splits block (.again :: rs)
  | part {bs block : List UInt8} {rs : List ReadResult} (hbs : bs ≠ []) (h : Splits block rs) :
      Splits (bs ++ block) (.data bs :: rs)

/-- The number of the pieces. -/
def pieces (rs : List ReadResult) : ℕ := rs.countP (· ≠ .again)

/-- The pieces laid over each other at the front of a buffer. -/
def overlay : List ReadResult → List UInt8 → List UInt8
  | [], b => b
  | .data bs :: rs, b => overlay rs (put b 0 bs)
  | .again :: rs, b | .failed :: rs, b => overlay rs b

/-- The pieces in the history of the connection. -/
def pieceDeeds : List ReadResult → List Deed
  | [] => []
  | .data bs :: rs => .block bs :: pieceDeeds rs
  | .again :: rs | .failed :: rs => pieceDeeds rs

namespace Splits

variable {block : List UInt8} {rs : List ReadResult}

theorem length_pos (h : Splits block rs) : 0 < block.length := by
  induction h with
  | last hbs => exact List.length_pos_iff.mpr hbs
  | again _ ih => exact ih
  | part hbs _ ih =>
    rw [List.length_append]
    omega

theorem pieces_pos (h : Splits block rs) : 0 < pieces rs := by
  induction h with
  | last => simp [pieces]
  | again _ ih => simpa [pieces] using ih
  | part => simp [pieces]

theorem length_overlay (h : Splits block rs) {b : List UInt8} (hle : block.length ≤ b.length) :
    (overlay rs b).length = b.length := by
  induction h generalizing b with
  | last => exact length_put (by omega)
  | again _ ih => exact ih hle
  | @part bs block rs hbs h ih =>
    rw [List.length_append] at hle
    have hput : (put b 0 bs).length = b.length := length_put (by omega)
    exact (ih (by omega)).trans hput

/-- A block in one piece stands at the front of the buffer. -/
theorem overlay_of_one (h : Splits block rs) (hone : pieces rs = 1) (b : List UInt8) :
    overlay rs b = put b 0 block := by
  induction h generalizing b with
  | last => rfl
  | again _ ih => exact ih (by simpa [pieces] using hone) b
  | part hbs h ih =>
    have hpos := h.pieces_pos
    simp only [pieces] at hone hpos
    rw [List.countP_cons_of_pos (by simp)] at hone
    omega

theorem getElem?_put_of_le {b bs : List UInt8} {i : ℕ} (hi : bs.length ≤ i) :
    (put b 0 bs)[i]? = b[i]? := by
  rw [put_front, List.getElem?_append_right hi, List.getElem?_drop]
  congr 1
  omega

/-- A piece is as long as the block only when it is the only one: no other piece reaches
the last byte of the block. -/
theorem getElem?_overlay (h : Splits block rs) (b : List UInt8) {i : ℕ} (hi : block.length ≤ i) :
    (overlay rs b)[i]? = b[i]? := by
  induction h generalizing b with
  | last => exact getElem?_put_of_le hi
  | again _ ih => exact ih b hi
  | @part bs block rs hbs h ih =>
    rw [List.length_append] at hi
    rw [overlay, ih _ (by omega), getElem?_put_of_le (by omega)]

theorem getElem?_overlay_last (h : Splits block rs) (hmany : pieces rs ≠ 1) (b : List UInt8) :
    (overlay rs b)[block.length - 1]? = b[block.length - 1]? := by
  induction h generalizing b with
  | last => exact absurd rfl hmany
  | again _ ih => exact ih (by simpa [pieces] using hmany) b
  | @part bs block rs hbs h ih =>
    have hpos := h.length_pos
    have hbs := List.length_pos_iff.mpr hbs
    rw [overlay, h.getElem?_overlay _ (by rw [List.length_append]; omega),
      getElem?_put_of_le (by rw [List.length_append]; omega)]

/-- The front of the buffer is the block for every content of the buffer just when the
block came in one piece. -/
theorem forall_overlay_iff (h : Splits block rs) {n : ℕ} (hn : block.length ≤ n) :
    (∀ b : List UInt8, b.length = n → slice (overlay rs b) 0 block.length = block) ↔ pieces rs = 1 := by
  have hpos := h.length_pos
  constructor
  · intro hall
    by_contra hmany
    -- a buffer whose bytes differ from the last byte of the block
    obtain ⟨x, hx⟩ : ∃ x, block[block.length - 1]? = some x :=
      ⟨_, List.getElem?_eq_getElem (by omega)⟩
    have hlast := congrArg (fun l : List UInt8 => l[block.length - 1]?)
      (hall (List.replicate n (x + 1)) List.length_replicate)
    simp only [slice, List.drop_zero] at hlast
    rw [List.getElem?_take_of_lt (by omega), h.getElem?_overlay_last hmany, List.getElem?_replicate,
      if_pos (by omega), hx] at hlast
    have hnat := congrArg UInt8.toNat (Option.some.inj hlast)
    rw [UInt8.toNat_add, show (1 : UInt8).toNat = 1 from rfl] at hnat
    omega
  · intro hone b hb
    rw [h.overlay_of_one hone, put_front, slice, List.drop_zero, List.take_left]

end Splits

namespace World

/-- Turns of the machine, one after the other. -/
def turns : ℕ → World → Result World
  | 0, w => .ok w
  | n + 1, w => w.turn >>= turns n

/-- A connection whose storage command waits for a block of `n` bytes and CRLF. -/
structure AwaitsBlock (w : World) (n : ℕ) (it : Ptr) : Prop where
  state : w.conn.state = .connNread
  shake : w.conn.flagShake = false
  cmd : w.conn.cmd ≠ .error
  item : w.conn.item = some it
  rnbufLen : w.conn.rnbufLen = n + 2
  rnbufRlen : w.conn.rnbufRlen = 0
  small : n + 2 < 2 ^ 31
  rested : w.conn.Rested

/-- The handler of a storage line leaves the connection so. -/
theorem awaitsBlock_acceptLine {w : World} {it : Ptr} {L : StoreLine} (hshake : w.conn.flagShake = false)
    (hcmd : w.conn.cmd ≠ .error) (hrlen : w.conn.rnbufRlen = 0) (hrested : w.conn.Rested) :
    (w.acceptLine it L).AwaitsBlock (L.vlen - 2).toNat it := by
  have hge := L.vlen_ge
  have hlt := L.vlen_lt
  refine ⟨rfl, hshake, hcmd, rfl, ?_, hrlen, by omega, hrested.congr rfl rfl rfl rfl⟩
  show L.vlen = _
  omega

/-- The buffer for the block with these contents. -/
def withRnbuf (w : World) (b : List UInt8) : World :=
  { w with conn := { w.conn with rnbuf := .live b } }

/-- The connection behind the last piece of a block. -/
def gathered (w : World) (rs rest : List ReadResult) (b : List UInt8) : World :=
  { w with
    reads := rest
    conn := { w.conn with rnbuf := .live (overlay rs b), rnbufRlen := w.conn.rnbufLen }
    deeds := w.deeds ++ pieceDeeds rs }

theorem read_data {w : World} {n : ℕ} {bs : List UInt8} {rest : List ReadResult}
    (hreads : w.reads = .data bs :: rest) (hbs : bs ≠ []) (hle : bs.length ≤ n) :
    w.read n = ({ w with reads := rest }, .data bs) := by
  have hpos := List.length_pos_iff.mpr hbs
  unfold read
  rw [if_neg (by omega)]
  simp only [hreads, if_pos hle]

/-- A turn that reads a piece of the block. -/
theorem turn_piece {w : World} {bs b : List UInt8} {rest : List ReadResult}
    (hstate : w.conn.state = .connNread) (hshake : w.conn.flagShake = false)
    (hreads : w.reads = .data bs :: rest) (hlive : w.conn.rnbuf = .live b) (hbs : bs ≠ [])
    (hle : bs.length ≤ b.length) (hfit : bs.length ≤ toSizeT (w.conn.rnbufLen - w.conn.rnbufRlen)) :
    w.turn = (w.tookPart rest b bs).finishValue := by
  have hwrite : write b 0 bs = .ok (put b 0 bs) := write_of_le (by omega)
  have hread := read_data hreads hbs hfit
  obtain ⟨x, xs, rfl⟩ := List.exists_cons_of_ne_nil hbs
  unfold turn
  simp only [hstate]
  unfold readValueStored
  rw [if_neg (by simp [hshake]), hread]
  simp only [hlive, Block.deref, Result.ok_bind, hwrite]
  rfl

/-- A turn in which the socket has nothing. -/
theorem turn_again {w : World} {rest : List ReadResult} (hstate : w.conn.state = .connNread)
    (hshake : w.conn.flagShake = false) (hreads : w.reads = .again :: rest)
    (hroom : toSizeT (w.conn.rnbufLen - w.conn.rnbufRlen) ≠ 0) :
    w.turn = .ok { w with reads := rest } := by
  have hread : w.read (toSizeT (w.conn.rnbufLen - w.conn.rnbufRlen)) =
    ({ w with reads := rest }, .again) := by
    unfold read
    rw [if_neg hroom]
    simp only [hreads]
  unfold turn
  simp only [hstate]
  unfold readValueStored
  rw [if_neg (by simp [hshake]), hread]
  rfl

theorem finishValue_incomplete {w : World} (h : w.conn.rnbufLen ≠ w.conn.rnbufRlen) :
    w.finishValue = .ok w := if_pos h

/-- The turns up to the end of a block. -/
theorem turns_splits {block : List UInt8} {rs : List ReadResult} (h : Splits block rs)
    (rest : List ReadResult) {w : World} {b : List UInt8} (hstate : w.conn.state = .connNread)
    (hshake : w.conn.flagShake = false) (hreads : w.reads = rs ++ rest) (hlive : w.conn.rnbuf = .live b)
    (hle : block.length ≤ b.length) (hlen : w.conn.rnbufLen = w.conn.rnbufRlen + block.length)
    (hsmall : block.length < 2 ^ 31) :
    w.turns rs.length = (w.gathered rs rest b).finishValue := by
  have hsize : toSizeT (w.conn.rnbufLen - w.conn.rnbufRlen) = block.length := by
    rw [toSizeT_of_bounds (by omega) (by omega)]
    omega
  induction h generalizing w b with
  | @last bs hbs =>
    have hreads : w.reads = .data bs :: rest := hreads
    have hturn := turn_piece hstate hshake hreads hlive hbs hle hsize.ge
    show w.turn >>= turns 0 = _
    rw [hturn]
    have hsame : w.tookPart rest b bs = w.gathered [.data bs] rest b := by
      unfold tookPart gathered
      rw [hlen]
      rfl
    rw [hsame]
    cases (w.gathered [.data bs] rest b).finishValue <;> rfl
  | @again block rs h ih =>
    have hpos := h.length_pos
    show w.turn >>= turns rs.length = _
    rw [turn_again hstate hshake hreads (by omega), Result.ok_bind]
    exact ih (w := { w with reads := rs ++ rest }) hstate hshake rfl hlive hle hlen hsmall hsize
  | @part bs block rs hbs h ih =>
    have hpos := h.length_pos
    rw [List.length_append] at hle hlen hsmall hsize
    have hput : (put b 0 bs).length = b.length := length_put (by omega)
    have hreads : w.reads = .data bs :: (rs ++ rest) := hreads
    have hturn := turn_piece hstate hshake hreads hlive hbs (by omega) (by omega)
    show w.turn >>= turns rs.length = _
    rw [hturn, finishValue_incomplete, Result.ok_bind]
    · have hnext := ih (w := w.tookPart (rs ++ rest) b bs) (b := put b 0 bs) hstate hshake rfl rfl
        (by omega) ?_ (by omega) ?_
      · rw [hnext]
        unfold gathered tookPart
        simp only [List.append_assoc]
        rfl
      · show w.conn.rnbufLen = w.conn.rnbufRlen + bs.length + block.length
        omega
      · show toSizeT (w.conn.rnbufLen - (w.conn.rnbufRlen + bs.length)) = _
        rw [toSizeT_of_bounds (by omega) (by omega)]
        omega
    · show w.conn.rnbufLen ≠ w.conn.rnbufRlen + bs.length
      omega

/-- The end of `read_value_stored` for a complete block. -/
theorem finishValue_complete {w : World} {it : Ptr} {b : List UInt8}
    (hlen : w.conn.rnbufLen = w.conn.rnbufRlen) (hcmd : w.conn.cmd ≠ .error)
    (hitem : w.conn.item = some it) (hlive : w.conn.rnbuf = .live b) (hpos : 0 ≤ w.conn.rnbufLen)
    (hsmall : w.conn.rnbufLen < 2 ^ 31) (hroom : w.conn.rnbufLen + 3 ≤ b.length)
    (hrested : w.conn.Rested) :
    w.finishValue =
      w.cache.commandBlock it w.conn.cmd (slice b 0 (toSizeT w.conn.rnbufLen)) >>= fun r =>
        .ok (w.storedWith r.1 (r.2.2.getD w.conn.cas) (storeAnswer w.conn.cmd r.2.1)
          (slice b 0 (toSizeT w.conn.rnbufLen)) (w.cache.items.key it) r.2.1) := by
  have hsize := toSizeT_of_bounds hpos (by omega)
  have hload : load b 0 (toSizeT w.conn.rnbufLen) = .ok (slice b 0 (toSizeT w.conn.rnbufLen)) :=
    load_eq_ok.mpr ⟨by omega, rfl⟩
  have hcap : ¬capacity b < w.conn.rnbufLen + 3 := by
    unfold capacity
    omega
  have hout : ∀ (cas : UInt64) (text : List UInt8),
      ({ w.conn.clearRbuf with rnbuf := .dangling, rnbufRlen := 0, cas := cas } : Conn).outString text =
        .ok (({ w.conn.clearRbuf with rnbuf := .dangling, rnbufRlen := 0, cas := cas } : Conn).queue
          (w.conn.outLine text)) :=
    fun cas text => Conn.Rested.outString_eq
      (c := { w.conn.clearRbuf with rnbuf := .dangling, rnbufRlen := 0, cas := cas })
      (hrested.congr rfl rfl rfl rfl) text
  unfold finishValue
  rw [if_neg (not_not.mpr hlen), if_neg hcmd]
  unfold storeValue
  simp only [hitem, hlive, Block.deref, Result.ok_bind, hload]
  cases w.cache.commandBlock it w.conn.cmd (slice b 0 (toSizeT w.conn.rnbufLen)) with
  | error e => rfl
  | ok r =>
    obtain ⟨s, stat, cas⟩ := r
    simp only [Result.ok_bind, if_neg hcap]
    rw [hout]
    rfl

/-- After one turn for each result of `read` the item was stored once, with the pieces in
their order as its value, and the machine has read no more. -/
def Reassembles (w : World) (it : Ptr) (block : List UInt8) (rs rest : List ReadResult) : Prop :=
  ∃ w' stat cas, ({ w with reads := rs ++ rest } : World).turns rs.length = .ok w' ∧ w'.reads = rest ∧
    w.cache.commandBlock it w.conn.cmd block = .ok (w'.cache, stat, cas) ∧
    w'.deeds = w.deeds ++ pieceDeeds rs ++ [.store w.conn.cmd (w.cache.items.key it) block stat]

/-- The turns end with the store of what the pieces left in the buffer. -/
theorem turns_awaits {w : World} {n : ℕ} {it : Ptr} {block b : List UInt8} {rs : List ReadResult}
    (h : w.AwaitsBlock n it) (hblock : block.length = n + 2) (hrs : Splits block rs)
    (rest : List ReadResult) (hb : b.length = n + 5) :
    ({ w.withRnbuf b with reads := rs ++ rest } : World).turns rs.length =
      w.cache.commandBlock it w.conn.cmd (slice (overlay rs b) 0 block.length) >>= fun r =>
        .ok ((w.gathered rs rest b).storedWith r.1 (r.2.2.getD w.conn.cas) (storeAnswer w.conn.cmd r.2.1)
          (slice (overlay rs b) 0 block.length) (w.cache.items.key it) r.2.1) := by
  have hsmall := h.small
  have hlen := h.rnbufLen
  have hrlen := h.rnbufRlen
  have hsize : toSizeT w.conn.rnbufLen = block.length := by
    rw [toSizeT_of_bounds (by omega) (by omega)]
    omega
  have hover := hrs.length_overlay (b := b) (by omega)
  rw [turns_splits hrs rest (w := { w.withRnbuf b with reads := rs ++ rest }) h.state h.shake rfl rfl
    (by omega) ?_ (by omega), ← hsize]
  · exact finishValue_complete (w := w.gathered rs rest b) rfl h.cmd h.item rfl
      (by show 0 ≤ w.conn.rnbufLen; omega)
      (by show w.conn.rnbufLen < _; omega) (by show w.conn.rnbufLen + 3 ≤ _; omega)
      (h.rested.congr rfl rfl rfl rfl)
  · show w.conn.rnbufLen = w.conn.rnbufRlen + block.length
    omega

theorem reassembles_iff_overlay {w : World} {n : ℕ} {it : Ptr} {block b : List UInt8}
    {rs : List ReadResult} (h : w.AwaitsBlock n it) (hblock : block.length = n + 2) (hrs : Splits block rs)
    (rest : List ReadResult) (hb : b.length = n + 5) :
    (w.withRnbuf b).Reassembles it block rs rest ↔
      slice (overlay rs b) 0 block.length = block ∧
      ∃ r, w.cache.commandBlock it w.conn.cmd block = .ok r := by
  have hturns := turns_awaits h hblock hrs rest hb
  constructor
  · rintro ⟨w', stat, cas, hw', -, hstore, hdeeds⟩
    refine ⟨?_, _, hstore⟩
    rw [hturns] at hw'
    obtain ⟨r, -, hw'⟩ := Result.bind_eq_ok.mp hw'
    cases hw'
    have hlast := List.append_cancel_left hdeeds
    rw [List.cons.injEq, Deed.store.injEq] at hlast
    exact hlast.1.2.2.1
  · rintro ⟨hvalue, ⟨s, stat, cas⟩, hstore⟩
    rw [hvalue, hstore, Result.ok_bind] at hturns
    exact ⟨_, stat, cas, hturns, rfl, hstore, rfl⟩

end World

namespace Service

variable {st : Service} {a : Action} {P : Pending}

/-- Whatever is in the fresh buffer: a block is reassembled just when it comes in one piece
and its store returns. -/
theorem reassembles_iff {limit : ℕ} {set : Settings} {mallocOk : ℕ → Bool} {hashpower : ℕ}
    {s : Cache} (hinit : Cache.init limit set mallocOk hashpower = some s) {as : List Action}
    (hrun : run step (start s) as = .ok st) (hP : st.pending a.conn = some P) {w : World} {n : ℕ}
    (hw : w.AwaitsBlock n P.it) (hcache : w.cache = st.at_ a) {block : List UInt8}
    (hblock : block.length = n + 2) {rs : List ReadResult} (hrs : Splits block rs)
    (rest : List ReadResult) :
    (∀ b, b.length = n + 5 → (w.withRnbuf b).Reassembles P.it block rs rest) ↔
      pieces rs = 1 ∧ (w.conn.cmd = .cas → ∃ p, (st.at_ a).live P.line.key p) := by
  have hstore := commandBlock_ok_iff hinit hrun hP block w.conn.cmd
  rw [← hcache] at hstore ⊢
  rw [← hstore, ← hrs.forall_overlay_iff (n := n + 5) (by omega)]
  constructor
  · intro hall
    refine ⟨fun b hb => ((World.reassembles_iff_overlay hw hblock hrs rest hb).mp (hall b hb)).1, ?_⟩
    have hb : (List.replicate (n + 5) (0 : UInt8)).length = n + 5 := List.length_replicate
    exact ((World.reassembles_iff_overlay hw hblock hrs rest hb).mp (hall _ hb)).2
  · rintro ⟨hover, hok⟩ b hb
    exact (World.reassembles_iff_overlay hw hblock hrs rest hb).mpr ⟨hover b hb, hok⟩

/-- A fresh connection behind the storage line of `P`. -/
def awaiting (s : Cache) (P : Pending) : World :=
  let w := Serving.fresh s
  ({ w with conn := { w.conn with cmd := P.line.cmd } } : World).acceptLine P.it P.line

theorem awaitsBlock_awaiting (s : Cache) {P : Pending} (hcmd : P.line.cmd ≠ .error) :
    (awaiting s P).AwaitsBlock (P.line.vlen - 2).toNat P.it :=
  World.awaitsBlock_acceptLine (w := { Serving.fresh s with
      conn := { (Serving.fresh s).conn with cmd := P.line.cmd } }) rfl hcmd rfl
    ⟨rfl, rfl, show (0 : ℤ) < WRITEBUF_LEN by decide, le_rfl, (length_zeros _).ge⟩

theorem reassembles_iff_plainFlags : ∃ s st P, Cache.init 1 smallSettings (fun _ => true) 0 = some s ∧
    run step (start s) (setWithFlags 0) = .ok st ∧ st.pending 0 = some P ∧
    ∀ b, b.length = 6 →
      ((awaiting (st.at_ shortBlock) P).withRnbuf b).Reassembles P.it [120, 13, 10]
        [.again, .data [120, 13, 10]] [] := by
  have htrial : (trial 1 0 (setWithFlags 0)).any (fun st => (st.pending 0).any fun P =>
      decide (P.line.cmd = .set ∧ P.line.vlen = 3)) = true := by decide +kernel
  obtain ⟨s, st, P, hinit, hrun, hP, hline⟩ := exists_waiting htrial
  obtain ⟨hcmd, hvlen⟩ := of_decide_eq_true hline
  have hw := awaitsBlock_awaiting (st.at_ shortBlock) (P := P) (by simp [hcmd])
  rw [hvlen] at hw
  refine ⟨s, st, P, hinit, hrun, hP, (reassembles_iff (a := shortBlock) hinit hrun hP hw rfl rfl
    (.again (.last (by simp))) []).mpr ⟨by decide, fun hcas => ?_⟩⟩
  rw [show (awaiting (st.at_ shortBlock) P).conn.cmd = P.line.cmd from rfl, hcmd] at hcas
  cases hcas

/-- A block in two pieces leaves the second one at the front of the buffer. -/
theorem not_reassembles_twoPieces : ∃ s st P, Cache.init 1 smallSettings (fun _ => true) 0 = some s ∧
    run step (start s) (setWithFlags 0) = .ok st ∧ st.pending 0 = some P ∧
    (awaiting (st.at_ shortBlock) P).AwaitsBlock 1 P.it ∧
    ¬((awaiting (st.at_ shortBlock) P).withRnbuf (zeros 6)).Reassembles P.it [120, 13, 10]
      [.data [120], .data [13, 10]] [] := by
  have htrial : (trial 1 0 (setWithFlags 0)).any (fun st => (st.pending 0).any fun P =>
      decide (P.line.cmd = .set ∧ P.line.vlen = 3)) = true := by decide +kernel
  obtain ⟨s, st, P, hinit, hrun, hP, hline⟩ := exists_waiting htrial
  obtain ⟨hcmd, hvlen⟩ := of_decide_eq_true hline
  have hw := awaitsBlock_awaiting (st.at_ shortBlock) (P := P) (by simp [hcmd])
  rw [hvlen] at hw
  have hsplits : Splits ([120] ++ [13, 10]) [.data [120], .data [13, 10]] :=
    .part (by simp) (.last (by simp))
  refine ⟨s, st, P, hinit, hrun, hP, hw, fun hall => ?_⟩
  have hslice := ((World.reassembles_iff_overlay hw rfl hsplits [] (length_zeros _)).mp hall).1
  exact absurd hslice (by decide)

end Service

end MiniMemcached
