import MiniMemcached.Protocol.Sending

/-! Answers that go out in pieces. `out_string` queues a line; however the socket cuts
it, and over however many calls of `write_activate_read`, the line goes out once and
in order, and then the buffer is as the constructor made it. -/

namespace MiniMemcached

open Memory Runs

/-- `wbuf` has room for what `wbuf_len` says and for what `write_activate_read` clears. -/
structure Conn.Writable (c : Conn) : Prop where
  le : c.wbufLen ≤ c.wbuf.length
  room : WRITEBUF_LEN ≤ c.wbuf.length
  int : c.wbufLen < 2 ^ 31

/-- The buffer as the constructor made it. -/
structure Conn.Rewound (c : Conn) : Prop where
  now : c.wbufNow = some 0
  wlen : c.wbufWlen = 0
  len : c.wbufLen = WRITEBUF_LEN

theorem Conn.Rested.writable {c : Conn} (h : c.Rested) : c.Writable := by
  have hle := h.le
  have hroom := h.room
  unfold WRITEBUF_LEN at hle hroom
  exact ⟨by omega, h.room, by omega⟩

theorem Conn.Partway.writable {c : Conn} {msg : List UInt8} {k : ℕ} (h : c.Partway msg k) : c.Writable := by
  have hfront := h.front.length_le
  have hlen := h.length
  have hint := h.int
  exact ⟨by omega, h.room, by omega⟩

/-- The bytes for which one call finds room: the results up to the first that is none. -/
def accepted : List WriteResult → ℕ
  | .wrote n :: rest => n + accepted rest
  | _ => 0

namespace World

/-- The line that is queued is about to be sent. -/
theorem partway_queue {w : World} {wStr : List UInt8} (h : w.conn.Writable) (hwlen : w.conn.wbufWlen = 0)
    (hlen : (wStr.length : ℤ) + 2 < w.conn.wbufLen) : w.conn.outString wStr = .ok (w.conn.queue wStr) ∧
      (w.conn.queue wStr).Partway (wStr ++ crlf) 0 := by
  have hle := h.le
  have hint := h.int
  have htext : (wStr ++ crlf).length = wStr.length + 2 := List.length_append
  have hline : w.conn.outLine wStr = wStr := if_neg (by omega)
  have hput : (put w.conn.wbuf 0 (wStr ++ crlf)).length = w.conn.wbuf.length := length_put (by omega)
  refine ⟨Conn.outString_eq_ok.mpr ⟨by rw [hline]; omega, by rw [hline]⟩, ?_, ?_, by omega,
    ?_, by omega, hwlen, rfl⟩
  · show (wStr.length : ℤ) + 2 = _
    omega
  · show _ <+: put w.conn.wbuf 0 (wStr ++ crlf)
    rw [put_front]
    exact List.prefix_append _ _
  · show _ ≤ (put w.conn.wbuf 0 (wStr ++ crlf)).length
    rw [hput]
    exact h.room

/-- What calls of `write_activate_read` have sent of a message, and what they leave. -/
structure SentSoFar (w w' : World) (msg : List UInt8) (res : WriteState) : Prop where
  noError : res ≠ .error
  all : res = .all → w'.sent = w.sent ++ msg ∧ w'.conn.Rewound
  part : res = .part → ∃ k, k < msg.length ∧ w'.conn.wbufWlen = k ∧ w'.conn.wbufNow = some k ∧
    w'.sent = w.sent ++ msg.take k

/-- A call that does not come to the end of the message has sent all that the socket took. -/
theorem writeLoop_accepted {msg : List UInt8} {k : ℕ} {w w' : World} {res : WriteState}
    {ws : List WriteResult}
    (htakes : ∀ r ∈ ws, r.Takes) (h : w.conn.Partway msg k) (hloop : writeLoop ws w = .ok (w', res))
    (hpart : res ≠ .all) : w'.conn.wbufWlen = (k + accepted ws : ℕ) := by
  have hlt := h.lt
  have hlen := h.length
  have hwlen := h.wlen
  induction ws generalizing k w with
  | nil =>
    unfold writeLoop at hloop
    rw [if_neg (by omega)] at hloop
    cases hloop
    exact hwlen
  | cons r rest ih =>
    have hgood := htakes r List.mem_cons_self
    cases r with
    | again =>
      unfold writeLoop at hloop
      dsimp only at hloop
      rw [if_neg (by omega)] at hloop
      cases hloop
      exact hwlen
    | failed => exact hgood.elim
    | wrote n =>
      have hn : 0 < n := hgood
      rw [writeLoop_wrote rest h hn] at hloop
      split at hloop
      · cases hloop
        exact absurd rfl hpart
      · have hnext := partway_tookBytes (n := n) h (by omega)
        have hrest := ih (fun r hr => htakes r (List.mem_cons_of_mem _ hr)) hnext hloop hnext.lt hnext.length
          hnext.wlen
        rw [hrest, accepted, Nat.add_assoc]

theorem sends_partway {msg : List UInt8} {k : ℕ} {w : World} (w₀ : World) (calls : List (List WriteResult))
    (hcalls : ∀ ws ∈ calls, ∀ r ∈ ws, r.Takes) (h : w.conn.Partway msg k)
    (hsent : w.sent = w₀.sent ++ msg.take k) :
    ∃ w' res, w.sends calls = .ok (w', res) ∧ SentSoFar w₀ w' msg res ∧
      (msg.length ≤ k + (calls.map accepted).sum → res = .all) := by
  have hlt := h.lt
  induction calls generalizing k w with
  | nil =>
    exact ⟨w, .part, rfl, ⟨by simp, by simp, fun _ => ⟨k, h.lt, h.wlen, h.now, hsent⟩⟩, fun hle =>
      absurd hle (by simpa using hlt)⟩
  | cons ws calls ih =>
    obtain ⟨w', res, hloop, hall, hpart, hgood⟩ := writeLoop_partway (w := { w with writes := ws }) ws h
    have hne := hgood (hcalls ws List.mem_cons_self)
    have hjoin : w.sent ++ msg.drop k = w₀.sent ++ msg := by
      rw [hsent, List.append_assoc, List.take_append_drop]
    unfold sends writeActivateRead
    rw [hloop, Result.ok_bind]
    cases res with
    | all =>
      obtain ⟨hout, hrested, hlen⟩ := hall rfl
      exact ⟨w', .all, rfl, ⟨by simp, fun _ => ⟨hout.trans hjoin, hrested.now, hrested.wlen, hlen⟩, by simp⟩,
        fun _ => rfl⟩
    | part =>
      obtain ⟨k', hk', hout⟩ := hpart (by simp)
      have hsent' : w'.sent = w₀.sent ++ msg.take k' := by
        refine (List.append_left_inj (msg.drop k')).mp ?_
        rw [List.append_assoc, List.take_append_drop, ← hjoin]
        exact hout
      have hk : k' = k + accepted ws := by
        have hwlen := writeLoop_accepted (w := { w with writes := ws })
          (hcalls ws List.mem_cons_self) h hloop (by simp)
        exact_mod_cast hk'.wlen.symm.trans hwlen
      rw [List.map_cons, List.sum_cons, ← Nat.add_assoc, ← hk]
      exact ih (fun ws hws => hcalls ws (List.mem_cons_of_mem _ hws)) hk' hsent' hk'.lt
    | error => exact absurd rfl hne

/-- However the socket cuts the line that `out_string` has queued, and wherever its results
stop, what it has taken is the front of the line and its CRLF, and `wbuf_now` stands
behind it; with the last byte the buffer is rewound, and once the counts add up to the
length that byte is out. -/
theorem outString_sent (w : World) (wStr : List UInt8) (hw : w.conn.Writable) (hwlen : w.conn.wbufWlen = 0)
    (hlen : (wStr.length : ℤ) + 2 < w.conn.wbufLen) (calls : List (List WriteResult))
    (hcalls : ∀ ws ∈ calls, ∀ r ∈ ws, r.Takes) :
    ∃ w₁ w' res, w.outString wStr = .ok w₁ ∧ w₁.sends calls = .ok (w', res) ∧
      SentSoFar w w' (wStr ++ crlf) res ∧ (wStr.length + 2 ≤ (calls.map accepted).sum → res = .all) := by
  obtain ⟨hout, hpart⟩ := partway_queue hw hwlen hlen
  obtain ⟨w', res, hsends, hsofar, henough⟩ :=
    sends_partway (w := { w with conn := w.conn.queue wStr }) w calls hcalls hpart (List.append_nil _).symm
  refine ⟨_, w', res, ?_, hsends, hsofar, fun hle => henough ?_⟩
  · unfold World.outString
    rw [hout]
    rfl
  · rwa [List.length_append, Nat.zero_add]

end World

namespace Serving

/-- Every connection that is not closed has such a buffer. -/
theorem writable_of_run {w : World} {flagPrecmd flagShake noreply : Bool} {rbuf wbuf : List UInt8}
    {cas : UInt64}
    (hwbuf : wbuf.length = WRITEBUF_LEN) (hw : w.conn = Conn.new flagPrecmd flagShake noreply rbuf wbuf cas)
    (as : List Happening) {t : Serving} (hrun : run step (start w) as = .ok t)
    (hopen : t.world.conn.state ≠ .connClosed) : t.world.conn.Writable := by
  have hordered : t.world.Ordered :=
    invariant_run (I := fun t => t.world.Ordered) (fun _ _ _ => ordered_step) (ordered_start hwbuf hw) hrun
  by_cases hwrite : t.world.conn.state = .connWrite
  · obtain ⟨msg, k, hsending⟩ := hordered.sending hwrite
    exact hsending.partway.writable
  · exact (hordered.rested (by simp [hwrite, hopen])).writable

/-- The text `STORED` goes out in two pieces. -/
theorem outString_sent_stored : ∃ s w₁ w',
    Cache.init 1 Service.smallSettings (fun _ => true) 0 = some s ∧
    (fresh s).outString (bytes "STORED") = .ok w₁ ∧
    w₁.sends [[.wrote 3, .again], [.wrote 100]] = .ok (w', .all) ∧ w'.sent = bytes "STORED" ++ crlf := by
  obtain ⟨s, hinit⟩ := init_small
  have hw : (fresh s).conn.Writable :=
    writable_of_run (w := fresh s) (length_zeros _) rfl [] rfl (by simp [start, fresh, Conn.new])
  have htakes : ∀ ws ∈ [[WriteResult.wrote 3, .again], [.wrote 100]], ∀ r ∈ ws, r.Takes := by
    simp [WriteResult.Takes]
  obtain ⟨w₁, w', res, hout, hsends, hsofar, henough⟩ :=
    World.outString_sent (fresh s) (bytes "STORED") hw rfl
      (show ((bytes "STORED").length : ℤ) + 2 < 2048 by decide)
      [[.wrote 3, .again], [.wrote 100]] htakes
  obtain rfl := henough (by decide)
  exact ⟨s, w₁, w', hinit, hout, hsends, (hsofar.all rfl).1⟩

end Serving

end MiniMemcached
