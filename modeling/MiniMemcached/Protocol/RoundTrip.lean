import MiniMemcached.Protocol.Watchers

/-! What is stored and what is sent back. The answer to `get` is formatted from the
item: its count of bytes includes the CRLF that the client's count leaves out, and
its flags are the byte in which the cache keeps its own marks. -/

namespace MiniMemcached

open Memory

/-- A lookup returns an item with the key it looked for. -/
theorem findFrom_key {m : Items} {key : List UInt8} {n : ℕ} {p : Option Ptr} {it : Ptr}
    (h : findFrom m key n p = .ok (some it)) : m.key it = key := by
  induction n generalizing p with
  | zero => cases p <;> cases h
  | succ n ih =>
    cases p with
    | none => cases h
    | some q =>
      unfold findFrom at h
      split at h
      · rename_i hkey
        cases h
        exact (m.keyIs_iff it key).mp hkey
      · exact ih h

theorem Cache.itemGet_key {s s' : Cache} {key : List UInt8} {it : Ptr}
    (h : s.itemGet key = .ok (s', some it)) : s'.items.key it = key := by
  obtain ⟨⟨s₁, o⟩, hget, h⟩ := Result.bind_eq_ok.mp h
  cases h
  obtain ⟨found, hfind, hget⟩ := Result.bind_eq_ok.mp hget
  cases found with
  | none => cases hget
  | some p =>
    have hkey : s.items.key p = key := findFrom_key hfind
    dsimp only at hget
    split at hget
    · obtain ⟨s₂, -, hget⟩ := Result.bind_eq_ok.mp hget
      cases hget
    · cases hget
      exact hkey

theorem length_key (m : Items) (it : Ptr) : (m.key it).length = (m.nkey it).toNat := length_bytesAt ..

/-- The answer that `get_command` formats for an item. -/
def valueAnswer (m : Items) (it : Ptr) : List UInt8 :=
  bytes "VALUE " ++ m.key it ++ headerText (m.itemFlag it) (m.nbytes it) (m.cas it) ++
    bytesAt (m.data it) (m.realDataAddr it) (toSizeT (m.nbytes it)) ++ bytes "END" ++ crlf ++ [0]

/-- A byte that is no digit does not stand in a printed number. -/
theorem notMem_decimal {b : UInt8} (hb : b.toNat < 48) (n : ℕ) : b ∉ decimal n := fun h => by
  have := digit_of_mem_decimal h
  omega

theorem notMem_decimalInt {b : UInt8} (hb : b.toNat < 45) (z : ℤ) : b ∉ decimalInt z := by
  unfold decimalInt
  split
  · simp only [List.mem_cons, not_or]
    refine ⟨fun e => ?_, notMem_decimal (by omega) _⟩
    subst e
    simp at hb
  · exact notMem_decimal (by omega) _

/-- The header without its line feed. -/
def headerFields (itemFlag : UInt8) (nbytes : ℤ) (cas : UInt64) : List UInt8 :=
  32 :: decimal itemFlag.toNat ++ 32 :: decimalInt nbytes ++ 32 :: decimal cas.toNat

theorem headerText_eq (f : UInt8) (n : ℤ) (c : UInt64) : headerText f n c = headerFields f n c ++ [10] := rfl

theorem notMem_headerFields {b : UInt8} (hb : b.toNat < 32) (f : UInt8) (n : ℤ) (c : UInt64) :
    b ∉ headerFields f n c := by
  have hspace : b ≠ 32 := by rintro rfl; simp at hb
  simp [headerFields, hspace, notMem_decimal (b := b) (by omega), notMem_decimalInt (b := b) (by omega)]

/-- The header line of the answer without its line feed. -/
def headerLine (m : Items) (it : Ptr) : List UInt8 :=
  bytes "VALUE " ++ m.key it ++ headerFields (m.itemFlag it) (m.nbytes it) (m.cas it)

/-- The three writes of the header stand one behind the other. -/
theorem put_header (wbuf : List UInt8) (m : Items) (it : Ptr) :
    put (put (put wbuf 0 (bytes "VALUE ")) 6 (m.key it)) (6 + (m.nkey it).toNat)
      (headerText (m.itemFlag it) (m.nbytes it) (m.cas it) ++ [0]) =
        headerLine m it ++ 10 :: 0 :: wbuf.drop ((headerLine m it).length + 2) := by
  have hV : (bytes "VALUE ").length = 6 := by decide
  have hVK : (bytes "VALUE " ++ m.key it).length = 6 + (m.nkey it).toNat := by
    rw [List.length_append, hV, length_key]
  have hlen : (headerLine m it).length + 2 = 6 + ((m.key it).length +
      (headerText (m.itemFlag it) (m.nbytes it) (m.cas it) ++ [0]).length) := by
    simp only [headerLine, headerText_eq, List.length_append, List.length_cons, List.length_nil, hV]
    omega
  rw [put_front, ← hV, put_append, hV, ← hVK, put_append, hlen, headerText_eq, List.drop_drop,
    List.drop_drop]
  simp only [headerLine, List.append_assoc, List.cons_append, List.nil_append]

/-- The C string in the buffer ends behind the line feed of the header. -/
theorem idxOf?_header {m : Items} {it : Ptr} (hkey : ∀ b ∈ m.key it, b ≠ 0 ∧ b ≠ 10) (q : List UInt8) :
    (cstring (headerLine m it ++ 10 :: 0 :: q)).idxOf? 10 = some (headerLine m it).length := by
  have hV0 : 0 ∉ bytes "VALUE " ∧ 10 ∉ bytes "VALUE " := by decide
  have hK0 : 0 ∉ m.key it := fun hm => (hkey 0 hm).1 rfl
  have hK10 : 10 ∉ m.key it := fun hm => (hkey 10 hm).2 rfl
  have hP : 0 ∉ headerLine m it ++ [10] ∧ 10 ∉ headerLine m it := by
    simp [headerLine, hV0, hK0, hK10, notMem_headerFields]
  have hstr : cstring (headerLine m it ++ 10 :: 0 :: q) = headerLine m it ++ 10 :: [] := by
    have := cstring_append (q := q) hP.1
    simpa [List.append_assoc] using this
  rw [hstr, idxOf?_append_cons [] hP.2]

/-- The value and the closing line stand behind the header. -/
theorem put_value (m : Items) (it : Ptr) (q : List UInt8) :
    put (put (headerLine m it ++ 10 :: 0 :: q) ((headerLine m it).length + 1)
      (bytesAt (m.data it) (m.realDataAddr it) (toSizeT (m.nbytes it))))
      ((headerLine m it).length + 1 + toSizeT (m.nbytes it)) (bytes "END" ++ crlf ++ [0]) =
        valueAnswer m it ++ (0 :: q).drop (toSizeT (m.nbytes it) + 6) := by
  set value := bytesAt (m.data it) (m.realDataAddr it) (toSizeT (m.nbytes it)) with hvalue
  have hlen : value.length = toSizeT (m.nbytes it) := length_bytesAt ..
  have hP1 : (headerLine m it ++ [10]).length = (headerLine m it).length + 1 := by simp
  have hfront : put (headerLine m it ++ 10 :: 0 :: q) ((headerLine m it).length + 1) value =
      headerLine m it ++ [10] ++ value ++ (0 :: q).drop value.length := by
    have := put_append (headerLine m it ++ [10]) (0 :: q) value
    rwa [hP1, List.append_assoc (headerLine m it)] at this
  have hsecond : (headerLine m it).length + 1 + toSizeT (m.nbytes it) =
      (headerLine m it ++ [10] ++ value).length := by
    rw [List.length_append, hP1, hlen]
  have hend : (bytes "END" ++ crlf ++ [0]).length = 6 := by decide
  rw [hfront, hsecond, put_append, List.drop_drop, hend, hlen, valueAnswer, headerText_eq]
  simp only [headerLine, ← hvalue, List.append_assoc]

namespace World

/-- What `get_command` puts at the front of the write buffer. -/
theorem formatValue_spec {wbuf wbuf' : List UInt8} {m : Items} {it : Ptr}
    (hkey : ∀ b ∈ m.key it, b ≠ 0 ∧ b ≠ 10) (h : formatValue wbuf m it = .ok wbuf') :
    valueAnswer m it <+: wbuf' ∧ wbuf'.length = wbuf.length := by
  unfold formatValue at h
  obtain ⟨w₁, h₁, h⟩ := Result.bind_eq_ok.mp h
  obtain ⟨w₂, h₂, h⟩ := Result.bind_eq_ok.mp h
  obtain ⟨w₃, h₃, h⟩ := Result.bind_eq_ok.mp h
  obtain ⟨hroom₁, rfl⟩ := write_eq_ok.mp h₁
  obtain ⟨hroom₂, rfl⟩ := write_eq_ok.mp h₂
  obtain ⟨hroom₃, rfl⟩ := write_eq_ok.mp h₃
  have hlen := (length_put hroom₃).trans ((length_put hroom₂).trans (length_put hroom₁))
  rw [put_header] at h hlen
  rw [idxOf?_header hkey] at h
  obtain ⟨w₄, h₄, h⟩ := Result.bind_eq_ok.mp h
  obtain ⟨hroom₄, rfl⟩ := write_eq_ok.mp h₄
  obtain ⟨hroom₅, rfl⟩ := write_eq_ok.mp h
  refine ⟨⟨_, (put_value m it _).symm⟩, ?_⟩
  rw [length_put hroom₅, length_put hroom₄, hlen]

end World

/-- The answer that gives a client back what it stored: its key, its flags, its number of
bytes, the id, and then its data; either way of ending the first line will do. -/
def echo (key : List UInt8) (flags : ℕ) (data : List UInt8) (cas : ℕ) (lineEnd : List UInt8) :
    List UInt8 :=
  bytes "VALUE " ++ key ++ 32 :: decimal flags ++ 32 :: decimal data.length ++ 32 :: decimal cas ++
    lineEnd ++ data ++ crlf ++ bytes "END" ++ crlf

/-- The formatted answer is never an echo: a count without the CRLF would be followed by
`END` where the echo has the CRLF. -/
theorem echo_ne_valueAnswer {m : Items} {it : Ptr} {flags cas : ℕ} {data lineEnd x y : List UInt8}
    (hend : lineEnd = [10] ∨ lineEnd = crlf) (hdata : data.length < 2 ^ 31) :
    echo (m.key it) flags data cas lineEnd ++ x ≠ valueAnswer m it ++ y := by
  intro h
  simp only [echo, valueAnswer, headerText, List.append_assoc, List.cons_append, List.nil_append,
    List.append_cancel_left_eq] at h
  -- the fields stand between spaces
  obtain ⟨-, h⟩ := split_unique (notMem_decimal (by decide) _) (notMem_decimal (by decide) _)
    (List.cons.inj h).2
  obtain ⟨hcount, h⟩ := split_unique (notMem_decimal (by decide) _) (notMem_decimalInt (by decide) _) h
  have hbody : data ++ (crlf ++ (bytes "END" ++ (crlf ++ x))) =
      bytesAt (m.data it) (m.realDataAddr it) (toSizeT (m.nbytes it)) ++
        (bytes "END" ++ (crlf ++ 0 :: y)) := by
    rcases hend with rfl | rfl
    · exact (split_unique (notMem_decimal (by decide) _) (notMem_decimal (by decide) _) h).2
    · have h' : (decimal cas ++ [13]) ++ 10 :: (data ++ (crlf ++ (bytes "END" ++ (crlf ++ x)))) =
          decimal (m.cas it).toNat ++ 10 :: (bytesAt (m.data it) (m.realDataAddr it)
            (toSizeT (m.nbytes it)) ++ (bytes "END" ++ (crlf ++ 0 :: y))) := by
        simpa [crlf, List.append_assoc] using h
      have h13 : 10 ∉ decimal cas ++ [13] := by simp [notMem_decimal]
      have hcas := (split_unique h13 (notMem_decimal (by decide) _) h').1
      have hmem : (13 : UInt8) ∈ decimal (m.cas it).toNat := by rw [← hcas]; simp
      exact absurd hmem (notMem_decimal (by decide) _)
  -- the counts agree, so the data ends where the value does
  have hn : m.nbytes it = data.length := by
    unfold decimalInt at hcount
    split at hcount
    · have hmem : (45 : UInt8) ∈ decimal data.length := by rw [hcount]; simp
      exact absurd hmem (notMem_decimal (by decide) _)
    · have := decimal_injective hcount
      omega
  have hsize : (bytesAt (m.data it) (m.realDataAddr it) (toSizeT (m.nbytes it))).length = data.length := by
    rw [length_bytesAt, hn, toSizeT_of_bounds (by omega) (by omega), Int.toNat_natCast]
  have htail := (List.append_inj hbody hsize.symm).2
  simp [crlf, bytes] at htail

/-- A call of `drive_machine` with these results of the socket returns. -/
def Returns (w : World) (reads : List ReadResult) (writes : List WriteResult) (w' : World) : Prop :=
  ∃ n, World.driveMachine n { w with reads := w.reads ++ reads, writes := w.writes ++ writes } = .ok w'

/-- A `set` line without expiry for a block of `n` bytes. -/
def setLine (key : List UInt8) (flags n : ℕ) : List UInt8 :=
  bytes "set " ++ key ++ 32 :: decimal flags ++ bytes " 0 " ++ decimal n ++ crlf

/-- After the line and its block, each from one read, `get` builds the echo. -/
def RoundTrips (w : World) (key : List UInt8) (flags : ℕ) (data : List UInt8) : Prop :=
  ∃ w₁ w₂ w₃ writes, Returns w [.data (setLine key flags data.length)] [] w₁ ∧
    Returns w₁ [.data (data ++ crlf)] writes w₂ ∧ w₂.getCommand [bytes "get", key] = .ok w₃ ∧
    ∃ cas lineEnd, (lineEnd = [10] ∨ lineEnd = crlf) ∧ echo key flags data cas lineEnd <+: w₃.conn.wbuf

/-- The answer to a key that is not found does not look like a value. -/
theorem Conn.queue_ne_echo {c : Conn} {key data lineEnd : List UInt8} {flags cas : ℕ} :
    ¬echo key flags data cas lineEnd <+: (c.queue (c.outLine (bytes "END"))).wbuf := by
  rintro ⟨x, hx⟩
  have hqueue : (c.queue (c.outLine (bytes "END"))).wbuf =
      c.outLine (bytes "END") ++ crlf ++ c.wbuf.drop (c.outLine (bytes "END") ++ crlf).length :=
    put_front _ _
  have hhead := congrArg List.head? hx
  rw [hqueue] at hhead
  unfold Conn.outLine at hhead
  split at hhead <;> simp [echo, bytes] at hhead

/-- What was stored never comes back as it was sent. -/
theorem not_roundTrips (w : World) (key : List UInt8) (flags : ℕ) (data : List UInt8)
    (hkey : ∀ b ∈ key, b ≠ 0 ∧ isSeparator b = false) (hlen : key.length ≤ KEY_MAX_LENGTH)
    (hdata : data.length < 2 ^ 31) : ¬RoundTrips w key flags data := by
  rintro ⟨w₁, w₂, w₃, writes, -, -, hget, cas, lineEnd, hend, hecho⟩
  unfold World.getCommand at hget
  dsimp only at hget
  rw [show [bytes "get", key].getD 1 [] = key from rfl,
    if_neg (show ¬KEY_MAX_LENGTH < key.length by omega)] at hget
  obtain ⟨⟨s, o⟩, hitem, hget⟩ := Result.bind_eq_ok.mp hget
  cases o with
  | none =>
    obtain ⟨-, rfl⟩ := World.answer_eq_ok.mp hget
    exact Conn.queue_ne_echo hecho
  | some it =>
    obtain ⟨wg, -, hget⟩ := Result.bind_eq_ok.mp hget
    obtain ⟨wbuf, hfmt, hget⟩ := Result.bind_eq_ok.mp hget
    cases hget
    have hit : s.items.key it = key := Cache.itemGet_key hitem
    have hclean : ∀ b ∈ s.items.key it, b ≠ 0 ∧ b ≠ 10 := by
      intro b hb
      rw [hit] at hb
      refine ⟨(hkey b hb).1, ?_⟩
      rintro rfl
      exact absurd (hkey 10 hb).2 (by decide)
    obtain ⟨⟨y, hy⟩, -⟩ := World.formatValue_spec hclean hfmt
    obtain ⟨x, hx⟩ := hecho
    rw [← hit] at hx
    exact echo_ne_valueAnswer hend hdata (hx.trans hy.symm)

theorem not_roundTrips_short : ∃ s, Cache.init 1 Service.smallSettings (fun _ => true) 0 = some s ∧
    ¬RoundTrips (Serving.fresh s) [97] 0 [120] := by
  have htrial : (Cache.init 1 Service.smallSettings (fun _ => true) 0).any (fun _ => true) = true := by
    decide +kernel
  obtain ⟨s, hinit, -⟩ := Service.exists_init htrial
  have hkey : ∀ b ∈ ([97] : List UInt8), b ≠ 0 ∧ isSeparator b = false := by
    intro b hb
    obtain rfl := List.mem_singleton.mp hb
    decide
  exact ⟨s, hinit, not_roundTrips (Serving.fresh s) [97] 0 [120] hkey
    (by simp [KEY_MAX_LENGTH]) (by simp)⟩

/-- A call with a few turns. -/
def fewTurns (w : World) (reads : List ReadResult) (writes : List WriteResult) : Result World :=
  World.driveMachine 5 { w with reads := w.reads ++ reads, writes := w.writes ++ writes }

/-- `set a 0 0 1` with the block `x` on a fresh connection, and then `get a`. -/
def storeAndAsk (s : Cache) : Result (World × World × World) := do
  let w₁ ← fewTurns (Serving.fresh s) [.data (setLine [97] 0 1)] []
  let w₂ ← fewTurns w₁ [.data ([120] ++ crlf)] [.wrote 8]
  let w₃ ← w₂.getCommand [bytes "get", [97]]
  pure (w₁, w₂, w₃)

/-- The client stored one byte with the flags 0 and is told of three bytes with the flags 9. -/
theorem answer_differs : ∃ s w₁ w₂ w₃, Cache.init 1 Service.smallSettings (fun _ => true) 0 = some s ∧
    Returns (Serving.fresh s) [.data (setLine [97] 0 1)] [] w₁ ∧
    Returns w₁ [.data ([120] ++ crlf)] [.wrote 8] w₂ ∧ w₂.getCommand [bytes "get", [97]] = .ok w₃ ∧
    w₃.conn.wbuf.take 23 = bytes "VALUE a 9 3 1\nx\r\nEND\r\n" ++ [0] ∧
    ∀ cas lineEnd, ¬echo [97] 0 [120] cas lineEnd <+: w₃.conn.wbuf := by
  have htrial : (Cache.init 1 Service.smallSettings (fun _ => true) 0).any (fun s =>
      (storeAndAsk s).toOption.any fun w =>
        decide (w.2.2.conn.wbuf.take 23 = bytes "VALUE a 9 3 1\nx\r\nEND\r\n" ++ [0])) = true := by
    decide +kernel
  obtain ⟨s, hinit, hs⟩ := Service.exists_init htrial
  cases hask : storeAndAsk s with
  | error e => simp [hask, Except.toOption] at hs
  | ok w =>
    have hwbuf : w.2.2.conn.wbuf.take 23 = bytes "VALUE a 9 3 1\nx\r\nEND\r\n" ++ [0] := by
      simpa [hask, Except.toOption] using hs
    obtain ⟨w₁, h₁, hask⟩ := Result.bind_eq_ok.mp hask
    obtain ⟨w₂, h₂, hask⟩ := Result.bind_eq_ok.mp hask
    obtain ⟨w₃, h₃, hask⟩ := Result.bind_eq_ok.mp hask
    cases hask
    refine ⟨s, w₁, w₂, w₃, hinit, ⟨5, h₁⟩, ⟨5, h₂⟩, h₃, hwbuf, fun cas lineEnd hecho => ?_⟩
    -- the flags are the ninth byte of the answer
    have hnine : w₃.conn.wbuf[8]? = some 57 := by
      have := congrArg (·[8]?) hwbuf
      simpa [bytes] using this
    obtain ⟨x, hx⟩ := hecho
    have hzero := congrArg (·[8]?) hx
    rw [hnine] at hzero
    simp [echo, bytes, decimal] at hzero

end MiniMemcached
