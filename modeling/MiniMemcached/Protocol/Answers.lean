import MiniMemcached.Protocol.RoundTrip

/-! The answer to `get`, from the formatter to the socket. `get_command` compares a
size of binary fields with `wbuf_len` and then prints numbers of any width; the writer
sends `wbuf_len` bytes, which the formatter does not set to the length of what it
formatted. -/

namespace MiniMemcached

open Memory Runs

/-- The answer of `get_command` without the zero behind it. -/
def getResponse (m : Items) (it : Ptr) : List UInt8 :=
  bytes "VALUE " ++ m.key it ++ headerText (m.itemFlag it) (m.nbytes it) (m.cas it) ++
    bytesAt (m.data it) (m.realDataAddr it) (toSizeT (m.nbytes it)) ++ bytes "END" ++ crlf

theorem valueAnswer_eq (m : Items) (it : Ptr) : valueAnswer m it = getResponse m it ++ [0] := rfl

/-- The digits that the header of an item takes. -/
def headerDigits (m : Items) (it : Ptr) : ℕ :=
  (decimal (m.itemFlag it).toNat).length + (decimalInt (m.nbytes it)).length +
    (decimal (m.cas it).toNat).length

theorem length_decimal_pos (n : ℕ) : 0 < (decimal n).length := by
  unfold decimal
  split
  · simp
  · rename_i h
    rw [List.length_map, List.length_reverse]
    exact List.length_pos_iff.mpr (Nat.digits_ne_nil_iff_ne_zero.mpr h)

theorem length_decimalInt_pos (z : ℤ) : 0 < (decimalInt z).length := by
  unfold decimalInt
  split
  · simp
  · exact length_decimal_pos _

theorem three_le_headerDigits (m : Items) (it : Ptr) : 3 ≤ headerDigits m it := by
  have hflag := length_decimal_pos (m.itemFlag it).toNat
  have hbytes := length_decimalInt_pos (m.nbytes it)
  have hcas := length_decimal_pos (m.cas it).toNat
  unfold headerDigits
  omega

theorem length_headerText (m : Items) (it : Ptr) :
    (headerText (m.itemFlag it) (m.nbytes it) (m.cas it)).length = 4 + headerDigits m it := by
  simp only [headerText, headerDigits, List.length_append, List.length_cons, List.length_nil]
  omega

theorem length_getResponse (m : Items) (it : Ptr) :
    (getResponse m it).length =
      15 + (m.nkey it).toNat + toSizeT (m.nbytes it) + headerDigits m it := by
  have hV : (bytes "VALUE ").length = 6 := by decide
  have hE : (bytes "END" ++ crlf).length = 5 := by decide
  rw [getResponse, List.append_assoc _ (bytes "END") crlf, List.length_append, hE, List.length_append,
    List.length_append, List.length_append, hV, length_key, length_headerText, length_bytesAt]
  omega

namespace World

theorem write_of_le {b bs : List UInt8} {off : ℕ} (h : off + bs.length ≤ b.length) :
    write b off bs = .ok (put b off bs) := if_pos h

/-- The formatter writes the answer to the front of a buffer that has room for it. -/
theorem formatValue_of_le {wbuf : List UInt8} {m : Items} {it : Ptr}
    (hkey : ∀ b ∈ m.key it, b ≠ 0 ∧ b ≠ 10) (h : (valueAnswer m it).length ≤ wbuf.length) :
    ∃ rest, formatValue wbuf m it = .ok (valueAnswer m it ++ rest) := by
  have hV : (bytes "VALUE ").length = 6 := by decide
  have hE : (bytes "END" ++ crlf ++ [0]).length = 6 := by decide
  have htotal : (valueAnswer m it).length =
      16 + (m.nkey it).toNat + toSizeT (m.nbytes it) + headerDigits m it := by
    rw [valueAnswer_eq, List.length_append, length_getResponse, List.length_singleton]
    omega
  have hH := length_headerText m it
  have hP : (headerLine m it).length = 9 + (m.nkey it).toNat + headerDigits m it := by
    rw [headerText_eq, List.length_append, List.length_singleton] at hH
    rw [headerLine, List.length_append, List.length_append, hV, length_key]
    omega
  have hvalue := length_bytesAt (m.data it) (m.realDataAddr it) (toSizeT (m.nbytes it))
  have hroom₁ : 0 + (bytes "VALUE ").length ≤ wbuf.length := by omega
  have hroom₂ : 6 + (m.key it).length ≤ (put wbuf 0 (bytes "VALUE ")).length := by
    rw [length_put hroom₁, length_key]
    omega
  have hroom₃ : 6 + (m.nkey it).toNat +
      (headerText (m.itemFlag it) (m.nbytes it) (m.cas it) ++ [0]).length ≤
        (put (put wbuf 0 (bytes "VALUE ")) 6 (m.key it)).length := by
    rw [length_put hroom₂, length_put hroom₁, List.length_append, hH, List.length_singleton]
    omega
  have hlen := (length_put hroom₃).trans ((length_put hroom₂).trans (length_put hroom₁))
  unfold formatValue
  rw [write_of_le hroom₁, Result.ok_bind, write_of_le hroom₂, Result.ok_bind, write_of_le hroom₃,
    Result.ok_bind]
  rw [put_header] at hlen ⊢
  rw [idxOf?_header hkey]
  have hroom₄ : (headerLine m it).length + 1 +
      (bytesAt (m.data it) (m.realDataAddr it) (toSizeT (m.nbytes it))).length ≤
        (headerLine m it ++ 10 :: 0 :: wbuf.drop ((headerLine m it).length + 2)).length := by
    rw [hlen, hvalue]
    omega
  dsimp only
  rw [write_of_le hroom₄, Result.ok_bind, write_of_le, put_value]
  · exact ⟨_, rfl⟩
  · rw [length_put hroom₄, hlen, hE]
    omega

theorem formatValue_ok_iff {wbuf : List UInt8} {m : Items} {it : Ptr}
    (hkey : ∀ b ∈ m.key it, b ≠ 0 ∧ b ≠ 10) :
    (∃ wbuf', formatValue wbuf m it = .ok wbuf') ↔ (valueAnswer m it).length ≤ wbuf.length := by
  constructor
  · rintro ⟨wbuf', h⟩
    obtain ⟨hpre, hlen⟩ := formatValue_spec hkey h
    have hle := hpre.length_le
    omega
  · intro h
    obtain ⟨rest, hfmt⟩ := formatValue_of_le hkey h
    exact ⟨_, hfmt⟩

/-- The size that `get_command` compares with `wbuf_len`. -/
def ntotalOf (m : Items) (it : Ptr) : ℤ := toInt (5 + (m.nkey it).toNat + 1 + 4 + 2 + m.nbytes it)

/-- The lookup found an item whose value the cache can store. -/
structure Found (w : World) (tokens : List (List UInt8)) (s : Cache) (it : Ptr) : Prop where
  key_le : (tokens.getD 1 []).length ≤ KEY_MAX_LENGTH
  key_clean : ∀ b ∈ tokens.getD 1 [], b ≠ 0 ∧ isSeparator b = false
  item : w.cache.itemGet (tokens.getD 1 []) = .ok (s, some it)
  nbytes_ge : 0 ≤ s.items.nbytes it
  nbytes_lt : sizeofBaseItem + (s.items.nkey it).toNat + 1 + s.items.nbytes it < 2 ^ 31

namespace Found

variable {w : World} {tokens : List (List UInt8)} {s : Cache} {it : Ptr}

theorem clean (h : Found w tokens s it) : ∀ b ∈ s.items.key it, b ≠ 0 ∧ b ≠ 10 := by
  intro b hb
  rw [Cache.itemGet_key h.item] at hb
  refine ⟨(h.key_clean b hb).1, ?_⟩
  rintro rfl
  exact absurd (h.key_clean 10 hb).2 (by decide)

theorem ntotal (h : Found w tokens s it) :
    ntotalOf s.items it = 12 + (s.items.nkey it).toNat + s.items.nbytes it := by
  have hlt := h.nbytes_lt
  have hge := h.nbytes_ge
  unfold sizeofBaseItem at hlt
  rw [ntotalOf, toInt_of_bounds (by omega) (by omega)]
  omega

theorem size (h : Found w tokens s it) : (toSizeT (s.items.nbytes it) : ℤ) = s.items.nbytes it := by
  have hlt := h.nbytes_lt
  have hge := h.nbytes_ge
  rw [toSizeT_of_bounds hge (by omega)]
  omega

/-- Whether the handler comes to its end is decided by the formatter. -/
theorem getCommand_ok_iff (h : Found w tokens s it) {w₁ : World}
    (hgrow : ({ w with cache := s } : World).growWbuf (ntotalOf s.items it) = .ok w₁) :
    (∃ w', w.getCommand tokens = .ok w') ↔ ∃ wbuf, formatValue w₁.conn.wbuf s.items it = .ok wbuf := by
  have hlong : ¬KEY_MAX_LENGTH < (tokens.getD 1 []).length := by
    have := h.key_le
    omega
  unfold ntotalOf at hgrow
  unfold getCommand
  simp only [hlong, if_false, h.item, Result.ok_bind, hgrow]
  constructor
  · rintro ⟨w', hw'⟩
    obtain ⟨wbuf, hfmt, -⟩ := Result.bind_eq_ok.mp hw'
    exact ⟨wbuf, hfmt⟩
  · rintro ⟨wbuf, hfmt⟩
    exact ⟨_, Result.bind_eq_ok.mpr ⟨wbuf, hfmt, rfl⟩⟩

end Found

/-- For every item and every buffer: `get_command` writes inside its buffer just when the
buffer did not have to grow and has room for the answer and a zero. -/
theorem getCommand_inside_iff {w w₁ : World} {tokens : List (List UInt8)} {s : Cache} {it : Ptr}
    (h : Found w tokens s it)
    (hgrow : ({ w with cache := s } : World).growWbuf (ntotalOf s.items it) = .ok w₁) :
    (∃ w', w.getCommand tokens = .ok w') ↔
      12 + (s.items.nkey it).toNat + s.items.nbytes it ≤ w.conn.wbufLen ∧
        16 + (s.items.nkey it).toNat + s.items.nbytes it + headerDigits s.items it ≤ w.conn.wbuf.length := by
  have hsize := h.size
  have hdigits := three_le_headerDigits s.items it
  rw [h.getCommand_ok_iff hgrow, formatValue_ok_iff h.clean, valueAnswer_eq, List.length_append,
    length_getResponse, List.length_singleton]
  rw [h.ntotal] at hgrow
  unfold growWbuf at hgrow
  split at hgrow
  · rename_i hlt
    have hlt : w.conn.wbufLen < 12 + (s.items.nkey it).toNat + s.items.nbytes it := hlt
    split at hgrow
    · rename_i heap wbuf hnew
      cases hgrow
      -- the new buffer has the size of the binary fields, which is too short
      have hlen : wbuf.length = (12 + (s.items.nkey it).toNat + s.items.nbytes it).toNat := by
        simp only [Heap.new, Prod.mk.injEq] at hnew
        obtain ⟨-, hb⟩ := hnew
        split at hb
        · cases hb
          simp
        · cases hb
      simp only [hlen]
      omega
    · cases hgrow
  · rename_i hle
    have hle : ¬w.conn.wbufLen < 12 + (s.items.nkey it).toNat + s.items.nbytes it := hle
    cases hgrow
    simp only
    omega

end World

/-- Settings under which a page holds a value of two thousand bytes. -/
def pageSettings : Settings := { chunkSize := 48, itemSizeMax := 2400 }

/-- A `set` of the key `a` with a value of `n` bytes and its CRLF. -/
def setOf (n : ℕ) (hn : n < 2 ^ 30) : StoreLine where
  cmd := .set
  key := [97]
  flags := 0
  exptime := 0
  vlen := n + 2
  casId := 0
  key_ne := List.cons_ne_nil _ _
  key_le := by simp [KEY_MAX_LENGTH]
  vlen_ge := by omega
  vlen_lt := by omega

/-- The cache after the line and its block. -/
def storeLetters (s : Cache) (n : ℕ) (hn : n < 2 ^ 30) : Result Cache := do
  match ← s.allocLine (setOf n hn) with
  | (_, none) => .error .nullPointer
  | (s, some it) =>
    let r ← s.commandBlock it .set (List.replicate n 120 ++ crlf)
    pure r.1

/-- A fresh connection of a server that holds such a value. -/
def holding (n : ℕ) (hn : n < 2 ^ 30) : Option World :=
  (Cache.init 1 pageSettings (fun _ => true) 0).bind fun s =>
    (storeLetters s n hn).toOption.map Serving.fresh

/-- The tokens of `get a`. -/
def getTokens : List (List UInt8) := [bytes "get", [97]]

/-- What the lookup of `get a` finds, and the connection behind the growth of its buffer. -/
def foundAt (w : World) : Option (Cache × Ptr × World) :=
  match w.cache.itemGet [97] with
  | .ok (s, some it) =>
    (({ w with cache := s } : World).growWbuf (World.ntotalOf s.items it)).toOption.map fun w₁ => (s, it, w₁)
  | _ => none

/-- The test of a value that can be stored. -/
def storable (m : Items) (it : Ptr) : Bool :=
  decide (0 ≤ m.nbytes it ∧ (sizeofBaseItem : ℤ) + (m.nkey it).toNat + 1 + m.nbytes it < 2 ^ 31)

theorem exists_of_foundAt {w : World} {p : Cache × Ptr × World → Bool}
    (h : (foundAt w).any (fun r => p r && storable r.1.items r.2.1) = true) :
    ∃ s it w₁, World.Found w getTokens s it ∧
      ({ w with cache := s } : World).growWbuf (World.ntotalOf s.items it) = .ok w₁ ∧
      p (s, it, w₁) = true := by
  unfold foundAt at h
  split at h
  · rename_i s it hitem
    cases hgrow : ({ w with cache := s } : World).growWbuf (World.ntotalOf s.items it) with
    | error e => simp [hgrow, Except.toOption] at h
    | ok w₁ =>
      simp only [hgrow, Except.toOption, Option.map_some, Option.any_some, Bool.and_eq_true, storable,
        decide_eq_true_eq] at h
      obtain ⟨hp, hge, hlt⟩ := h
      have hclean : ∀ b ∈ getTokens.getD 1 [], b ≠ 0 ∧ isSeparator b = false := by
        intro b hb
        obtain rfl := List.mem_singleton.mp hb
        decide
      exact ⟨s, it, w₁, ⟨by decide, hclean, hitem, hge, hlt⟩, hgrow, hp⟩
  · cases h

theorem exists_holding {n : ℕ} {hn : n < 2 ^ 30} {p : World → Bool}
    (h : (holding n hn).any p = true) : ∃ w, holding n hn = some w ∧ p w = true := by
  cases hw : holding n hn with
  | none => rw [hw] at h; cases h
  | some w => exact ⟨w, rfl, by simpa [hw] using h⟩

theorem getCommand_inside_short : ∃ w s it w₁, holding 1 (by decide) = some w ∧
    World.Found w getTokens s it ∧
    ({ w with cache := s } : World).growWbuf (World.ntotalOf s.items it) = .ok w₁ ∧
    ((∃ w', w.getCommand getTokens = .ok w') ↔
      12 + (s.items.nkey it).toNat + s.items.nbytes it ≤ w.conn.wbufLen ∧
        16 + (s.items.nkey it).toNat + s.items.nbytes it + headerDigits s.items it ≤
          w.conn.wbuf.length) := by
  have htrial : (holding 1 (by decide)).any (fun w => (foundAt w).any (fun r =>
      true && storable r.1.items r.2.1)) = true := by decide +kernel
  obtain ⟨w, hw, hp⟩ := exists_holding htrial
  obtain ⟨s, it, w₁, hfound, hgrow, -⟩ := exists_of_foundAt (p := fun _ => true) hp
  exact ⟨w, s, it, w₁, hw, hfound, hgrow, World.getCommand_inside_iff hfound hgrow⟩

/-- The answer with a value of 2024 bytes has the size of the buffer by the count of
`get_command`, and does not fit into it. -/
theorem getCommand_outside : ∃ w s it w₁, holding 2024 (by decide) = some w ∧
    World.Found w getTokens s it ∧
    ({ w with cache := s } : World).growWbuf (World.ntotalOf s.items it) = .ok w₁ ∧
    ¬∃ w', w.getCommand getTokens = .ok w' := by
  have htrial : (holding 2024 (by decide)).any (fun w => (foundAt w).any (fun r =>
      decide (r.2.2.conn.wbuf.length < (valueAnswer r.1.items r.2.1).length) &&
      storable r.1.items r.2.1)) = true := by decide +kernel
  obtain ⟨w, hw, hp⟩ := exists_holding htrial
  obtain ⟨s, it, w₁, hfound, hgrow, hlt⟩ := exists_of_foundAt
    (p := fun r => decide (r.2.2.conn.wbuf.length < (valueAnswer r.1.items r.2.1).length)) hp
  refine ⟨w, s, it, w₁, hw, hfound, hgrow, ?_⟩
  rw [hfound.getCommand_ok_iff hgrow, World.formatValue_ok_iff hfound.clean]
  have hlt : w₁.conn.wbuf.length < (valueAnswer s.items it).length := of_decide_eq_true hlt
  omega

end MiniMemcached
