import MiniMemcached.Protocol.Decoding
import MiniMemcached.Protocol.Numbers
import MiniMemcached.Protocol.Words

/-! The header of a value, read with the tokenizer and the number functions that the server
uses for commands. What `get` prints comes back: the key, the flags, the value, and the id
that a `cas` has to name. -/

namespace MiniMemcached

open Memory Runs

/-- What is read off the answer to a `get`: the key, the flags, the value and its id. -/
def readValue (text : List UInt8) : Option (List UInt8 × UInt32 × List UInt8 × UInt64) :=
  let header := text.takeWhile (· ≠ 10)
  let words := tokensOf header
  match safeStrtoul (words.getD 2 []), safeStrtol (words.getD 3 []), safeStrtoull (words.getD 4 []) with
  | some flags, some count, some id =>
    some (words.getD 1 [], flags, (text.drop (header.length + 1)).take count.toNat, id)
  | _, _, _ => none

/-- The `cas` that names what was read, with these flags, exptime and count. -/
def casWords (text flags exptime count : List UInt8) : List (List UInt8) :=
  let words := tokensOf (text.takeWhile (· ≠ 10))
  [bytes "cas", words.getD 1 [], flags, exptime, count, words.getD 4 []]

/-! ### Numbers -/

theorem numeral?_decimal (n : ℕ) : numeral? (decimal n) = some ⟨false, n, []⟩ := by
  have hdigits : ∀ b ∈ decimal n, isdigit b = true := by
    intro b hb
    obtain ⟨hge, hlt⟩ := digit_of_mem_decimal hb
    simp only [isdigit, decide_eq_true_eq, UInt8.le_iff_toNat_le]
    exact ⟨hge, Nat.le_of_lt_succ hlt⟩
  have hne : decimal n ≠ [] := List.length_pos_iff.mp (length_decimal_pos n)
  have hnumeral : numeral? ([] ++ ([] ++ decimal n)) =
    some ⟨decide (([] : List UInt8) = [45]), digitsNumber (decimal n), []⟩ :=
    numeral?_append nofun (by simp) hne hdigits
  have hvalue : digitsNumber (decimal n) = n := ofDigits_decimal n
  rw [hvalue] at hnumeral
  exact hnumeral

theorem safeUnsigned_decimal {bits n : ℕ} (hn : n < 2 ^ bits) (hbits : bits ≤ 64) :
    safeUnsigned bits (decimal n) = some n := by
  have hpow : 2 ^ bits ≤ 2 ^ 64 := Nat.pow_le_pow_right (by norm_num) hbits
  rw [safeUnsigned_eq (numeral?_decimal n) rfl]
  have hvalue : (⟨false, n, []⟩ : Numeral).value = n := rfl
  rw [hvalue, if_neg (by omega)]
  have hmod : ((n : ℤ) % 2 ^ 64).toNat = n := by omega
  rw [hmod, Nat.mod_eq_of_lt hn]

/-- The flags that were printed are read back. -/
theorem safeStrtoul_decimal (flag : UInt8) : safeStrtoul (decimal flag.toNat) = some flag.toUInt32 := by
  have hlt := flag.toNat_lt
  unfold safeStrtoul
  rw [safeUnsigned_decimal (by omega) (by omega), Option.map_some]
  congr 1
  apply UInt32.toNat_inj.mp
  rw [UInt32.toNat_ofNat_of_lt' (by show _ < 2 ^ 32; omega), UInt8.toNat_toUInt32]

/-- So is the count. -/
theorem safeStrtol_decimal {n : ℕ} (hn : n < 2 ^ 31) : safeStrtol (decimal n) = some (n : ℤ) := by
  unfold safeStrtol
  rw [numeral?_decimal]
  dsimp only
  rw [if_neg (by simp; omega), if_neg (by simp), Int.bmod_eq_of_le (by omega) (by omega)]

/-- And the id, whatever it is. -/
theorem safeStrtoull_decimal (id : UInt64) : safeStrtoull (decimal id.toNat) = some id := by
  have hlt := id.toNat_lt
  unfold safeStrtoull
  rw [safeUnsigned_decimal hlt (by omega), Option.map_some, UInt64.ofNat_toNat]

theorem casId_of_parseStoreLine {tokens : List (List UInt8)} {L : StoreLine} {id : UInt64}
    (h : parseStoreLine tokens true = some L) (hid : safeStrtoull (tokens.getD 5 []) = some id) :
    L.casId = id := by
  unfold parseStoreLine at h
  dsimp only at h
  rw [if_pos rfl, hid] at h
  split at h
  · rename_i hcas
    cases hcas
    split at h
    · rw [← Option.some.inj h]
    · cases h
  · cases h

/-! ### Words -/

/-- The first token of a line. -/
theorem tokensOf_cons {word rest : List UInt8} {b : UInt8} (hne : word ≠ [])
    (hword : ∀ c ∈ word, isSeparator c = false) (hb : isSeparator b = true) :
    tokensOf (word ++ b :: rest) = word :: tokensOf rest := by
  unfold tokensOf
  rw [List.splitOnP_append_cons_of_forall_mem hword b hb, List.filter_cons_of_pos (by simp [hne])]

theorem tokensOf_word {word : List UInt8} (hne : word ≠ []) (hword : ∀ c ∈ word, isSeparator c = false) :
    tokensOf word = [word] := by
  unfold tokensOf
  rw [List.splitOnP_eq_singleton hword, List.filter_singleton]
  simp [hne]

theorem decimal_clean (n : ℕ) : decimal n ≠ [] ∧ ∀ c ∈ decimal n, isSeparator c = false := by
  refine ⟨List.length_pos_iff.mp (length_decimal_pos n), fun c hc => ?_⟩
  obtain ⟨hge, hlt⟩ := digit_of_mem_decimal hc
  have hne : ∀ x : UInt8, x.toNat < 48 → c ≠ x := by
    rintro x hx rfl
    omega
  simp only [isSeparator, isspace, decide_eq_false_iff_not, decide_eq_true_eq, not_or, not_and]
  refine ⟨⟨hne 32 (by decide), fun _ hle => ?_⟩, hne 43 (by decide)⟩
  have hle := UInt8.le_iff_toNat_le.mp hle
  have h13 : (13 : UInt8).toNat = 13 := rfl
  omega

/-- A token of any line. -/
theorem token_clean {line token : List UInt8} (h : token ∈ tokensOf line) :
    token ≠ [] ∧ ∀ c ∈ token, isSeparator c = false := by
  obtain ⟨hmem, hne⟩ := List.mem_filter.mp h
  exact ⟨by simpa using hne, fun c hc => (of_mem_splitOnP hmem hc).2⟩

/-- The header of a value without its line feed. -/
def valueHeader (key : List UInt8) (flag : UInt8) (count : ℕ) (id : UInt64) : List UInt8 :=
  bytes "VALUE" ++ 32 ::
    (key ++ 32 :: (decimal flag.toNat ++ 32 :: (decimal count ++ 32 :: decimal id.toNat)))

theorem valueText_eq (key : List UInt8) (flag : UInt8) (value : List UInt8) (id : UInt64) :
    valueText key flag value id =
      valueHeader key flag value.length id ++ 10 :: (value ++ (bytes "END" ++ (crlf ++ [0]))) := by
  have hint : decimalInt value.length = decimal value.length := rfl
  have hword : bytes "VALUE " = bytes "VALUE" ++ [32] := by decide
  simp only [valueText, valueHeader, headerText, hint, hword, List.append_assoc, List.cons_append,
    List.nil_append]

section

variable {key : List UInt8} (hkey : key ≠ [] ∧ ∀ c ∈ key, isSeparator c = false)
include hkey

theorem tokensOf_valueHeader (flag : UInt8) (count : ℕ) (id : UInt64) :
    tokensOf (valueHeader key flag count id) =
      [bytes "VALUE", key, decimal flag.toNat, decimal count, decimal id.toNat] := by
  have hsep : isSeparator 32 = true := by decide
  have hvalue : bytes "VALUE" ≠ [] ∧ ∀ c ∈ bytes "VALUE", isSeparator c = false := by decide +kernel
  have hflag := decimal_clean flag.toNat
  have hcount := decimal_clean count
  have hid := decimal_clean id.toNat
  unfold valueHeader
  rw [tokensOf_cons hvalue.1 hvalue.2 hsep, tokensOf_cons hkey.1 hkey.2 hsep,
    tokensOf_cons hflag.1 hflag.2 hsep, tokensOf_cons hcount.1 hcount.2 hsep, tokensOf_word hid.1 hid.2]

theorem notMem_valueHeader (flag : UInt8) (count : ℕ) (id : UInt64) :
    (10 : UInt8) ∉ valueHeader key flag count id := by
  have hno : (10 : UInt8) ∉ key := fun h => absurd (hkey.2 10 h) (by decide)
  have hdec : ∀ n, (10 : UInt8) ∉ decimal n := notMem_decimal (by decide)
  have hword : (10 : UInt8) ∉ bytes "VALUE" := by decide
  simp [valueHeader, hno, hdec, hword]

/-- The header ends at the first line feed. -/
theorem takeWhile_header {flag : UInt8} {value rest : List UInt8} {id : UInt64} :
    (valueText key flag value id ++ rest).takeWhile (· ≠ 10) = valueHeader key flag value.length id := by
  have hno := notMem_valueHeader hkey flag value.length id
  rw [valueText_eq, List.append_assoc, List.takeWhile_append_of_pos]
  · simp
  · intro b hb
    simp only [decide_eq_true_eq]
    rintro rfl
    exact hno hb

/-- What was printed is read. -/
theorem readValue_valueText {flag : UInt8} {value rest : List UInt8} {id : UInt64}
    (hlen : value.length < 2 ^ 31) :
    readValue (valueText key flag value id ++ rest) = some (key, flag.toUInt32, value, id) := by
  unfold readValue
  simp only [takeWhile_header hkey, tokensOf_valueHeader hkey]
  rw [show [bytes "VALUE", key, decimal flag.toNat, decimal value.length, decimal id.toNat].getD 2 [] =
      decimal flag.toNat from rfl,
    show [bytes "VALUE", key, decimal flag.toNat, decimal value.length, decimal id.toNat].getD 3 [] =
      decimal value.length from rfl,
    show [bytes "VALUE", key, decimal flag.toNat, decimal value.length, decimal id.toNat].getD 4 [] =
      decimal id.toNat from rfl,
    safeStrtoul_decimal, safeStrtol_decimal hlen, safeStrtoull_decimal]
  have hdrop : (valueText key flag value id ++ rest).drop
    ((valueHeader key flag value.length id).length + 1) =
      value ++ (bytes "END" ++ (crlf ++ ([0] ++ rest))) := by
    rw [valueText_eq, List.append_assoc, List.drop_append]
    simp
  simp only [hdrop, Int.toNat_natCast, List.take_left]
  rfl

/-- A `cas` that is built from what was printed names the id. -/
theorem casWords_valueText {flag : UInt8} {value rest : List UInt8} {id : UInt64}
    {flags exptime count : List UInt8}
    {L : StoreLine}
    (h : parseStoreLine (casWords (valueText key flag value id ++ rest) flags exptime count) true = some L) :
    L.cmd = .cas ∧ L.key = key ∧ L.casId = id := by
  unfold casWords at h
  simp only [takeWhile_header hkey, tokensOf_valueHeader hkey] at h
  have hcas : nreadStatSet (bytes "cas") = .cas := by decide +kernel
  refine ⟨(cmd_of_parseStoreLine h).trans hcas, key_of_parseStoreLine h, ?_⟩
  exact casId_of_parseStoreLine h (safeStrtoull_decimal id)

end

/-! ### The answers of a run -/

/-- Where the answer to a request stands in what was sent. -/
theorem Conversation.answer {xs ys zs : List (Action × Answer)} {heard : List (List UInt8)} {out : List UInt8}
    {o : Option StoreLine} {a : Action} {r : Answer} (h : Conversation xs heard out o)
    (hxs : xs = ys ++ (a, r) :: zs) :
    ∃ o₁ o₂ pre chunk text post, Exchange o₁ a.req r chunk text o₂ ∧ out = pre ++ (text ++ post) := by
  induction h generalizing zs with
  | nil => simp at hxs
  | @aside xs heard out chunk text h haside ih =>
    obtain ⟨o₁, o₂, pre, chunk', text', post, hexch, rfl⟩ := ih hxs
    refine ⟨o₁, o₂, pre, chunk', text', post ++ text, hexch, ?_⟩
    simp only [List.append_assoc]
  | @request xs heard out chunk text o o' a' r' h hexch ih =>
    rcases List.eq_nil_or_concat zs with rfl | ⟨zs, z, rfl⟩
    · obtain ⟨-, hlast⟩ := List.append_inj' hxs rfl
      cases hlast
      exact ⟨o, o', out, chunk, text, [], hexch, by rw [List.append_nil]⟩
    · have hxs : xs ++ [(a', r')] = (ys ++ (a, r) :: zs) ++ [z] := by simpa using hxs
      obtain ⟨o₁, o₂, pre, chunk', text', post, hexch, rfl⟩ := ih (List.append_inj' hxs rfl).1
      refine ⟨o₁, o₂, pre, chunk', text', post ++ text, hexch, ?_⟩
      simp only [List.append_assoc]

namespace Server

variable {V : Server} {as : List Stir}

/-- In every run of the server whose clients wait for their turn, each value that a request
was answered with stands in the bytes of its connection once that is at rest, and reading
it there with the functions of the server gives the key, the flags, the value and the id;
a `cas` line with the printed id is parsed to that id. -/
theorem values_read {limit : ℕ} {set : Settings} {mallocOk : ℕ → Bool} {hashpower : ℕ} {s₀ : Cache}
    (hinit : Cache.init limit set mallocOk hashpower = some s₀) (w : ℕ → World) (hopened : ∀ i, (w i).Opened)
    (hpolite : EachStep step Polite (start s₀ w) as) (hrun : run step (start s₀ w) as = .ok V) :
    ∃ xs st, Path Service.Talk (Service.start s₀) xs st ∧ ∀ i ys zs a v flag id,
      xs.filter (·.1.conn = i) = ys ++ (a, .value v flag id) :: zs → V.Quiet i →
      ∃ k pre post, a.req = .get k ∧ (V.conn i).world.sent = pre ++ post ∧
        readValue post = some (k, flag.toUInt32, v, id) ∧ ∀ flags exptime count L,
          parseStoreLine (casWords post flags exptime count) true = some L →
            L.cmd = .cas ∧ L.key = k ∧ L.casId = id := by
  obtain ⟨xs, st, htalk, htracks⟩ := follows.run (tracks_start hinit hopened) hpolite hrun
  refine ⟨xs, st, htalk, fun i ys zs a v flag id hxs hquiet => ?_⟩
  obtain ⟨heard, out, o, htalks, -, -, -, hsent⟩ := (htracks.client i).serves
  obtain ⟨o₁, o₂, pre, chunk, text, post, hexch, hout⟩ := htalks.answer hxs
  have hall := (hsent hquiet.1).1.trans hout
  generalize hreq : a.req = req at hexch
  cases hexch with
  | @hit l k _ _ _ _ hl htext hlen =>
    have hmem : k ∈ tokensOf l := by
      rw [hl]
      simp
    have hkey := token_clean hmem
    have hshort : v.length < 2 ^ 31 := by
      have hle := htext.length_le
      rw [hlen, valueText_eq, List.length_append, List.length_cons, List.length_append] at hle
      have hbuf : WRITEBUF_LEN < 2 ^ 31 := by decide
      omega
    obtain ⟨rest, rfl⟩ := htext
    refine ⟨k, pre, _, rfl, hall, ?_⟩
    rw [List.append_assoc]
    exact ⟨readValue_valueText hkey hshort, fun flags exptime count L => casWords_valueText hkey⟩

theorem values_read_setThenAsk : ∃ s₀ V, Cache.init 1 Service.smallSettings (fun _ => true) 0 = some s₀ ∧
    run step (start s₀ fun _ => Serving.fresh s₀) setThenAsk = .ok V ∧ V.Quiet 1 ∧
    readValue (V.conn 1).world.sent = some ([97], 9, [120, 13, 10], 1) ∧
    ∃ xs st, Path Service.Talk (Service.start s₀) xs st ∧ ∀ ys zs a v flag id,
      xs.filter (·.1.conn = 1) = ys ++ (a, .value v flag id) :: zs →
      ∃ k pre post, a.req = .get k ∧ (V.conn 1).world.sent = pre ++ post ∧
        readValue post = some (k, flag.toUInt32, v, id) := by
  have htrial : (Cache.init 1 Service.smallSettings (fun _ => true) 0).any (fun s =>
      decide (EachStep step Polite (start s fun _ => Serving.fresh s) setThenAsk) &&
      (run step (start s fun _ => Serving.fresh s) setThenAsk).toOption.any fun V =>
        decide ((V.conn 1).world.conn.state = .connRead ∧ arrivals (V.conn 1).world.reads = [] ∧
          readValue (V.conn 1).world.sent = some ([97], 9, [120, 13, 10], 1))) = true := by
    decide +kernel
  obtain ⟨s₀, hinit, hs⟩ := Service.exists_init htrial
  obtain ⟨hpolite, hs⟩ := (Bool.and_eq_true_iff ..).mp hs
  obtain ⟨V, hV, hend⟩ := (Option.any_eq_true _ _).mp hs
  obtain ⟨hstate, hnone, hread⟩ := of_decide_eq_true hend
  have hrun := Result.eq_ok_of_toOption hV
  obtain ⟨xs, st, htalk, hvalues⟩ := values_read hinit (fun _ => Serving.fresh s₀)
    (fun _ => ⟨⟨false, false, false, _, 0, length_zeros _, rfl⟩, rfl, rfl⟩) (of_decide_eq_true hpolite) hrun
  refine ⟨s₀, V, hinit, hrun, ⟨.inl hstate, hnone⟩, hread, xs, st, htalk, fun ys zs a v flag id hxs => ?_⟩
  obtain ⟨k, pre, post, hreq, hsent, hread, -⟩ := hvalues 1 ys zs a v flag id hxs ⟨.inl hstate, hnone⟩
  exact ⟨k, pre, post, hreq, hsent, hread⟩

end Server

end MiniMemcached
