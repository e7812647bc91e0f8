import MiniMemcached.Protocol.Tool
import Mathlib.Data.List.TakeWhile
import Mathlib.Data.Nat.Digits.Defs
import Mathlib.Tactic.Ring

/-! Which numbers the `safe_` functions accept. A numeral is white space, a sign and
digits; its value is a mathematical integer. The conversions wrap a negative value
modulo `2 ^ 64` and the results are cut to the type of the output, so that each
function but `safe_strtoll` takes some values for others. -/

namespace MiniMemcached

/-- The number that decimal digits denote. -/
def digitsNumber (ds : List UInt8) : ℕ := Nat.ofDigits 10 (ds.reverse.map fun b => b.toNat - 48)

/-- `str` is a decimal numeral of the value `v`, with nothing behind it. -/
def IsNumeral (str : List UInt8) (v : ℤ) : Prop :=
  ∃ space sign digits, str = space ++ (sign ++ digits) ∧ (∀ b ∈ space, isspace b = true) ∧
    sign ∈ [[], [43], [45]] ∧ digits ≠ [] ∧ (∀ b ∈ digits, isdigit b = true) ∧
    v = if sign = [45] then -(digitsNumber digits : ℤ) else digitsNumber digits

theorem digitsNumber_cons (b : UInt8) (ds : List UInt8) :
    digitsNumber (b :: ds) = (b.toNat - 48) * 10 ^ ds.length + digitsNumber ds := by
  simp only [digitsNumber, List.reverse_cons, List.map_append, List.map_cons, List.map_nil,
    Nat.ofDigits_append, Nat.ofDigits_singleton, List.length_map, List.length_reverse]
  ring

/-- The loop of the conversion adds up the digits. -/
theorem digitsValue_eq (v : ℕ) (ds : List UInt8) :
    digitsValue v ds = v * 10 ^ ds.length + digitsNumber ds := by
  induction ds generalizing v with
  | nil =>
    show v = v * 10 ^ 0 + 0
    ring
  | cons b ds ih =>
    show digitsValue (10 * v + (b.toNat - 48)) ds = _
    rw [ih, digitsNumber_cons, List.length_cons, pow_succ]
    ring

theorem not_isspace_of_isdigit {b : UInt8} (h : isdigit b = true) : isspace b = false := by
  unfold isdigit at h
  unfold isspace
  simp only [decide_eq_true_eq, decide_eq_false_iff_not, UInt8.le_iff_toNat_le] at h ⊢
  have h48 : (48 : UInt8).toNat = 48 := rfl
  have h13 : (13 : UInt8).toNat = 13 := rfl
  rintro (rfl | hb)
  · have h32 : (32 : UInt8).toNat = 32 := rfl
    omega
  · omega

theorem isdigit_sign : isdigit 43 = false ∧ isdigit 45 = false ∧ isspace 43 = false ∧ isspace 45 = false := by
  decide

theorem dropWhile_append_of_head {p : UInt8 → Bool} {xs ys : List UInt8} (hxs : ∀ b ∈ xs, p b = true)
    (hys : ∀ b, ys.head? = some b → p b = false) : (xs ++ ys).dropWhile p = ys := by
  rw [List.dropWhile_append_of_pos hxs]
  cases ys with
  | nil => rfl
  | cons y ys => simp [hys y rfl]

/-- What the conversion reads of a numeral. -/
theorem numeral?_append {space sign digits : List UInt8} (hspace : ∀ b ∈ space, isspace b = true)
    (hsign : sign ∈ [[], [43], [45]]) (hne : digits ≠ [])
    (hdigits : ∀ b ∈ digits, isdigit b = true) :
    numeral? (space ++ (sign ++ digits)) = some ⟨decide (sign = [45]), digitsNumber digits, []⟩ := by
  have htake : digits.takeWhile isdigit = digits := List.takeWhile_eq_self_iff.mpr hdigits
  have hdrop : digits.dropWhile isdigit = [] := List.dropWhile_eq_nil_iff.mpr hdigits
  have hvalue : digitsValue 0 digits = digitsNumber digits := by rw [digitsValue_eq]; omega
  obtain ⟨d, ds, rfl⟩ := List.exists_cons_of_ne_nil hne
  have hd : isdigit d = true := hdigits d List.mem_cons_self
  have h43 : d ≠ 43 := by rintro rfl; exact absurd hd (by simp [isdigit_sign])
  have h45 : d ≠ 45 := by rintro rfl; exact absurd hd (by simp [isdigit_sign])
  have hrest : (space ++ (sign ++ d :: ds)).dropWhile isspace = sign ++ d :: ds := by
    refine dropWhile_append_of_head hspace fun b hb => ?_
    simp only [List.mem_cons, List.not_mem_nil, or_false] at hsign
    rcases hsign with rfl | rfl | rfl
    · cases hb
      exact not_isspace_of_isdigit hd
    · cases hb
      decide
    · cases hb
      decide
  unfold numeral?
  rw [hrest]
  simp only [List.mem_cons, List.not_mem_nil, or_false] at hsign
  rcases hsign with rfl | rfl | rfl
  · simp [h43, h45, htake, hdrop, hvalue]
  · simp [htake, hdrop, hvalue]
  · simp [htake, hdrop, hvalue]

/-- What the conversion reads to the end is a numeral. -/
theorem exists_of_numeral? {str : List UInt8} {n : Numeral} (h : numeral? str = some n)
    (hend : n.endptr = []) :
    ∃ space sign digits, str = space ++ (sign ++ digits) ∧ (∀ b ∈ space, isspace b = true) ∧
      sign ∈ [[], [43], [45]] ∧ digits ≠ [] ∧ (∀ b ∈ digits, isdigit b = true) := by
  have hsplit : str = str.takeWhile isspace ++ str.dropWhile isspace :=
    List.takeWhile_append_dropWhile.symm
  have hspace : ∀ b ∈ str.takeWhile isspace, isspace b = true := fun b hb => List.mem_takeWhile_imp hb
  set rest := str.dropWhile isspace with hrest
  have hbody : ∃ sign body, rest = sign ++ body ∧ sign ∈ [[], [43], [45]] ∧
      (if rest.head? = some 45 ∨ rest.head? = some 43 then rest.tail else rest) = body := by
    by_cases hs : rest.head? = some 45 ∨ rest.head? = some 43
    · rw [if_pos hs]
      rcases hs with hs | hs
      · exact ⟨[45], rest.tail, (List.cons_head?_tail hs).symm, by simp, rfl⟩
      · exact ⟨[43], rest.tail, (List.cons_head?_tail hs).symm, by simp, rfl⟩
    · rw [if_neg hs]
      exact ⟨[], rest, rfl, by simp, rfl⟩
  obtain ⟨sign, body, hcut, hsign, hif⟩ := hbody
  unfold numeral? at h
  simp only [← hrest, hif] at h
  split at h
  · cases h
  · rename_i hne
    cases h
    refine ⟨_, sign, body, ?_, hspace, hsign, fun e => hne (by rw [e]; rfl),
      List.dropWhile_eq_nil_iff.mp hend⟩
    rw [← hcut]
    exact hsplit

/-- The value of a numeral that was read. -/
def Numeral.value (n : Numeral) : ℤ := if n.negative then -n.magnitude else n.magnitude

/-- A string is a numeral just when the conversion reads it to its end. -/
theorem isNumeral_iff {str : List UInt8} {v : ℤ} :
    IsNumeral str v ↔ ∃ n, numeral? str = some n ∧ n.endptr = [] ∧ v = n.value := by
  constructor
  · rintro ⟨space, sign, digits, rfl, hspace, hsign, hne, hdigits, rfl⟩
    refine ⟨_, numeral?_append hspace hsign hne hdigits, rfl, ?_⟩
    simp [Numeral.value]
  · rintro ⟨n, hn, hend, rfl⟩
    obtain ⟨space, sign, digits, rfl, hspace, hsign, hne, hdigits⟩ := exists_of_numeral? hn hend
    rw [numeral?_append hspace hsign hne hdigits] at hn
    cases hn
    refine ⟨space, sign, digits, rfl, hspace, hsign, hne, hdigits, ?_⟩
    simp [Numeral.value]

/-- A numeral has a minus sign just when it was read as negative. -/
theorem negative_iff {str : List UInt8} {n : Numeral} (h : numeral? str = some n)
    (hend : n.endptr = []) : n.negative = true ↔ 45 ∈ str := by
  obtain ⟨space, sign, digits, rfl, hspace, hsign, hne, hdigits⟩ := exists_of_numeral? h hend
  rw [numeral?_append hspace hsign hne hdigits] at h
  cases h
  have hs : 45 ∉ space := fun hm => absurd (hspace 45 hm) (by simp [isdigit_sign])
  have hd : 45 ∉ digits := fun hm => absurd (hdigits 45 hm) (by simp [isdigit_sign])
  simp only [List.mem_cons, List.not_mem_nil, or_false] at hsign
  rcases hsign with rfl | rfl | rfl
  · simp [hs, hd]
  · simp [hs, hd]
  · simp

/-- The function accepts just the numerals whose value lies in the range, with that value. -/
def ParsesExactly (parsed : Option ℤ) (str : List UInt8) (lo hi : ℤ) : Prop :=
  ∀ v, parsed = some v ↔ IsNumeral str v ∧ lo ≤ v ∧ v < hi

theorem IsNumeral.unique {str : List UInt8} {v v' : ℤ} (h : IsNumeral str v) (h' : IsNumeral str v') :
    v = v' := by
  obtain ⟨n, hn, -, rfl⟩ := isNumeral_iff.mp h
  obtain ⟨n', hn', -, rfl⟩ := isNumeral_iff.mp h'
  rw [hn] at hn'
  cases hn'
  rfl

/-- On a numeral only one answer is right. -/
theorem parsesExactly_of_numeral {parsed : Option ℤ} {str : List UInt8} {v lo hi : ℤ}
    (h : IsNumeral str v) :
    ParsesExactly parsed str lo hi ↔ parsed = if lo ≤ v ∧ v < hi then some v else none := by
  have hiff : ∀ v', IsNumeral str v' ∧ lo ≤ v' ∧ v' < hi ↔ v' = v ∧ lo ≤ v ∧ v < hi := by
    intro v'
    constructor
    · rintro ⟨hv', hrange⟩
      obtain rfl := hv'.unique h
      exact ⟨rfl, hrange⟩
    · rintro ⟨rfl, hrange⟩
      exact ⟨h, hrange⟩
  unfold ParsesExactly
  simp only [hiff]
  constructor
  · intro hp
    split
    · rename_i hrange
      exact (hp v).mpr ⟨rfl, hrange⟩
    · rename_i hrange
      cases parsed with
      | none => rfl
      | some v' => exact absurd ((hp v').mp rfl).2 hrange
  · rintro rfl v'
    split <;> simp [eq_comm, *]

theorem parsesExactly_of_none {parsed : Option ℤ} {str : List UInt8} {lo hi : ℤ}
    (h : ∀ v, ¬IsNumeral str v) : ParsesExactly parsed str lo hi ↔ parsed = none := by
  unfold ParsesExactly
  simp only [h, false_and, iff_false]
  cases parsed with
  | none => simp
  | some v => simp

/-- What the unsigned functions make of a numeral: a value is wrapped, and refused only
where the wrapped value looks negative. -/
theorem safeUnsigned_eq {bits : ℕ} {str : List UInt8} {n : Numeral} (h : numeral? str = some n)
    (hend : n.endptr = []) :
    safeUnsigned bits str =
      if n.value ≤ -2 ^ 64 ∨ 2 ^ 64 ≤ n.value ∨ (-2 ^ 63 ≤ n.value ∧ n.value < 0) then none
      else some ((n.value % 2 ^ 64).toNat % 2 ^ bits) := by
  have hneg := negative_iff h hend
  unfold safeUnsigned
  simp only [h, hend, ne_eq, not_true_eq_false, or_false]
  by_cases hsign : n.negative = true
  · have hminus : 45 ∈ str := hneg.mp hsign
    have hv : n.value = -n.magnitude := by simp [Numeral.value, hsign]
    simp only [hv, hsign, hminus, if_true, and_true]
    split
    · rw [if_pos (by omega)]
    · split
      · rw [if_pos (by omega)]
      · rw [if_neg (by omega)]
        congr 2
        omega
  · have hplus : 45 ∉ str := fun hm => hsign (hneg.mpr hm)
    have hv : n.value = n.magnitude := by simp [Numeral.value, hsign]
    simp only [hv, hsign, hplus, Bool.false_eq_true, if_false, and_false]
    split
    · rw [if_pos (by omega)]
    · rw [if_neg (by omega)]
      congr 2
      omega

/-- A string that the conversion does not read to its end is no numeral. -/
theorem not_isNumeral {str : List UInt8} (h : ∀ n, numeral? str = some n → n.endptr ≠ []) (v : ℤ) :
    ¬IsNumeral str v := by
  intro hv
  obtain ⟨n, hn, hend, -⟩ := isNumeral_iff.mp hv
  exact h n hn hend

theorem safeUnsigned_of_not {bits : ℕ} {str : List UInt8}
    (h : ∀ n, numeral? str = some n → n.endptr ≠ []) : safeUnsigned bits str = none := by
  unfold safeUnsigned
  split
  · rfl
  · rename_i n hn
    rw [if_pos (.inr (h n hn))]

/-- The signed function of a 64-bit output is right on every string. -/
theorem safeStrtoll_exact (str : List UInt8) : ParsesExactly (safeStrtoll str) str (-2 ^ 63) (2 ^ 63) := by
  by_cases hnum : ∃ n, numeral? str = some n ∧ n.endptr = []
  · obtain ⟨n, hn, hend⟩ := hnum
    rw [parsesExactly_of_numeral (isNumeral_iff.mpr ⟨n, hn, hend, rfl⟩)]
    have hv : (if n.negative = true then -(n.magnitude : ℤ) else n.magnitude) = n.value := rfl
    unfold safeStrtoll
    simp only [hn, hend, hv, ne_eq, not_true_eq_false, or_false]
    split
    · rw [if_neg (by omega)]
    · rw [if_pos (by omega)]
  · have hnot : ∀ n, numeral? str = some n → n.endptr ≠ [] := fun n hn hend => hnum ⟨n, hn, hend⟩
    rw [parsesExactly_of_none (not_isNumeral hnot)]
    unfold safeStrtoll
    split
    · rfl
    · rename_i n hn
      simp only [hnot n hn, ne_eq, not_false_eq_true, or_true, if_true]

/-- `safe_strtol` is `safe_strtoll` cut to 32 bits. -/
theorem safeStrtol_eq (str : List UInt8) :
    safeStrtol str = (safeStrtoll str).map fun l => Int.bmod l (2 ^ 32) := by
  unfold safeStrtol safeStrtoll
  cases numeral? str with
  | none => rfl
  | some n =>
    dsimp only
    rw [apply_ite (Option.map _)]
    rfl

/-- The values that `safe_strtol` takes for others. -/
theorem safeStrtol_exact_iff (str : List UInt8) :
    ParsesExactly (safeStrtol str) str (-2 ^ 31) (2 ^ 31) ↔
      ∀ v, IsNumeral str v → ¬(-2 ^ 63 ≤ v ∧ v < -2 ^ 31) ∧ ¬(2 ^ 31 ≤ v ∧ v < 2 ^ 63) := by
  have hll := safeStrtoll_exact str
  rw [safeStrtol_eq]
  by_cases hnum : ∃ v, IsNumeral str v
  · obtain ⟨v, hv⟩ := hnum
    rw [parsesExactly_of_numeral hv] at hll ⊢
    rw [hll]
    have hall : (∀ v', IsNumeral str v' → ¬(-2 ^ 63 ≤ v' ∧ v' < -2 ^ 31) ∧ ¬(2 ^ 31 ≤ v' ∧ v' < 2 ^ 63)) ↔
        ¬(-2 ^ 63 ≤ v ∧ v < -2 ^ 31) ∧ ¬(2 ^ 31 ≤ v ∧ v < 2 ^ 63) :=
      ⟨fun h => h v hv, fun h v' hv' => hv'.unique hv ▸ h⟩
    rw [hall]
    by_cases h64 : -2 ^ 63 ≤ v ∧ v < 2 ^ 63
    · rw [if_pos h64, Option.map_some]
      by_cases h32 : -2 ^ 31 ≤ v ∧ v < 2 ^ 31
      · rw [if_pos h32, Int.bmod_eq_of_le (by omega) (by omega)]
        simp only [true_iff]
        omega
      · rw [if_neg h32]
        simp only [reduceCtorEq, false_iff]
        omega
    · rw [if_neg h64, Option.map_none, if_neg (by omega)]
      simp only [true_iff]
      omega
  · have hnot : ∀ v, ¬IsNumeral str v := fun v hv => hnum ⟨v, hv⟩
    rw [parsesExactly_of_none hnot] at hll ⊢
    rw [hll]
    simp [hnot]

/-- The values that the unsigned functions take for others. -/
theorem safeUnsigned_exact_iff {bits : ℕ} (hbits : bits ≤ 64) (str : List UInt8) :
    ParsesExactly ((safeUnsigned bits str).map fun n : ℕ => (n : ℤ)) str 0 (2 ^ bits) ↔
      ∀ v, IsNumeral str v → ¬(2 ^ bits ≤ v ∧ v < 2 ^ 64) ∧ ¬(-2 ^ 64 < v ∧ v < -2 ^ 63) := by
  have hpos : (0 : ℤ) < 2 ^ bits := by positivity
  have hpow : (2 : ℤ) ^ bits ≤ 2 ^ 64 := pow_le_pow_right₀ (by norm_num) hbits
  by_cases hnum : ∃ n, numeral? str = some n ∧ n.endptr = []
  · obtain ⟨n, hn, hend⟩ := hnum
    have hv : IsNumeral str n.value := isNumeral_iff.mpr ⟨n, hn, hend, rfl⟩
    rw [parsesExactly_of_numeral hv, safeUnsigned_eq hn hend]
    set v := n.value
    have hall : (∀ v', IsNumeral str v' → ¬(2 ^ bits ≤ v' ∧ v' < 2 ^ 64) ∧ ¬(-2 ^ 64 < v' ∧ v' < -2 ^ 63)) ↔
        ¬(2 ^ bits ≤ v ∧ v < 2 ^ 64) ∧ ¬(-2 ^ 64 < v ∧ v < -2 ^ 63) :=
      ⟨fun h => h v hv, fun h v' hv' => hv'.unique hv ▸ h⟩
    rw [hall]
    by_cases hno : v ≤ -2 ^ 64 ∨ 2 ^ 64 ≤ v ∨ (-2 ^ 63 ≤ v ∧ v < 0)
    · rw [if_pos hno, if_neg (by omega)]
      simp only [Option.map_none, true_iff]
      omega
    · rw [if_neg hno, Option.map_some]
      by_cases hin : 0 ≤ v ∧ v < 2 ^ bits
      · have hwrap : ((v % 2 ^ 64).toNat % 2 ^ bits : ℕ) = v.toNat := by
          rw [Int.emod_eq_of_lt hin.1 (by omega), Nat.mod_eq_of_lt]
          have : ((v.toNat : ℕ) : ℤ) < ((2 ^ bits : ℕ) : ℤ) := by push_cast; omega
          exact_mod_cast this
        rw [if_pos hin, hwrap, Int.toNat_of_nonneg hin.1]
        simp only [true_iff]
        omega
      · rw [if_neg hin]
        simp only [reduceCtorEq, false_iff]
        omega
  · have hnot : ∀ n, numeral? str = some n → n.endptr ≠ [] := fun n hn hend => hnum ⟨n, hn, hend⟩
    rw [parsesExactly_of_none (not_isNumeral hnot), safeUnsigned_of_not hnot]
    simp [not_isNumeral hnot]

theorem safeUnsigned_lt {bits n : ℕ} {str : List UInt8} (h : safeUnsigned bits str = some n) :
    n < 2 ^ bits := by
  unfold safeUnsigned at h
  split at h
  · cases h
  · rename_i m hm
    dsimp only at h
    split at h
    · cases h
    · generalize (if m.negative then (2 ^ 64 - m.magnitude) % 2 ^ 64 else m.magnitude) = l at h
      split at h
      · cases h
      · cases h
        exact Nat.mod_lt _ (by positivity)

theorem safeStrtoul_map (str : List UInt8) :
    (safeStrtoul str).map (fun n : UInt32 => (n.toNat : ℤ)) =
      (safeUnsigned 32 str).map fun n : ℕ => (n : ℤ) := by
  unfold safeStrtoul
  cases h : safeUnsigned 32 str with
  | none => rfl
  | some n => simp only [Option.map_some, UInt32.toNat_ofNat_of_lt' (safeUnsigned_lt h)]

theorem safeStrtoull_map (str : List UInt8) :
    (safeStrtoull str).map (fun n : UInt64 => (n.toNat : ℤ)) =
      (safeUnsigned 64 str).map fun n : ℕ => (n : ℤ) := by
  unfold safeStrtoull
  cases h : safeUnsigned 64 str with
  | none => rfl
  | some n => simp only [Option.map_some, UInt64.toNat_ofNat_of_lt' (safeUnsigned_lt h)]

/-- For every string: which of the four functions accept just the numerals in the range of
their output type, with their value. -/
theorem numbers_exact_iff (str : List UInt8) :
    (ParsesExactly ((safeStrtoul str).map fun n : UInt32 => (n.toNat : ℤ)) str 0 (2 ^ 32) ↔
      ∀ v, IsNumeral str v → ¬(2 ^ 32 ≤ v ∧ v < 2 ^ 64) ∧ ¬(-2 ^ 64 < v ∧ v < -2 ^ 63)) ∧
    (ParsesExactly (safeStrtol str) str (-2 ^ 31) (2 ^ 31) ↔
      ∀ v, IsNumeral str v → ¬(-2 ^ 63 ≤ v ∧ v < -2 ^ 31) ∧ ¬(2 ^ 31 ≤ v ∧ v < 2 ^ 63)) ∧
    (ParsesExactly ((safeStrtoull str).map fun n : UInt64 => (n.toNat : ℤ)) str 0 (2 ^ 64) ↔
      ∀ v, IsNumeral str v → ¬(-2 ^ 64 < v ∧ v < -2 ^ 63)) ∧
    ParsesExactly (safeStrtoll str) str (-2 ^ 63) (2 ^ 63) := by
  refine ⟨?_, safeStrtol_exact_iff str, ?_, safeStrtoll_exact str⟩
  · rw [safeStrtoul_map, safeUnsigned_exact_iff (by omega)]
  · rw [safeStrtoull_map, safeUnsigned_exact_iff (by omega)]
    exact forall_congr' fun v => imp_congr_right fun _ => and_iff_right (by omega)

/-- `2 ^ 32` is read as zero. -/
theorem not_exact_wide : ¬∀ str,
    ParsesExactly ((safeStrtoul str).map fun n : UInt32 => (n.toNat : ℤ)) str 0 (2 ^ 32) := by
  intro h
  have hzero : (safeStrtoul [52, 50, 57, 52, 57, 54, 55, 50, 57, 54]).map
      (fun n : UInt32 => (n.toNat : ℤ)) = some 0 := by decide +kernel
  obtain ⟨n, hn, -, hv⟩ := isNumeral_iff.mp ((h _ 0).mp hzero).1
  have hvalue : (numeral? [52, 50, 57, 52, 57, 54, 55, 50, 57, 54]).map Numeral.value =
      some 4294967296 := by decide +kernel
  rw [hn, Option.map_some, ← hv] at hvalue
  cases hvalue

end MiniMemcached
