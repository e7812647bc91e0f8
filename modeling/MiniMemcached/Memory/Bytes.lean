import Mathlib.Data.Nat.Digits.Defs
import Mathlib.Data.List.Basic

/-! Byte strings and blocks of memory. A block is the list of its bytes; `put` writes
a string over a part of it, `slice` reads a part, `memchr` looks for a byte and says
whether the scan left the block, and `cstring` reads up to the first zero. Numbers
are printed in decimal. -/

namespace MiniMemcached.Memory

/-- The bytes of a text in ASCII. -/
def bytes (s : String) : List UInt8 := s.toList.map fun c => UInt8.ofNat c.toNat

/-- The `n` bytes at offset `off`. -/
def slice (b : List UInt8) (off n : ℕ) : List UInt8 := (b.drop off).take n

/-- The block with `bs` written at offset `off`, which has to leave its length alone. -/
def put (b : List UInt8) (off : ℕ) (bs : List UInt8) : List UInt8 :=
  b.take off ++ bs ++ b.drop (off + bs.length)

/-- A block of zeros. -/
def zeros (n : ℕ) : List UInt8 := List.replicate n 0

/-- What a scan of memory for a byte comes to. -/
inductive Scan
  | found (i : ℕ)
  | missing
  | outside
  deriving DecidableEq, Repr

/-- Look for `c` in the `n` bytes from offset `off`; the scan may leave the block. -/
def memchr (b : List UInt8) (off n : ℕ) (c : UInt8) : Scan :=
  match (slice b off n).idxOf? c with
  | some i => .found (off + i)
  | none => if off + n ≤ b.length then .missing else .outside

/-- The string that starts at the front of the block. -/
def cstring (b : List UInt8) : List UInt8 := b.takeWhile (· ≠ 0)

/-- `%u` and `%lu`. -/
def decimal (n : ℕ) : List UInt8 :=
  if n = 0 then [48] else (Nat.digits 10 n).reverse.map fun d => UInt8.ofNat (48 + d)

/-- `%d`. -/
def decimalInt (z : ℤ) : List UInt8 :=
  if z < 0 then 45 :: decimal z.natAbs else decimal z.natAbs

@[simp] theorem length_zeros (n : ℕ) : (zeros n).length = n := List.length_replicate

theorem length_put {b bs : List UInt8} {off : ℕ} (h : off + bs.length ≤ b.length) :
    (put b off bs).length = b.length := by
  simp only [put, List.length_append, List.length_take, List.length_drop]
  omega

theorem length_slice {b : List UInt8} {off n : ℕ} (h : off + n ≤ b.length) :
    (slice b off n).length = n := by
  simp only [slice, List.length_take, List.length_drop]
  omega

theorem memchr_found {b : List UInt8} {off n i : ℕ} {c : UInt8} (h : memchr b off n c = .found i) :
    off ≤ i ∧ i < off + n ∧ b[i]? = some c := by
  unfold memchr at h
  split at h
  · rename_i j hj
    cases h
    obtain ⟨hlt, hget⟩ : ∃ hlt : j < (slice b off n).length, (slice b off n)[j] = c := by
      obtain ⟨hlt, hp, -⟩ := List.findIdx?_eq_some_iff_getElem.mp hj
      exact ⟨hlt, by simpa using hp⟩
    simp only [slice, List.length_take, List.length_drop] at hlt
    simp only [slice, List.getElem_take, List.getElem_drop] at hget
    exact ⟨by omega, by omega, by rw [List.getElem?_eq_getElem (by omega), hget]⟩
  · split at h <;> cases h

/-- A byte in front of the part that is scanned does not matter. -/
theorem memchr_set {b : List UInt8} {i off : ℕ} (h : i < off) (x : UInt8) (n : ℕ) (c : UInt8) :
    memchr (b.set i x) off n c = memchr b off n c := by
  have hslice : slice (b.set i x) off n = slice b off n := by
    unfold slice
    rw [List.drop_set_of_lt h]
  unfold memchr
  rw [hslice, List.length_set]

/-- A scan of zeros finds nothing. -/
theorem memchr_zeros {m off n : ℕ} {c : UInt8} (hc : c ≠ 0) :
    memchr (zeros m) off n c = if off + n ≤ m then .missing else .outside := by
  have hnone : (slice (zeros m) off n).idxOf? c = none := by
    rw [List.idxOf?_eq_none_iff]
    intro hmem
    exact hc (List.eq_of_mem_replicate (List.mem_of_mem_drop (List.mem_of_mem_take hmem)))
  unfold memchr
  rw [hnone, length_zeros]

/-- A write right behind what stands at the front of the block. -/
theorem put_append (p q bs : List UInt8) : put (p ++ q) p.length bs = p ++ bs ++ q.drop bs.length := by
  simp [put, List.drop_append]

theorem put_front (q bs : List UInt8) : put q 0 bs = bs ++ q.drop bs.length := put_append [] q bs

/-- The string in front of a zero. -/
theorem cstring_append {p q : List UInt8} (h : 0 ∉ p) : cstring (p ++ 0 :: q) = p := by
  have hp : ∀ b ∈ p, decide (b ≠ 0) = true := fun b hb => decide_eq_true fun e => h (e ▸ hb)
  unfold cstring
  rw [List.takeWhile_append_of_pos hp]
  simp

theorem idxOf?_append_cons {c : UInt8} {p : List UInt8} (q : List UInt8) (h : c ∉ p) :
    (p ++ c :: q).idxOf? c = some p.length := by
  have hnone : p.idxOf? c = none := List.idxOf?_eq_none_iff.mpr h
  unfold List.idxOf? at hnone ⊢
  rw [List.findIdx?_append, hnone]
  simp [List.findIdx?_cons]

/-- What stands in front of the first separator, and what behind it. -/
theorem split_unique {s : UInt8} {a a' b b' : List UInt8} (ha : s ∉ a) (ha' : s ∉ a')
    (h : a ++ s :: b = a' ++ s :: b') : a = a' ∧ b = b' := by
  induction a generalizing a' with
  | nil =>
    cases a' with
    | nil => exact ⟨rfl, (List.cons.inj h).2⟩
    | cons x a' =>
      have hx := (List.cons.inj h).1
      exact absurd (hx ▸ List.mem_cons_self) ha'
  | cons x a ih =>
    cases a' with
    | nil =>
      have hx := (List.cons.inj h).1
      exact absurd (hx ▸ List.mem_cons_self) ha
    | cons y a' =>
      obtain ⟨rfl, htail⟩ := List.cons.inj h
      obtain ⟨rfl, rfl⟩ := ih (fun hm => ha (List.mem_cons_of_mem _ hm))
        (fun hm => ha' (List.mem_cons_of_mem _ hm)) htail
      exact ⟨rfl, rfl⟩

theorem digit_of_mem_decimal {n : ℕ} {b : UInt8} (h : b ∈ decimal n) : 48 ≤ b.toNat ∧ b.toNat < 58 := by
  unfold decimal at h
  split at h
  · rw [List.mem_singleton.mp h]
    decide
  · obtain ⟨d, hd, rfl⟩ := List.mem_map.mp h
    have hlt := Nat.digits_lt_base (by omega) (List.mem_reverse.mp hd)
    rw [UInt8.toNat_ofNat_of_lt' (by show 48 + d < 256; omega)]
    omega

/-- A number is read back from its digits. -/
theorem ofDigits_decimal (n : ℕ) :
    Nat.ofDigits 10 ((decimal n).reverse.map fun b => b.toNat - 48) = n := by
  unfold decimal
  split
  · rename_i h
    rw [h]
    decide
  · rw [← List.map_reverse, List.reverse_reverse, List.map_map]
    have hid : (Nat.digits 10 n).map ((fun b : UInt8 => b.toNat - 48) ∘ fun d => UInt8.ofNat (48 + d)) =
        Nat.digits 10 n := by
      refine (List.map_congr_left fun d hd => ?_).trans (List.map_id _)
      have hlt := Nat.digits_lt_base (by omega) hd
      rw [Function.comp_apply, UInt8.toNat_ofNat_of_lt' (by show 48 + d < 256; omega)]
      simp
    rw [hid, Nat.ofDigits_digits]

theorem decimal_injective {m n : ℕ} (h : decimal m = decimal n) : m = n := by
  rw [← ofDigits_decimal m, h, ofDigits_decimal]

end MiniMemcached.Memory
