import MiniMemcached.Memory.Bytes
import Mathlib.Data.Int.Init

/-! The numeric fields of a command. `strtoul` and its relatives skip white space, read
an optional sign and then decimal digits, and say where they stopped and whether the
value was out of range; the `safe_` functions accept a field that was read to its end.
The results are those of a 64-bit `long`. -/

namespace MiniMemcached

/-- `isspace` in the C locale. -/
def isspace (b : UInt8) : Bool := b = 32 ∨ (9 ≤ b ∧ b ≤ 13)

def isdigit (b : UInt8) : Bool := 48 ≤ b ∧ b ≤ 57

/-- The number that a string of digits continues. -/
def digitsValue (v : ℕ) : List UInt8 → ℕ
  | [] => v
  | b :: rest => digitsValue (10 * v + (b.toNat - 48)) rest

/-- A numeral at the front of a string: its sign, its magnitude, and what follows. -/
structure Numeral where
  negative : Bool
  magnitude : ℕ
  endptr : List UInt8

/-- The numeral that the conversion functions read, if there is one. -/
def numeral? (str : List UInt8) : Option Numeral :=
  let s := str.dropWhile isspace
  let negative := s.head? = some 45
  let s := if s.head? = some 45 ∨ s.head? = some 43 then s.tail else s
  if s.takeWhile isdigit = [] then none
  else some ⟨negative, digitsValue 0 (s.takeWhile isdigit), s.dropWhile isdigit⟩

/-- `safe_strtoul` and `safe_strtoull`, whose output type has `bits` bits. The
conversion works modulo `2 ^ 64`. -/
def safeUnsigned (bits : ℕ) (str : List UInt8) : Option ℕ :=
  match numeral? str with
  | none => none
  | some n =>
    if 2 ^ 64 ≤ n.magnitude ∨ n.endptr ≠ [] then none
    else
      let l := if n.negative then (2 ^ 64 - n.magnitude) % 2 ^ 64 else n.magnitude
      if 2 ^ 63 ≤ l ∧ 45 ∈ str then none else some (l % 2 ^ bits)

def safeStrtoul (str : List UInt8) : Option UInt32 := (safeUnsigned 32 str).map UInt32.ofNat

def safeStrtoull (str : List UInt8) : Option UInt64 := (safeUnsigned 64 str).map UInt64.ofNat

/-- `safe_strtol`: a `long` cut to its low 32 bits. -/
def safeStrtol (str : List UInt8) : Option ℤ :=
  match numeral? str with
  | none => none
  | some n =>
    let l : ℤ := if n.negative then -n.magnitude else n.magnitude
    if l < -2 ^ 63 ∨ 2 ^ 63 ≤ l ∨ n.endptr ≠ [] then none
    else some (Int.bmod l (2 ^ 32))

/-- `safe_strtoll`. -/
def safeStrtoll (str : List UInt8) : Option ℤ :=
  match numeral? str with
  | none => none
  | some n =>
    let ll : ℤ := if n.negative then -n.magnitude else n.magnitude
    if ll < -2 ^ 63 ∨ 2 ^ 63 ≤ ll ∨ n.endptr ≠ [] then none
    else some ll

end MiniMemcached
