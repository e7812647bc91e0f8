import Mathlib.Logic.Function.Basic
import Mathlib.Data.List.Basic
import Mathlib.Data.Int.Init
import Mathlib.Algebra.Ring.Nat
import Mathlib.Algebra.Ring.Int.Defs

/-! The items of the cache. An item lives in a chunk of a slab page; its address
is the page together with the byte offset of the chunk. The memory of all items
keeps one function for each field of `base_item`, so `it->refcount` reads
`m.refcount it`, and a write to one field is visibly no write to another. -/

namespace MiniMemcached

/-- The address of a chunk. Pages are numbered by the calls of `malloc`. -/
structure Ptr where
  page : ℕ
  off : ℕ
  deriving DecidableEq, Repr

/-- What can stop the code from returning. -/
inductive Fault
  | nullPointer
  | endless
  | outOfBounds
  | freed
  deriving DecidableEq, Repr

/-- The result of code that may fault. -/
abbrev Result := Except Fault

namespace Result

variable {α β : Type}

@[simp] theorem ok_bind (a : α) (f : α → Result β) : ((Except.ok a : Result α) >>= f) = f a := rfl

@[simp] theorem error_bind (e : Fault) (f : α → Result β) :
    ((Except.error e : Result α) >>= f) = .error e := rfl

theorem bind_eq_ok {x : Result α} {f : α → Result β} {b : β} :
    x >>= f = .ok b ↔ ∃ a, x = .ok a ∧ f a = .ok b := by
  cases x with
  | error e => simp
  | ok a => simp

theorem bind_eq_error {x : Result α} {f : α → Result β} {e : Fault} :
    x >>= f = .error e ↔ x = .error e ∨ ∃ a, x = .ok a ∧ f a = .error e := by
  cases x with
  | error e' => simp
  | ok a => simp

@[simp] theorem pure_eq (a : α) : (pure a : Result α) = .ok a := rfl

theorem eq_ok_of_toOption {x : Result α} {a : α} (h : x.toOption = some a) : x = .ok a := by
  cases x with
  | error e => cases h
  | ok b =>
    cases h
    rfl

end Result

/-- Conversion of a mathematical integer to `int`. -/
def toInt (x : ℤ) : ℤ := Int.bmod x (2 ^ 32)

/-- Conversion of a mathematical integer to `size_t`. -/
def toSizeT (x : ℤ) : ℕ := (x % 2 ^ 64).toNat

theorem toInt_of_bounds {x : ℤ} (h₁ : -2 ^ 31 ≤ x) (h₂ : x < 2 ^ 31) : toInt x = x := by
  unfold toInt
  rw [Int.bmod_eq_of_le] <;> omega

theorem toInt_lt (x : ℤ) : toInt x < 2 ^ 31 := by
  unfold toInt Int.bmod
  dsimp only
  split <;> omega

theorem toSizeT_of_bounds {x : ℤ} (h₁ : 0 ≤ x) (h₂ : x < 2 ^ 64) : toSizeT x = x.toNat := by
  rw [toSizeT, Int.emod_eq_of_lt h₁ h₂]

/-- `memcpy` of `bs` to offset `off` of a buffer. -/
def memcpy (d : ℕ → UInt8) (off : ℕ) (bs : List UInt8) : ℕ → UInt8 := fun i =>
  if off ≤ i ∧ i < off + bs.length then bs.getD (i - off) 0 else d i

/-- The `n` bytes at offset `off` of a buffer. -/
def bytesAt (d : ℕ → UInt8) (off n : ℕ) : List UInt8 := (List.range n).map fun i => d (off + i)

@[simp] theorem length_bytesAt (d : ℕ → UInt8) (off n : ℕ) : (bytesAt d off n).length = n := by
  simp [bytesAt]

theorem bytesAt_memcpy_self (d : ℕ → UInt8) (off : ℕ) (bs : List UInt8) :
    bytesAt (memcpy d off bs) off bs.length = bs := by
  apply List.ext_getElem
  · simp
  · intro i h₁ h₂
    simp [bytesAt, memcpy, h₂]

theorem bytesAt_memcpy_of_disjoint (d : ℕ → UInt8) {off off' n : ℕ} {bs : List UInt8}
    (h : off' + n ≤ off ∨ off + bs.length ≤ off') :
    bytesAt (memcpy d off bs) off' n = bytesAt d off' n := by
  apply List.map_congr_left
  intro i hi
  have hi := List.mem_range.mp hi
  unfold memcpy
  rw [if_neg (by omega)]

theorem bytesAt_add (d : ℕ → UInt8) (off m n : ℕ) :
    bytesAt d off (m + n) = bytesAt d off m ++ bytesAt d (off + m) n := by
  unfold bytesAt
  rw [List.range_add, List.map_append, List.map_map]
  congr 1
  apply List.map_congr_left
  intro i _
  rw [Function.comp_apply, Nat.add_assoc]

theorem take_bytesAt (d : ℕ → UInt8) (off : ℕ) {m n : ℕ} (h : m ≤ n) :
    (bytesAt d off n).take m = bytesAt d off m := by
  obtain ⟨k, rfl⟩ := Nat.exists_eq_add_of_le h
  rw [bytesAt_add, List.take_left' (length_bytesAt d off m)]

/-- Two copies, the second of which overlaps the end of the first. -/
theorem bytesAt_splice (d : ℕ → UInt8) (off : ℕ) (xs ys : List UInt8) {k : ℕ} (h : k ≤ xs.length) :
    bytesAt (memcpy (memcpy d off xs) (off + k) ys) off (k + ys.length) = xs.take k ++ ys := by
  rw [bytesAt_add, bytesAt_memcpy_self, bytesAt_memcpy_of_disjoint _ (.inl le_rfl),
    ← take_bytesAt _ _ h, bytesAt_memcpy_self]

/-- `sizeof(base_item)` with its padding. -/
def sizeofBaseItem : ℕ := 56

/-- The settings of the server that the cache reads. A page holds at least one
item header, and its length is an `int`. -/
structure Settings where
  chunkSize : ℕ := 48
  itemSizeMax : ℕ := 1024 * 1024
  evictToFree : Bool := true
  itemSizeMax_ge : sizeofBaseItem ≤ itemSizeMax := by decide
  itemSizeMax_lt : itemSizeMax < 2 ^ 31 := by decide

/-- Small pages: two chunks a page in the first class. -/
def Settings.twoChunks : Settings := { chunkSize := 48, itemSizeMax := 216 }

namespace Slab

def ITEM_LINKED : UInt8 := 1
def ITEM_CAS : UInt8 := 2
def ITEM_SLABBED : UInt8 := 4
def ITEM_FETCHED : UInt8 := 8
def POWER_SMALLEST : ℕ := 1
def POWER_LARGEST : ℕ := 200
def CHUNK_ALION_BYTES : ℕ := 8

end Slab

/-- These flags with those of an item that is linked and was fetched, which `get` prints. -/
def shownFlags (f : UInt8) : UInt8 := f ||| (Slab.ITEM_LINKED ||| Slab.ITEM_FETCHED)

/-- The fields of all items. -/
structure Items where
  next : Ptr → Option Ptr
  prev : Ptr → Option Ptr
  hNext : Ptr → Option Ptr
  cas : Ptr → UInt64
  realtime : Ptr → UInt32
  exptime : Ptr → UInt32
  nbytes : Ptr → ℤ
  refcount : Ptr → UInt32
  itemFlag : Ptr → UInt8
  slabsClsid : Ptr → UInt8
  nkey : Ptr → UInt8
  data : Ptr → ℕ → UInt8

namespace Items

/-- Memory that has never been written. -/
def zero : Items where
  next _ := none
  prev _ := none
  hNext _ := none
  cas _ := 0
  realtime _ := 0
  exptime _ := 0
  nbytes _ := 0
  refcount _ := 0
  itemFlag _ := 0
  slabsClsid _ := 0
  nkey _ := 0
  data _ _ := 0

def setNext (m : Items) (p : Ptr) (v : Option Ptr) : Items :=
  { m with next := Function.update m.next p v }

def setPrev (m : Items) (p : Ptr) (v : Option Ptr) : Items :=
  { m with prev := Function.update m.prev p v }

/-- `if (q) q->next = v`. -/
def setNextOf (m : Items) (q v : Option Ptr) : Items :=
  { m with next := fun p => if q = some p then v else m.next p }

/-- `if (q) q->prev = v`. -/
def setPrevOf (m : Items) (q v : Option Ptr) : Items :=
  { m with prev := fun p => if q = some p then v else m.prev p }

def setHNext (m : Items) (p : Ptr) (v : Option Ptr) : Items :=
  { m with hNext := Function.update m.hNext p v }

def setCas (m : Items) (p : Ptr) (v : UInt64) : Items :=
  { m with cas := Function.update m.cas p v }

def setRealtime (m : Items) (p : Ptr) (v : UInt32) : Items :=
  { m with realtime := Function.update m.realtime p v }

def setExptime (m : Items) (p : Ptr) (v : UInt32) : Items :=
  { m with exptime := Function.update m.exptime p v }

def setNbytes (m : Items) (p : Ptr) (v : ℤ) : Items :=
  { m with nbytes := Function.update m.nbytes p v }

def setRefcount (m : Items) (p : Ptr) (v : UInt32) : Items :=
  { m with refcount := Function.update m.refcount p v }

def setFlag (m : Items) (p : Ptr) (v : UInt8) : Items :=
  { m with itemFlag := Function.update m.itemFlag p v }

def setClsid (m : Items) (p : Ptr) (v : UInt8) : Items :=
  { m with slabsClsid := Function.update m.slabsClsid p v }

def setNkey (m : Items) (p : Ptr) (v : UInt8) : Items :=
  { m with nkey := Function.update m.nkey p v }

def setData (m : Items) (p : Ptr) (d : ℕ → UInt8) : Items :=
  { m with data := Function.update m.data p d }

/-- `memset` of a page to zero. -/
def clearPage (m : Items) (page : ℕ) : Items where
  next p := if p.page = page then none else m.next p
  prev p := if p.page = page then none else m.prev p
  hNext p := if p.page = page then none else m.hNext p
  cas p := if p.page = page then 0 else m.cas p
  realtime p := if p.page = page then 0 else m.realtime p
  exptime p := if p.page = page then 0 else m.exptime p
  nbytes p := if p.page = page then 0 else m.nbytes p
  refcount p := if p.page = page then 0 else m.refcount p
  itemFlag p := if p.page = page then 0 else m.itemFlag p
  slabsClsid p := if p.page = page then 0 else m.slabsClsid p
  nkey p := if p.page = page then 0 else m.nkey p
  data p := if p.page = page then fun _ => 0 else m.data p

/-- The key of an item: the `nkey` bytes at `data`. -/
def key (m : Items) (p : Ptr) : List UInt8 := bytesAt (m.data p) 0 (m.nkey p).toNat

/-- `real_data_addr`, as an offset of `data`. -/
def realDataAddr (m : Items) (p : Ptr) : ℕ := (m.nkey p).toNat + 1

/-- The value of an item: the `nbytes` bytes at `real_data_addr`. -/
def value (m : Items) (p : Ptr) : List UInt8 :=
  bytesAt (m.data p) (m.realDataAddr p) (m.nbytes p).toNat

/-- The flags with which `get` shows an item of the table. -/
def shown (m : Items) (p : Ptr) : UInt8 := shownFlags (m.itemFlag p)

/-- `base_item::item_total`, a `size_t`. -/
def itemTotal (m : Items) (p : Ptr) : ℕ :=
  toSizeT (sizeofBaseItem + (m.nkey p).toNat + 1 + m.nbytes p)

/-- `nkey == it->nkey && memcmp(key, it->data, nkey) == 0`. -/
def keyIs (m : Items) (p : Ptr) (k : List UInt8) : Bool :=
  k.length == (m.nkey p).toNat && bytesAt (m.data p) 0 k.length == k

theorem keyIs_iff (m : Items) (p : Ptr) (k : List UInt8) : m.keyIs p k = true ↔ m.key p = k := by
  simp only [keyIs, key, Bool.and_eq_true, beq_iff_eq]
  constructor
  · rintro ⟨hlen, hk⟩
    rw [← hlen, hk]
  · rintro rfl
    simp

theorem key_congr {m m' : Items} {p : Ptr} (hd : m'.data p = m.data p) (hn : m'.nkey p = m.nkey p) :
    m'.key p = m.key p := by
  simp only [key, hd, hn]

end Items

end MiniMemcached
