import MiniMemcached.Cache.Item
import MiniMemcached.Lists.Chain

/-! The hash table: buckets of items chained through `h_next`. The loops of
`hash_find` and `hash_delete` take a bound on their length, and running past it
is the fault `endless`; a chain that reaches null in fewer steps never does. -/

namespace MiniMemcached

open MiniMemcached.Lists

/-- The bucket heads, with the global counter `hashitems`. -/
structure HashTable where
  primaryHashtable : ℕ → Option Ptr
  hashpower : ℕ
  hashitems : UInt32

namespace HashTable

def hashsize (n : ℕ) : ℕ := 1 <<< n

def hashmask (n : ℕ) : ℕ := hashsize n - 1

/-- One byte of the key enters the hash as a signed `char`. -/
def hashStep (hash : UInt32) (c : UInt8) : UInt32 :=
  let hash := hash + c.toInt8.toInt32.toUInt32
  let hash := hash + (hash <<< 10)
  hash ^^^ (hash >>> 6)

def hash (key : List UInt8) : UInt32 :=
  let hash := key.foldl hashStep 0
  let hash := hash + (hash <<< 3)
  let hash := hash ^^^ (hash >>> 11)
  hash + (hash <<< 15)

/-- The table the constructor builds: every bucket is null. -/
def init (hashtableInit : ℕ) : HashTable where
  primaryHashtable _ := none
  hashpower := hashtableInit
  hashitems := 0

/-- `hv & hashmask(hashpower)`. -/
def bucket (h : HashTable) (hv : UInt32) : ℕ := hv.toNat &&& hashmask h.hashpower

def setBucket (h : HashTable) (b : ℕ) (p : Option Ptr) : HashTable :=
  { h with primaryHashtable := Function.update h.primaryHashtable b p }

@[simp] theorem setBucket_primaryHashtable (h : HashTable) (b : ℕ) (p : Option Ptr) :
    (h.setBucket b p).primaryHashtable = Function.update h.primaryHashtable b p := rfl

@[simp] theorem setBucket_hashitems (h : HashTable) (b : ℕ) (p : Option Ptr) :
    (h.setBucket b p).hashitems = h.hashitems := rfl

theorem bucket_lt (h : HashTable) (hv : UInt32) : h.bucket hv < hashsize h.hashpower := by
  have hpos : 0 < hashsize h.hashpower := by
    rw [hashsize, Nat.one_shiftLeft]
    exact Nat.two_pow_pos _
  have hle : h.bucket hv ≤ hashmask h.hashpower := Nat.and_le_right
  unfold hashmask at hle
  omega

end HashTable

/-- The loop of `hash_find` from `it`. -/
def findFrom (m : Items) (key : List UInt8) : ℕ → Option Ptr → Result (Option Ptr)
  | _, none => .ok none
  | 0, some _ => .error .endless
  | n + 1, some it => if m.keyIs it key then .ok (some it) else findFrom m key n (m.hNext it)

def hashFind (bound : ℕ) (m : Items) (h : HashTable) (key : List UInt8) (hv : UInt32) :
    Result (Option Ptr) :=
  findFrom m key bound (h.primaryHashtable (h.bucket hv))

def hashInsert (m : Items) (h : HashTable) (it : Ptr) (hv : UInt32) : Items × HashTable :=
  (m.setHNext it (h.primaryHashtable (h.bucket hv)),
    { h.setBucket (h.bucket hv) (some it) with hashitems := h.hashitems + 1 })

/-- The loop of `hash_delete`: `pos` is the `h_next` field of the item `at_`. It
stops where `*pos` is null or carries the key. -/
def posFrom (m : Items) (key : List UInt8) : ℕ → Ptr → Result Ptr
  | 0, _ => .error .endless
  | n + 1, at_ =>
    match m.hNext at_ with
    | none => .ok at_
    | some it => if m.keyIs it key then .ok at_ else posFrom m key n it

/-- Only a head with another key starts the loop. A null head and a head that
carries the key both take the branch that clears the bucket. -/
def hashDelete (bound : ℕ) (m : Items) (h : HashTable) (key : List UInt8) (hv : UInt32) :
    Result (Items × HashTable) :=
  match h.primaryHashtable (h.bucket hv) with
  | none => .ok (m, h.setBucket (h.bucket hv) none)
  | some p =>
    if m.keyIs p key then .ok (m, h.setBucket (h.bucket hv) none)
    else do
      let at_ ← posFrom m key bound p
      match m.hNext at_ with
      | none => pure (m, h)
      | some it =>
        pure ((m.setHNext it none).setHNext at_ (m.hNext it),
          { h with hashitems := h.hashitems - 1 })

end MiniMemcached
