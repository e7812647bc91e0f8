import MiniMemcached.Cache.HashTable
import MiniMemcached.Cache.Slab

/-! The state of the cache and the operations that link items and take them out:
the LRU lists, the removal of a reference, and `do_item_link`, `do_item_unlink`
and their variants. Beside the data of the program the state keeps a trace: the
lock events, the values that `atomic_fetch_sub` found, and the id that
`do_item_link` gave to each item it linked. -/

namespace MiniMemcached

/-- The mutexes of the cache. -/
inductive Lock
  | item (i : ℕ)
  | cache
  | slabs
  deriving DecidableEq

inductive Event
  | lock (l : Lock)
  | tryLock (l : Lock) (taken : Bool)
  | unlock (l : Lock)
  | fetchSub (it : Ptr) (old : UInt32)
  | link (it : Ptr) (casId : UInt64)
  deriving DecidableEq

/-- `LRU_list`, indexed by slab class. -/
structure LruList where
  heads : ℕ → Option Ptr
  tails : ℕ → Option Ptr
  sizes : ℕ → UInt32

namespace LruList

def TAIL_REPAIR_TIME : UInt32 := 3 * 3600
def ITEM_UPDATE_INTERVAL : UInt32 := 60

def init : LruList where
  heads _ := none
  tails _ := none
  sizes _ := 0

end LruList

def itemLinkQ (m : Items) (l : LruList) (it : Ptr) : Items × LruList :=
  let c := (m.slabsClsid it).toNat
  if Slab.POWER_LARGEST < c ∨ m.itemFlag it &&& Slab.ITEM_SLABBED ≠ 0 then (m, l)
  else if l.heads c = some it ∨ (l.heads c).isSome ≠ (l.tails c).isSome then (m, l)
  else
    let head := l.heads c
    let m := ((m.setPrev it none).setNext it head).setPrevOf head (some it)
    (m, { heads := Function.update l.heads c (some it)
          tails := if l.tails c = none then Function.update l.tails c (some it) else l.tails
          sizes := Function.update l.sizes c (l.sizes c + 1) })

/-- The head slot is moved only when the item has a predecessor, and the tail slot
only when it has a successor. -/
def itemUnlinkQ (m : Items) (l : LruList) (it : Ptr) : Items × LruList :=
  let c := (m.slabsClsid it).toNat
  if Slab.POWER_LARGEST < c ∨ m.itemFlag it &&& Slab.ITEM_SLABBED ≠ 0 then (m, l)
  else
    let heads := if l.heads c = some it ∧ m.prev it ≠ none then
      Function.update l.heads c (m.next it) else l.heads
    let tails := if l.tails c = some it ∧ m.next it ≠ none then
      Function.update l.tails c (m.prev it) else l.tails
    let m := m.setPrevOf (m.next it) (m.prev it)
    let m := m.setNextOf (m.prev it) (m.next it)
    (m, { heads := heads
          tails := tails
          sizes := Function.update l.sizes c (l.sizes c - 1) })

/-- The global variables of the cache. `casId` is the counter of `get_cas_id`,
`clock` what `current_time` returns, and `itemLocks` the item locks that are held. -/
structure Cache where
  items : Items
  slab : Slab
  hashtable : HashTable
  lru : LruList
  casId : UInt64
  memSetting : Settings
  clock : UInt32
  itemLocks : ℕ → Bool
  trace : List Event

namespace Cache

def emit (s : Cache) (e : Event) : Cache := { s with trace := e :: s.trace }

def lock (s : Cache) (l : Lock) : Cache := s.emit (.lock l)

def unlock (s : Cache) (l : Lock) : Cache := s.emit (.unlock l)

/-- The index of the item lock of a hash value; `item_lock_count` is the table size. -/
def lockIndex (s : Cache) (hv : UInt32) : ℕ :=
  s.hashtable.bucket hv % HashTable.hashsize s.hashtable.hashpower

def hashLock (s : Cache) (hv : UInt32) : Cache :=
  { s.lock (.item (s.lockIndex hv)) with
    itemLocks := Function.update s.itemLocks (s.lockIndex hv) true }

def hashUnlock (s : Cache) (hv : UInt32) : Cache :=
  { s.unlock (.item (s.lockIndex hv)) with
    itemLocks := Function.update s.itemLocks (s.lockIndex hv) false }

/-- `item_trylock`: does not wait, and tells whether the lock was free. -/
def itemTrylock (s : Cache) (hv : UInt32) : Cache × Bool :=
  let i := s.lockIndex hv
  if s.itemLocks i then (s.emit (.tryLock (.item i) false), false)
  else ({ s.emit (.tryLock (.item i) true) with
    itemLocks := Function.update s.itemLocks i true }, true)

def slabsAlloc (s : Cache) (size id : ℕ) : Result (Cache × Option Ptr) := do
  let s := s.lock .slabs
  let r ← doSlabsAlloc s.items s.slab size id
  pure (({ s with items := r.1, slab := r.2.1 } : Cache).unlock .slabs, r.2.2)

def slabsFree (s : Cache) (ptr : Ptr) (size id : ℕ) : Cache :=
  let s := s.lock .slabs
  let r := doSlabsFree s.items s.slab ptr size id
  ({ s with items := r.1, slab := r.2 } : Cache).unlock .slabs

def slabsAdjustMemRequested (s : Cache) (id old ntotal : ℕ) : Cache :=
  let s := s.lock .slabs
  ({ s with slab := s.slab.adjustMemRequested id old ntotal } : Cache).unlock .slabs

/-- `hashtable.hash_find`. -/
def hashFind (s : Cache) (key : List UInt8) (hv : UInt32) : Result (Option Ptr) :=
  MiniMemcached.hashFind s.slab.chunkCount s.items s.hashtable key hv

def hashInsert (s : Cache) (it : Ptr) (hv : UInt32) : Cache :=
  let r := MiniMemcached.hashInsert s.items s.hashtable it hv
  { s with items := r.1, hashtable := r.2 }

def hashDelete (s : Cache) (key : List UInt8) (hv : UInt32) : Result Cache := do
  let r ← MiniMemcached.hashDelete s.slab.chunkCount s.items s.hashtable key hv
  pure { s with items := r.1, hashtable := r.2 }

def itemLinkQ (s : Cache) (it : Ptr) : Cache :=
  let r := MiniMemcached.itemLinkQ s.items s.lru it
  { s with items := r.1, lru := r.2 }

def itemUnlinkQ (s : Cache) (it : Ptr) : Cache :=
  let r := MiniMemcached.itemUnlinkQ s.items s.lru it
  { s with items := r.1, lru := r.2 }

/-- `atomic_fetch_add(&it->refcount, 1)`. -/
def fetchAdd (s : Cache) (it : Ptr) : Cache :=
  { s with items := s.items.setRefcount it (s.items.refcount it + 1) }

/-- `atomic_fetch_sub(&it->refcount, 1)`. -/
def fetchSub (s : Cache) (it : Ptr) : Cache :=
  { s with items := s.items.setRefcount it (s.items.refcount it - 1) }.emit
    (.fetchSub it (s.items.refcount it))

def setFlag (s : Cache) (it : Ptr) (f : UInt8) : Cache :=
  { s with items := s.items.setFlag it f }

def itemFree (s : Cache) (it : Ptr) : Cache :=
  let ntotal := s.items.itemTotal it
  let clsid := (s.items.slabsClsid it).toNat
  if ¬(s.items.itemFlag it &&& Slab.ITEM_LINKED = 0 ∧ s.lru.heads clsid ≠ some it ∧
      s.lru.tails clsid ≠ some it ∧ s.items.refcount it = 0) then s
  else { s with items := s.items.setClsid it 0 }.slabsFree it ntotal clsid

/-- The item is freed when the counter that `atomic_fetch_sub` found was 0. -/
def doItemRemove (s : Cache) (it : Ptr) : Cache :=
  if s.items.itemFlag it &&& Slab.ITEM_SLABBED ≠ 0 then s
  else if s.items.refcount it = 0 then (s.fetchSub it).itemFree it
  else s.fetchSub it

/-- `do_item_unlink_nolock`, the body of `do_item_unlink`. -/
def doItemUnlinkNolock (s : Cache) (it : Ptr) (hv : UInt32) : Result Cache :=
  if s.items.itemFlag it &&& Slab.ITEM_LINKED ≠ 0 then do
    let s := s.setFlag it (s.items.itemFlag it &&& ~~~Slab.ITEM_LINKED)
    let s ← s.hashDelete (s.items.key it) hv
    pure ((s.itemUnlinkQ it).doItemRemove it)
  else .ok s

def doItemUnlink (s : Cache) (it : Ptr) (hv : UInt32) : Result Cache := do
  let s ← (s.lock .cache).doItemUnlinkNolock it hv
  pure (s.unlock .cache)

/-- The returned flag is the `int` of the source. -/
def doItemLink (s : Cache) (it : Ptr) (hv : UInt32) : Cache × Bool :=
  if s.items.itemFlag it &&& (Slab.ITEM_LINKED ||| Slab.ITEM_SLABBED) ≠ 0 then (s, false)
  else
    let s := s.lock .cache
    let s := s.setFlag it (s.items.itemFlag it ||| Slab.ITEM_LINKED)
    let s := { s with items := s.items.setRealtime it s.clock }
    let s := { s with casId := s.casId + 1, items := s.items.setCas it (s.casId + 1) }.emit
      (.link it (s.casId + 1))
    let s := (s.hashInsert it hv).itemLinkQ it
    ((s.fetchAdd it).unlock .cache, true)

def doItemUpdate (s : Cache) (it : Ptr) : Cache :=
  if s.items.realtime it < s.clock - LruList.ITEM_UPDATE_INTERVAL then
    if s.items.itemFlag it &&& Slab.ITEM_SLABBED ≠ 0 then s
    else
      let s := s.lock .cache
      let s := if s.items.itemFlag it &&& Slab.ITEM_LINKED ≠ 0 then
          let s := s.itemUnlinkQ it
          ({ s with items := s.items.setRealtime it s.clock } : Cache).itemLinkQ it
        else s
      s.unlock .cache
  else s

def doItemReplace (s : Cache) (it newIt : Ptr) (hv : UInt32) : Result (Cache × Bool) :=
  if s.items.itemFlag it &&& Slab.ITEM_SLABBED ≠ 0 then .ok (s, false)
  else do
    let s ← s.doItemUnlink it hv
    pure (s.doItemLink newIt hv)

/-- An item that has expired is taken out of the cache and not returned. -/
def doItemGet (s : Cache) (key : List UInt8) (hv : UInt32) : Result (Cache × Option Ptr) := do
  match ← s.hashFind key hv with
  | none => pure (s, none)
  | some it =>
    let s := s.fetchAdd it
    if s.items.exptime it ≠ 0 ∧ s.items.exptime it ≤ s.clock then
      let s ← s.doItemUnlink it hv
      pure (s.doItemRemove it, none)
    else pure (s.setFlag it (s.items.itemFlag it ||| Slab.ITEM_FETCHED), some it)

def doItemTouch (s : Cache) (key : List UInt8) (exptime hv : UInt32) :
    Result (Cache × Option Ptr) := do
  match ← s.doItemGet key hv with
  | (s, none) => pure (s, none)
  | (s, some it) => pure ({ s with items := s.items.setExptime it exptime }, some it)

def itemLink (s : Cache) (it : Ptr) : Cache × Bool :=
  let hv := HashTable.hash (s.items.key it)
  let r := (s.hashLock hv).doItemLink it hv
  (r.1.hashUnlock hv, r.2)

def itemUpdate (s : Cache) (it : Ptr) : Cache :=
  let hv := HashTable.hash (s.items.key it)
  ((s.hashLock hv).doItemUpdate it).hashUnlock hv

def itemUnlink (s : Cache) (it : Ptr) : Result Cache := do
  let hv := HashTable.hash (s.items.key it)
  let s ← (s.hashLock hv).doItemUnlink it hv
  pure (s.hashUnlock hv)

def itemRemove (s : Cache) (it : Ptr) : Cache :=
  let hv := HashTable.hash (s.items.key it)
  ((s.hashLock hv).doItemRemove it).hashUnlock hv

def itemGet (s : Cache) (key : List UInt8) : Result (Cache × Option Ptr) := do
  let hv := HashTable.hash key
  let r ← (s.hashLock hv).doItemGet key hv
  pure (r.1.hashUnlock hv, r.2)

def itemTouch (s : Cache) (key : List UInt8) (exptime : UInt32) : Result (Cache × Option Ptr) := do
  let hv := HashTable.hash key
  let r ← (s.hashLock hv).doItemTouch key exptime hv
  pure (r.1.hashUnlock hv, r.2)

end Cache

end MiniMemcached
