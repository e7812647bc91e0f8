import MiniMemcached.Cache.Lru

/-! Allocation of items and the storage commands: `do_item_alloc` with its scan of
the LRU tail, and `do_store_item`. -/

namespace MiniMemcached

/-- The `NREAD_` codes of a storage command. -/
inductive Nread
  | add
  | set
  | replace
  | append
  | prepend
  | cas
  | error
  deriving DecidableEq, Repr

/-- The result codes of `do_store_item`. -/
inductive StoreStat
  | NOT_STORED
  | STORED
  | EXISTS
  | NOT_FOUND
  deriving DecidableEq, Repr

/-- What the tail scan ends with: the item it took, whether the allocator was
tried, and the counter and cursor of the loop. -/
structure Scan where
  cache : Cache
  it : Option Ptr
  triedAlloc : Bool
  tries : ℕ
  search : Option Ptr

namespace Cache

def itemTrylockUnlock (s : Cache) (hv : UInt32) : Cache := s.hashUnlock hv

/-- The item taken from the tail gives its memory to the new item. -/
def takeOver (s : Cache) (it : Ptr) (hv : UInt32) (ntotal : ℕ) : Result Cache := do
  let s := s.slabsAdjustMemRequested (s.items.slabsClsid it).toNat (s.items.itemTotal it) ntotal
  let s ← s.doItemUnlinkNolock it hv
  pure { s with items := s.items.setClsid it 0 }

/-- The part of the scan behind the reference test: an expired item is taken, else
the allocator is tried, else an item is evicted. The assignment `it = search` of
the eviction stands under the test of `exptime`. -/
def scanTake (s : Cache) (search : Ptr) (hv : UInt32) (ntotal id tries : ℕ) : Result Scan := do
  let done (s : Cache) (it : Option Ptr) (tried : Bool) : Scan :=
    ⟨(s.fetchSub search).itemTrylockUnlock hv, it, tried, tries, some search⟩
  if s.items.exptime search ≠ 0 ∧ s.items.exptime search < s.clock then
    let s ← s.takeOver search hv ntotal
    pure (done s (some search) false)
  else match ← s.slabsAlloc ntotal id with
    | (s, some it) => pure (done s (some it) false)
    | (s, none) =>
      if ¬s.memSetting.evictToFree then pure (done s none true)
      else if s.items.exptime search ≠ 0 then
        let s ← s.takeOver search hv ntotal
        pure (done s (some search) true)
      else .error .nullPointer

/-- The scan from the tail of the LRU list of class `id`, with the loop counter
`tries` and the cursor `search`. -/
def tailScan (ntotal id : ℕ) : ℕ → ℕ → Option Ptr → Cache → Result Scan
  | _, 0, search, s => .ok ⟨s, none, false, 0, search⟩
  | _, tries + 1, none, s => .ok ⟨s, none, false, tries + 1, none⟩
  | 0, _ + 1, some _, _ => .error .endless
  | n + 1, tries + 1, some search, s =>
    let nextIt := s.items.prev search
    if s.items.nbytes search = 0 ∧ s.items.nkey search = 0 ∧ s.items.itemFlag search = 1 then
      tailScan ntotal id n (tries + 1) nextIt s
    else
      let hv := HashTable.hash (s.items.key search)
      match s.itemTrylock hv with
      | (s, false) => tailScan ntotal id n tries nextIt s
      | (s, true) =>
        if s.items.refcount search ≠ 2 then do
          let s := (s.fetchAdd search).fetchSub search
          let s ← if s.items.realtime search + LruList.TAIL_REPAIR_TIME < s.clock then
              ({ s with items := s.items.setRefcount search 1 } : Cache).doItemUnlinkNolock search hv
            else pure s
          tailScan ntotal id n tries nextIt (s.itemTrylockUnlock hv)
        else (s.fetchAdd search).scanTake search hv ntotal id (tries + 1)

/-- `do_item_alloc`; only the lengths of its arguments are read. -/
def doItemAlloc (s : Cache) (nkey : ℕ) (nbytes : ℤ) : Result (Cache × Option Ptr) := do
  let ntotal := toSizeT (toInt (sizeofBaseItem + nkey + 1 + nbytes))
  let id := s.slab.slabsClsid ntotal
  if id = 0 then pure (s, none)
  else
    let s := s.lock .cache
    let scan ← tailScan ntotal id (s.slab.chunkCount + 5) 5 (s.lru.tails id) s
    let r ← if ¬scan.triedAlloc ∧ (scan.tries = 0 ∨ scan.search = none) then
        scan.cache.slabsAlloc ntotal id
      else pure (scan.cache, scan.it)
    pure (r.1.unlock .cache, r.2)

/-- `item_alloc`. -/
def itemAlloc (s : Cache) (nkey : ℕ) (nbytes : ℤ) : Result (Cache × Option Ptr) :=
  s.doItemAlloc nkey nbytes

/-- The joined item of append and prepend, lines 727 to 746: the header fields, the
key, and the two values with two bytes of the first one written over. -/
def joinItem (s : Cache) (newIt it old : Ptr) (append : Bool) : Cache :=
  let m := s.items
  let m := (m.setNkey newIt (m.nkey old)).setFlag newIt 0
  let m := m.setExptime newIt (m.exptime old)
  let m := m.setNbytes newIt (toInt (m.nbytes it + m.nbytes old - 2))
  let d := memcpy (m.data newIt) 0 (bytesAt (m.data old) 0 (m.nkey old).toNat)
  let d := memcpy d (m.nkey old).toNat [48]
  let first := if append then old else it
  let second := if append then it else old
  let d := memcpy d (m.realDataAddr newIt) (m.value first)
  let d := memcpy d (m.realDataAddr newIt + (m.nbytes first - 2).toNat) (m.value second)
  { s with items := m.setData newIt d }

/-- `it->cas++`. -/
def incCas (s : Cache) (it : Ptr) : Cache :=
  { s with items := s.items.setCas it (s.items.cas it + 1) }

/-- The arms of `do_store_item` for a key that is not found. The arm of `cas` sets
`NOT_FOUND` and then reads through the null `old_it`. The third component is the
`cas` field the connection is left with. -/
def storeNew (s : Cache) (it : Ptr) (cmd : Nread) (hv : UInt32) :
    Result (Cache × StoreStat × Option UInt64) :=
  match cmd with
  | .replace | .append | .prepend => .ok (s, .NOT_STORED, none)
  | .cas => .error .nullPointer
  | .add | .set | .error =>
    let s := ((s.incCas it).doItemLink it hv).1
    .ok (s, .STORED, some (s.items.cas it))

/-- `it` replaces `old`, and the reference to `old` is given back. -/
def storeReplace (s : Cache) (it old : Ptr) (hv : UInt32) :
    Result (Cache × StoreStat × Option UInt64) := do
  let r ← s.doItemReplace old it hv
  let s := r.1.doItemRemove old
  pure (s, .STORED, some (s.items.cas it))

/-- Append and prepend on the item `old`. -/
def storeJoin (s : Cache) (it old : Ptr) (append : Bool) (hv : UInt32) :
    Result (Cache × StoreStat × Option UInt64) := do
  let nbytes := toInt (s.items.nbytes it + s.items.nbytes old - 2)
  if s.items.cas it ≠ s.items.cas old then pure (s.doItemRemove old, .EXISTS, none)
  else match ← s.doItemAlloc (s.items.nkey it).toNat nbytes with
    | (s, none) => pure (s.doItemRemove old, .NOT_STORED, none)
    | (s, some newIt) =>
      let s := (s.joinItem newIt it old append).incCas newIt
      let r ← s.doItemReplace old newIt hv
      let s := (r.1.doItemRemove old).doItemRemove newIt
      pure (s, .STORED, some (s.items.cas newIt))

/-- The arms of `do_store_item` for a key bound to the item `old`. -/
def storeOver (s : Cache) (it old : Ptr) (cmd : Nread) (hv : UInt32) :
    Result (Cache × StoreStat × Option UInt64) :=
  match cmd with
  | .add => .ok ((s.doItemUpdate old).doItemRemove old, .NOT_STORED, none)
  | .cas =>
    if s.items.cas it = s.items.cas old then s.storeReplace it old hv
    else .ok (s.doItemRemove old, .EXISTS, none)
  | .append => s.storeJoin it old true hv
  | .prepend => s.storeJoin it old false hv
  | .set | .replace | .error => (s.incCas it).storeReplace it old hv

def doStoreItem (s : Cache) (it : Ptr) (cmd : Nread) (hv : UInt32) :
    Result (Cache × StoreStat × Option UInt64) := do
  match ← s.doItemGet (s.items.key it) hv with
  | (s, none) => s.storeNew it cmd hv
  | (s, some old) => s.storeOver it old cmd hv

def storeItem (s : Cache) (it : Ptr) (cmd : Nread) : Result (Cache × StoreStat × Option UInt64) := do
  let hv := HashTable.hash (s.items.key it)
  let r ← (s.hashLock hv).doStoreItem it cmd hv
  pure (r.1.hashUnlock hv, r.2)

/-- `base_item::item_size_ok`, which sums in `size_t`. -/
def itemSizeOk (s : Cache) (nkey : ℕ) (nbytes : ℤ) : Bool :=
  s.slab.slabsClsid (toSizeT (sizeofBaseItem + nkey + 1 + nbytes)) ≠ 0

/-- The globals of a fresh server: the constructed slab and the empty table and
lists. `none` when a class gets no first page, which ends the process. -/
def init (limit : ℕ) (set : Settings) (mallocOk : ℕ → Bool) (hashpower : ℕ) : Option Cache :=
  (Slab.init limit set mallocOk).map fun r =>
    { items := r.1
      slab := r.2
      hashtable := HashTable.init hashpower
      lru := LruList.init
      casId := 0
      memSetting := set
      clock := 0
      itemLocks := fun _ => false
      trace := [] }

end Cache

end MiniMemcached
