import MiniMemcached.Cache.Item

/-! The slab allocator. A class keeps its free chunks in a doubly linked list
that starts at `slots`; a page is taken from `malloc`, cleared, and freed chunk
by chunk into that list. `malloc` and `realloc` may fail at any call: the
answers are a function of the number of the call. -/

namespace MiniMemcached

/-- A slab class. `slabList` holds the pages of the class in the order they were
stored; nothing reads them back, so that they stay here when the memory of the list is
`listLost`. -/
structure SlabClass where
  size : ℕ
  perslab : ℕ
  slots : Option Ptr
  slCurr : UInt32
  slabs : UInt32
  slabList : List ℕ
  listSize : UInt32
  listLost : Bool
  requested : UInt64

/-- `slabclass::slabclass`. -/
def SlabClass.empty : SlabClass where
  size := 0
  perslab := 0
  slots := none
  slCurr := 0
  slabs := 0
  slabList := []
  listSize := 0
  listLost := false
  requested := 0

/-- The size that `grow_slab_list` asks for, which wraps around to 0. -/
def SlabClass.grownSize (p : SlabClass) : UInt32 := if p.listSize ≠ 0 then p.listSize * 2 else 16

structure Slab where
  powerLargest : ℕ
  memBase : List SlabClass
  memLimit : ℕ
  memMalloced : ℕ
  mallocOk : ℕ → Bool
  mallocCalls : ℕ

namespace Slab

/-- `mem_base[id]`. -/
def cls (b : Slab) (id : ℕ) : SlabClass := b.memBase.getD id .empty

def setCls (b : Slab) (id : ℕ) (p : SlabClass) : Slab := { b with memBase := b.memBase.set id p }

/-- The number of chunks carved so far, a bound on every list of chunks. -/
def chunkCount (b : Slab) : ℕ := (b.memBase.map fun p => p.slabs.toNat * p.perslab).sum

/-- A call of `malloc`: a fresh page, or null. -/
def malloc (b : Slab) : Slab × Option ℕ :=
  ({ b with mallocCalls := b.mallocCalls + 1 },
    if b.mallocOk b.mallocCalls then some b.mallocCalls else none)

/-- The loop of `slabs_clsid` from class `res`. -/
def clsidFrom (b : Slab) (size : ℕ) : ℕ → ℕ → ℕ
  | 0, _ => 0
  | n + 1, res =>
    if (b.cls res).size < size then
      if res = b.powerLargest then 0 else clsidFrom b size n (res + 1)
    else res

def slabsClsid (b : Slab) (size : ℕ) : ℕ :=
  if size = 0 then 0 else b.clsidFrom size b.powerLargest POWER_SMALLEST

end Slab

def doSlabsFree (m : Items) (b : Slab) (ptr : Ptr) (size id : ℕ) : Items × Slab :=
  if m.slabsClsid ptr ≠ 0 ∨ id < Slab.POWER_SMALLEST ∨ Slab.POWER_LARGEST < id then (m, b)
  else
    let p := b.cls id
    let m := (m.setFlag ptr (m.itemFlag ptr ||| Slab.ITEM_SLABBED)).setPrev ptr none
    let m := (m.setNext ptr p.slots).setPrevOf p.slots (some ptr)
    (m, b.setCls id { p with
      slots := some ptr
      slCurr := p.slCurr + 1
      requested := p.requested - UInt64.ofNat size })

/-- `realloc` to no bytes gives the list back and answers null. -/
def growSlabList (b : Slab) (id : ℕ) : Slab × Bool :=
  let p := b.cls id
  if p.slabs = p.listSize then
    if p.grownSize = 0 then (b.setCls id { p with listLost := true }, false)
    else match b.malloc with
    | (b, none) => (b, false)
    | (b, some _) => (b.setCls id { p with listSize := p.grownSize }, true)
  else (b, true)

/-- The loop of `split_slab_page_into_freelist`, with `n` chunks to go. -/
def splitSlabPageIntoFreelist (id : ℕ) : ℕ → Items → Slab → Ptr → Items × Slab
  | 0, m, b, _ => (m, b)
  | n + 1, m, b, ptr =>
    let r := doSlabsFree m b ptr 0 id
    splitSlabPageIntoFreelist id n r.1 r.2 { ptr with off := ptr.off + (b.cls id).size }

def doSlabsNewslab (m : Items) (b : Slab) (id : ℕ) : Items × Slab × Bool :=
  let p := b.cls id
  let len := p.size * p.perslab
  if b.memLimit ≠ 0 ∧ b.memLimit < b.memMalloced + len ∧ 0 < p.slabs then (m, b, false)
  else match growSlabList b id with
    | (b, false) => (m, b, false)
    | (b, true) =>
      match b.malloc with
      | (b, none) => (m, b, false)
      | (b, some page) =>
        let r := splitSlabPageIntoFreelist id p.perslab (m.clearPage page) b ⟨page, 0⟩
        let q := r.2.cls id
        (r.1, { r.2.setCls id { q with slabList := q.slabList ++ [page], slabs := q.slabs + 1 } with
          memMalloced := b.memMalloced + len }, true)

/-- Take the first chunk of the freelist. -/
def popSlot (m : Items) (b : Slab) (size id : ℕ) : Result (Items × Slab × Option Ptr) :=
  let p := b.cls id
  match p.slots with
  | none => .error .nullPointer
  | some it =>
    .ok (m.setPrevOf (m.next it) none, b.setCls id { p with
      slots := m.next it
      slCurr := p.slCurr - 1
      requested := p.requested + UInt64.ofNat size }, some it)

def doSlabsAlloc (m : Items) (b : Slab) (size id : ℕ) : Result (Items × Slab × Option Ptr) :=
  if id < Slab.POWER_SMALLEST ∨ Slab.POWER_LARGEST < id then .ok (m, b, none)
  else if (b.cls id).slCurr ≠ 0 then popSlot m b size id
  else match doSlabsNewslab m b id with
    | (m, b, false) => .ok (m, b, none)
    | (m, b, true) =>
      if (b.cls id).slCurr ≠ 0 then popSlot m b size id else .ok (m, b, none)

namespace Slab

/-- What `slabs_adjust_mem_requested` does under its lock. -/
def adjustMemRequested (b : Slab) (id old ntotal : ℕ) : Slab :=
  let p := b.cls id
  b.setCls id { p with requested := p.requested - UInt64.ofNat old + UInt64.ofNat ntotal }

/-- The loop of the constructor; `i` is the class to be built next. The growth
factor 1.2 is the rational 6/5. -/
def classesFrom (set : Settings) : ℕ → ℕ → List SlabClass
  | 0, _ => []
  | n + 1, size =>
    if 6 * size ≤ 5 * set.itemSizeMax then
      let size := if size % CHUNK_ALION_BYTES ≠ 0 then
        size + (CHUNK_ALION_BYTES - size % CHUNK_ALION_BYTES) else size
      { SlabClass.empty with size := size, perslab := set.itemSizeMax / size } ::
        classesFrom set n (size * 6 / 5)
    else []

/-- `mem_base` and `power_largest` as the constructor fills them: an unused class
0, the classes of the loop, and one class of the largest size. -/
def build (limit : ℕ) (set : Settings) (mallocOk : ℕ → Bool) : Slab :=
  let cs := classesFrom set (POWER_LARGEST - POWER_SMALLEST) (sizeofBaseItem + set.chunkSize)
  { powerLargest := cs.length + 1
    memBase := .empty :: cs ++ [{ SlabClass.empty with size := set.itemSizeMax, perslab := 1 }]
    memLimit := limit
    memMalloced := 0
    mallocOk := mallocOk
    mallocCalls := 0 }

end Slab

/-- The loop of `slabs_preallocate` from class `i`, with `n` classes to go. A class
without a first page ends the process. -/
def slabsPreallocate : ℕ → ℕ → Items → Slab → Option (Items × Slab)
  | 0, _, m, b => some (m, b)
  | n + 1, i, m, b =>
    match doSlabsNewslab m b i with
    | (_, _, false) => none
    | (m, b, true) => slabsPreallocate n (i + 1) m b

/-- `Slab::Slab(limit, 1.2, settings)`. -/
def Slab.init (limit : ℕ) (set : Settings) (mallocOk : ℕ → Bool) : Option (Items × Slab) :=
  let b := Slab.build limit set mallocOk
  slabsPreallocate (b.powerLargest - POWER_SMALLEST) POWER_SMALLEST Items.zero b

end MiniMemcached
