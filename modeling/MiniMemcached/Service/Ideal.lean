import MiniMemcached.Maps.Lossy
import MiniMemcached.Runs.Path
import MiniMemcached.Service.Requests

/-! What the service is for: a map from keys to values with a deadline and an id, which
may forget. A request reads or rebinds the entry of its key; where it takes one out, the
keys of the same bucket may be forgotten with it. The journal is what the clients know:
it is kept from the requests and the answers alone, and forgets nothing. -/

namespace MiniMemcached

open Maps Runs

/-- A value with its line end, the flags that are shown with it, the time from which it is
not served (zero: never), and the id of its link. -/
structure Entry where
  value : List UInt8
  flags : UInt8
  expires : UInt32
  id : UInt64
  deriving DecidableEq

/-- A storage line whose data block has not come, and the deadline that it set. -/
structure Awaited where
  line : StoreLine
  expires : UInt32

/-- What a client is told. -/
inductive Answer
  | none
  | waiting
  | noMemory
  | stored (stat : StoreStat)
  | value (bytes : List UInt8) (flags : UInt8) (id : UInt64)
  | miss
  | badFormat
  | deleted
  | notFound
  deriving DecidableEq

/-- The map, the lines whose blocks are awaited, and the ids that were given out. -/
structure Ideal where
  entries : List UInt8 → Option Entry
  awaited : ℕ → Option Awaited
  ids : UInt64

/-- The deadline has been reached. -/
def Reached (expires now : UInt32) : Prop := expires ≠ 0 ∧ expires ≤ now

instance (expires now : UInt32) : Decidable (Reached expires now) := by
  unfold Reached
  infer_instance

/-- A value without its line end. -/
def dropEnd (v : List UInt8) : List UInt8 := v.take (v.length - 2)

/-- The value that a storage command leaves, from the one before and the data block. -/
def Nread.combine (cmd : Nread) (old block : List UInt8) : List UInt8 :=
  match cmd with
  | .append => dropEnd old ++ block
  | .prepend => dropEnd block ++ old
  | _ => block

/-- The flags that are shown of an item of the line, and of one that append or prepend has
made, which has none of its own. -/
def StoreLine.shown (L : StoreLine) : UInt8 :=
  shownFlags (if L.cmd = .append ∨ L.cmd = .prepend then 0 else L.flags.toUInt8)

/-- The client flags do not overlay `ITEM_LINKED` or `ITEM_SLABBED`. -/
def StoreLine.Plain (L : StoreLine) : Prop :=
  L.flags.toUInt8 &&& (Slab.ITEM_LINKED ||| Slab.ITEM_SLABBED) = 0

instance (L : StoreLine) : Decidable L.Plain := by
  unfold StoreLine.Plain
  infer_instance

namespace Ideal

def empty : Ideal where
  entries _ := none
  awaited _ := none
  ids := 0

/-- The entry that is served for a key. -/
def lookup (I : Ideal) (now : UInt32) (k : List UInt8) : Option Entry :=
  (I.entries k).filter fun e => ¬Reached e.expires now

/-- The answer to a data block, from the entry that was served for its key. -/
def verdict (A : Awaited) (old : Option Entry) : StoreStat :=
  match A.line.cmd, old with
  | .set, _ | .error, _ | .add, none | .replace, some _ => .STORED
  | .add, some _ | .replace, none | .append, none | .prepend, none => .NOT_STORED
  | .cas, none => .NOT_FOUND
  | .cas, some e | .append, some e | .prepend, some e => if A.line.casId = e.id then .STORED else .EXISTS

/-- The entry that a stored block leaves, with the id `id`. Append and prepend leave the
deadline alone, and an entry whose line is not plain is never found. -/
def stored (A : Awaited) (bytes : List UInt8) (id : UInt64) (old : Option Entry) : Option Entry :=
  if A.line.cmd = .append ∨ A.line.cmd = .prepend then
    old.map fun e => ⟨A.line.cmd.combine e.value bytes, A.line.shown, e.expires, id⟩
  else if A.line.Plain then some ⟨bytes, A.line.shown, A.expires, id⟩ else none

/-- The entry that a key is left with by a data block. -/
def outcome (A : Awaited) (bytes : List UInt8) (id : UInt64) (old : Option Entry) : Option Entry :=
  if verdict A old = .STORED then stored A bytes id old else old

/-- The connection is in a state in which it may send the request. -/
def Allowed (I : Ideal) (a : Action) : Prop :=
  match a.req, I.awaited a.conn with
  | .block bytes, some A => (bytes.length : ℤ) = A.line.vlen
  | .block _, none => False
  | _, some _ => False
  | _, none => True

/-- One request, with its answer. `cls` gives the bucket of a key. -/
inductive Step (cls : List UInt8 → ℕ) : Ideal → Action × Answer → Ideal → Prop
  | ignored {I : Ideal} {a : Action} (hno : ¬I.Allowed a) : Step cls I (a, .none) I
  | badFormat {I : Ideal} {a : Action} (k : List UInt8) (hreq : a.req = .get k)
      (hfree : I.awaited a.conn = none) (hk : KEY_MAX_LENGTH < k.length) : Step cls I (a, .badFormat) I
  | hit {I : Ideal} {a : Action} (k : List UInt8) (hreq : a.req = .get k) (hfree : I.awaited a.conn = none)
      (hk : k.length ≤ KEY_MAX_LENGTH) (e : Entry) (he : I.lookup a.now k = some e) :
      Step cls I (a, .value e.value e.flags e.id) I
  | miss {I : Ideal} {a : Action} (k : List UInt8) (hreq : a.req = .get k) (hfree : I.awaited a.conn = none)
      (hk : k.length ≤ KEY_MAX_LENGTH) (he : I.lookup a.now k = none) {m : List UInt8 → Option Entry}
      (hm : Rebinds cls I.entries k none m) : Step cls I (a, .miss) { I with entries := m }
  | delete {I : Ideal} {a : Action} (k : List UInt8) (hreq : a.req = .delete k)
      (hfree : I.awaited a.conn = none) {m : List UInt8 → Option Entry}
        (hm : Rebinds cls I.entries k none m) :
      Step cls I (a, if (I.lookup a.now k).isSome then .deleted else .notFound) { I with entries := m }
  | waiting {I : Ideal} {a : Action} (L : StoreLine) (hcmd : L.cmd ≠ .error) (hreq : a.req = .store L hcmd)
      (hfree : I.awaited a.conn = none) : Step cls I (a, .waiting)
        { I with awaited := Function.update I.awaited a.conn (some ⟨L, realtime L.exptime a.now⟩) }
  | noMemory {I : Ideal} {a : Action} (L : StoreLine) (hcmd : L.cmd ≠ .error) (hreq : a.req = .store L hcmd)
      (hfree : I.awaited a.conn = none) {m : List UInt8 → Option Entry}
      (hm : if L.cmd = .set then Rebinds cls I.entries L.key none m else m = I.entries) :
      Step cls I (a, .noMemory) { I with entries := m }
  | block {I : Ideal} {a : Action} (A : Awaited) (bytes : List UInt8) (hreq : a.req = .block bytes)
      (hA : I.awaited a.conn = some A) (hlen : (bytes.length : ℤ) = A.line.vlen)
        {m : List UInt8 → Option Entry}
      (hm : Rebinds cls I.entries A.line.key (outcome A bytes (I.ids + 1) (I.lookup a.now A.line.key)) m)
      {ids : UInt64} (hids : ids = if verdict A (I.lookup a.now A.line.key) = .STORED ∧
        (m A.line.key).isSome then I.ids + 1 else I.ids) :
      Step cls I (a, .stored (verdict A (I.lookup a.now A.line.key)))
        ⟨m, Function.update I.awaited a.conn none, ids⟩
  | full {I : Ideal} {a : Action} (A : Awaited) (bytes : List UInt8) (hreq : a.req = .block bytes)
      (hA : I.awaited a.conn = some A) (hlen : (bytes.length : ℤ) = A.line.vlen)
      (hcmd : A.line.cmd = .append ∨ A.line.cmd = .prepend) (e : Entry)
      (he : I.lookup a.now A.line.key = some e) : Step cls I (a, .stored .NOT_STORED)
        { I with awaited := Function.update I.awaited a.conn none }

end Ideal

/-- A value that the journal holds, its flags and its deadline. -/
structure Told where
  value : List UInt8
  flags : UInt8
  expires : UInt32
  deriving DecidableEq

/-- What the journal has of an entry. -/
def Entry.told (e : Entry) : Told := ⟨e.value, e.flags, e.expires⟩

/-- What the clients know: the values that they were told are stored, and the lines
whose blocks they owe. -/
structure Journal where
  told : List UInt8 → Option Told
  owed : ℕ → Option Awaited

namespace Journal

def empty : Journal where
  told _ := none
  owed _ := none

/-- What a stored block makes of the value of its key. Append and prepend leave the
deadline alone. -/
def stored (l : Journal) (A : Awaited) (bytes : List UInt8) : Option Told :=
  if A.line.cmd = .append ∨ A.line.cmd = .prepend then
    (l.told A.line.key).map fun t => ⟨A.line.cmd.combine t.value bytes, A.line.shown, t.expires⟩
  else some ⟨bytes, A.line.shown, A.expires⟩

/-- A request and its answer go into the journal. -/
def note (l : Journal) (x : Action × Answer) : Journal :=
  match x.1.req, x.2 with
  | .store L _, .waiting =>
    { l with owed := Function.update l.owed x.1.conn (some ⟨L, realtime L.exptime x.1.now⟩) }
  | .store L _, .noMemory =>
    if L.cmd = .set then { l with told := Function.update l.told L.key none } else l
  | .delete k, .deleted | .delete k, .notFound | .get k, .miss =>
    { l with told := Function.update l.told k none }
  | .block bytes, .stored stat =>
    match l.owed x.1.conn with
    | some A =>
      { told := if stat = .STORED then Function.update l.told A.line.key (l.stored A bytes) else l.told
        owed := Function.update l.owed x.1.conn none }
    | none => l
  | _, _ => l

/-- The value that the journal knows to be served for a key. -/
def lookup (l : Journal) (now : UInt32) (k : List UInt8) : Option Told :=
  (l.told k).filter fun t => ¬Reached t.expires now

end Journal

end MiniMemcached
