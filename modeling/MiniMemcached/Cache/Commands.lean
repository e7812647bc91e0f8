import MiniMemcached.Cache.Store

/-! What the commands of a connection do to the cache: the storage line allocates an
item and fills in its header, the data block completes the item and stores it, and
`delete` looks the key up, unlinks the item and gives the reference back. -/

namespace MiniMemcached

def KEY_MAX_LENGTH : ℕ := 250
def REALTIME_MAXDELTA : ℕ := 60 * 60 * 24 * 30

/-- `process_started`, which is never assigned. -/
def processStarted : ℕ := 0

/-- `realtime`; `now` is what `current_time` returns. -/
def realtime (exptime now : UInt32) : UInt32 :=
  if exptime = 0 then 0
  else if REALTIME_MAXDELTA < exptime.toNat then
    if exptime.toNat ≤ processStarted then 1 else UInt32.ofNat (exptime.toNat - processStarted)
  else exptime + now

/-- A storage line that `command_five_six_para` accepted. `vlen` counts the CRLF. -/
structure StoreLine where
  cmd : Nread
  key : List UInt8
  flags : UInt32
  exptime : UInt32
  vlen : ℤ
  casId : UInt64
  key_ne : key ≠ []
  key_le : key.length ≤ KEY_MAX_LENGTH
  vlen_ge : 2 ≤ vlen
  vlen_lt : vlen < 2 ^ 31
  deriving DecidableEq

/-- A storage line for a key of one byte and a value of one byte. -/
def shortLine (cmd : Nread) (k : UInt8) (flags exptime : UInt32) (casId : UInt64) : StoreLine where
  cmd := cmd
  key := [k]
  flags := flags
  exptime := exptime
  vlen := 3
  casId := casId
  key_ne := List.cons_ne_nil _ _
  key_le := by simp [KEY_MAX_LENGTH]
  vlen_ge := by omega
  vlen_lt := by omega

namespace Cache

/-- The fields that `command_five_six_para` writes, lines 622 to 629. -/
def fillItem (s : Cache) (it : Ptr) (L : StoreLine) : Cache :=
  let m := (s.items.setCas it L.casId).setNkey it (UInt8.ofNat L.key.length)
  let m := (m.setFlag it L.flags.toUInt8).setExptime it (realtime L.exptime s.clock)
  let m := (m.setNbytes it L.vlen).setData it (memcpy (m.data it) 0 L.key)
  { s with items := m }

/-- `item_alloc` for a storage line, and the header of the new item. -/
def allocLine (s : Cache) (L : StoreLine) : Result (Cache × Option Ptr) := do
  match ← s.doItemAlloc L.key.length L.vlen with
  | (s, none) => pure (s, none)
  | (s, some it) => pure (s.fillItem it L, some it)

/-- `delete_command`, and the failed `set`, on the cache. -/
def removeKey (s : Cache) (key : List UInt8) : Result (Cache × Bool) := do
  match ← s.itemGet key with
  | (s, none) => pure (s, false)
  | (s, some it) =>
    let s ← s.itemUnlink it
    pure (s.itemRemove it, true)

/-- A storage line: an item, or a message. A `set` without memory removes the key. -/
def commandStore (s : Cache) (L : StoreLine) : Result (Cache × Option Ptr) := do
  match ← s.allocLine L with
  | (s, some it) => pure (s, some it)
  | (s, none) =>
    if L.cmd = .set then
      let r ← s.removeKey L.key
      pure (r.1, none)
    else pure (s, none)

/-- The separator and the value of the item, copied from `rnbuf`. -/
def writeValue (s : Cache) (it : Ptr) (bytes : List UInt8) : Cache :=
  let d := memcpy (s.items.data it) (s.items.nkey it).toNat [48]
  { s with items := s.items.setData it (memcpy d (s.items.realDataAddr it) bytes) }

/-- A data block: the item is completed and stored. -/
def commandBlock (s : Cache) (it : Ptr) (cmd : Nread) (bytes : List UInt8) :
    Result (Cache × StoreStat × Option UInt64) :=
  (s.writeValue it bytes).storeItem it cmd

/-- The lookup of `get_command`; a long key is refused without one. -/
def commandGet (s : Cache) (key : List UInt8) : Result (Cache × Option Ptr) :=
  if KEY_MAX_LENGTH < key.length then .ok (s, none) else s.itemGet key

end Cache

end MiniMemcached
