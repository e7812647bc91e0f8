import MiniMemcached.Protocol.Connection
import MiniMemcached.Protocol.Tool

/-! The commands of the protocol: the tokens of a line and the handlers, under the
names of the source. Most answers clear the read buffer and start the write watcher;
the refusals of a long key and of a storage line only queue their text. -/

namespace MiniMemcached

open Memory

/-- The separators of the pattern that cuts a line into tokens. -/
def isSeparator (b : UInt8) : Bool := isspace b ∨ b = 43

/-- The tokens of a line. -/
def tokensOf (line : List UInt8) : List (List UInt8) :=
  (line.splitOnP isSeparator).filter (· ≠ [])

/-- `nread_stat_set`. -/
def nreadStatSet (command : List UInt8) : Nread :=
  if command = bytes "set" then .set
  else if command = bytes "add" then .add
  else if command = bytes "replace" then .replace
  else if command = bytes "append" then .append
  else if command = bytes "prepend" then .prepend
  else if command = bytes "cas" then .cas
  else .error

/-- The expiry time as `command_five_six_para` passes it on. -/
def exptimeOf (exptimeInt : ℤ) : UInt32 :=
  if exptimeInt < 0 then UInt32.ofNat (REALTIME_MAXDELTA - 1) else UInt32.ofNat exptimeInt.toNat

/-- The fields of a storage line, or `none` where the format is answered as bad. -/
def parseStoreLine (tokens : List (List UInt8)) (cas : Bool) : Option StoreLine :=
  let key := tokens.getD 1 []
  match safeStrtoul (tokens.getD 2 []), safeStrtol (tokens.getD 3 []), safeStrtol (tokens.getD 4 []),
      if cas then safeStrtoull (tokens.getD 5 []) else some 0 with
  | some flags, some exptimeInt, some vlen, some casId =>
    if h : (key ≠ [] ∧ key.length ≤ KEY_MAX_LENGTH) ∧ 2 ≤ toInt (vlen + 2) ∧ toInt (vlen + 2) < 2 ^ 31 then
      some
        { cmd := nreadStatSet (tokens.getD 0 [])
          key := key
          flags := flags
          exptime := exptimeOf exptimeInt
          vlen := toInt (vlen + 2)
          casId := casId
          key_ne := h.1.1
          key_le := h.1.2
          vlen_ge := h.2.1
          vlen_lt := h.2.2 }
    else none
  | _, _, _, _ => none

def BAD_FORMAT : List UInt8 := bytes "CLIENT_ERROR bad command line format"
def BAD_COMMAND : List UInt8 := bytes "CLIENT_BAD_COMMAND"

/-- The header of the answer to `get` behind the key. -/
def headerText (itemFlag : UInt8) (nbytes : ℤ) (cas : UInt64) : List UInt8 :=
  32 :: decimal itemFlag.toNat ++ 32 :: decimalInt nbytes ++ 32 :: decimal cas.toNat ++ [10]

namespace World

/-- The connection gives an answer. -/
def answer (w : World) (wStr : List UInt8) : Result World := do
  let c ← w.conn.answer wStr
  pure { w with conn := c }

/-- The connection queues a text and does no more. -/
def outString (w : World) (wStr : List UInt8) : Result World := do
  let c ← w.conn.outString wStr
  pure { w with conn := c }

def commandOnePara (w : World) (tokens : List (List UInt8)) : Result World :=
  if tokens.getD 0 [] = bytes "quit" then
    .ok { w with conn := { w.conn with state := .connClosed } }
  else if tokens.getD 0 [] = bytes "version" then w.answer (bytes "CGXR MEMCACHE version 1.0")
  else w.answer BAD_COMMAND

def deleteCommand (w : World) (tokens : List (List UInt8)) : Result World := do
  match ← w.cache.itemGet (tokens.getD 1 []) with
  | (s, some it) =>
    let s ← s.itemUnlink it
    ({ w with cache := s.itemRemove it } : World).answer (bytes "DELETED")
  | (s, none) => ({ w with cache := s } : World).answer (bytes "NOT_FOUND")

/-- The growth of `wbuf` for an answer of `ntotal` bytes. `wbuf_now` is not moved, and
the text for a failed `new` is copied to a null pointer. -/
def growWbuf (w : World) (ntotal : ℤ) : Result World :=
  if w.conn.wbufLen < ntotal then
    match w.heap.new ntotal.toNat with
    | (heap, some wbuf) =>
      .ok { w with heap := heap, conn := { w.conn with wbuf := wbuf, wbufNow := none, wbufLen := ntotal } }
    | (_, none) => .error .nullPointer
  else .ok w

/-- The answer that `get_command` formats in `wbuf` for an item: the header up to its
line feed, the value where that ends, and the closing line. -/
def formatValue (wbuf : List UInt8) (m : Items) (it : Ptr) : Result (List UInt8) := do
  let wbuf ← write wbuf 0 (bytes "VALUE ")
  let wbuf ← write wbuf 6 (m.key it)
  let wbuf ← write wbuf (6 + (m.nkey it).toNat)
    (headerText (m.itemFlag it) (m.nbytes it) (m.cas it) ++ [0])
  match (cstring wbuf).idxOf? 10 with
  | none => .error .nullPointer
  | some e =>
    let wbuf ← write wbuf (e + 1) (bytesAt (m.data it) (m.realDataAddr it) (toSizeT (m.nbytes it)))
    write wbuf (e + 1 + toSizeT (m.nbytes it)) (bytes "END" ++ crlf ++ [0])

def getCommand (w : World) (tokens : List (List UInt8)) : Result World :=
  let key := tokens.getD 1 []
  if KEY_MAX_LENGTH < key.length then w.outString BAD_FORMAT
  else do
    match ← w.cache.itemGet key with
    | (s, none) => ({ w with cache := s } : World).answer (bytes "END")
    | (s, some it) =>
      let w ← ({ w with cache := s } : World).growWbuf
        (toInt (5 + (s.items.nkey it).toNat + 1 + 4 + 2 + s.items.nbytes it))
      let wbuf ← formatValue w.conn.wbuf s.items it
      let c : Conn := { w.conn with wbuf := wbuf, state := .connWrite }
      pure { w with conn := c.startWrite.clearRbuf }

def commandTwoPara (w : World) (tokens : List (List UInt8)) : Result World :=
  if tokens.getD 0 [] = bytes "get" then w.getCommand tokens
  else if tokens.getD 0 [] = bytes "delete" then w.deleteCommand tokens
  else w.answer BAD_COMMAND

/-- `incr` and `decr` are not there yet. -/
def commandThreePara (w : World) (_tokens : List (List UInt8)) : Result World := .ok w

/-- A storage line whose item got no memory. -/
def refuseLine (w : World) (L : StoreLine) : Result World := do
  let w ← w.outString (if w.cache.itemSizeOk L.key.length L.vlen then
    bytes "SERVER_ERROR out of memory storing object" else bytes "SERVER_ERROR object too large for cache")
  if L.cmd = .set then
    match ← w.cache.itemGet L.key with
    | (s, none) => pure { w with cache := s, conn := { w.conn with item := none } }
    | (s, some it) =>
      let s ← s.itemUnlink it
      pure { w with cache := s.itemRemove it, conn := { w.conn with item := some it } }
  else pure { w with conn := { w.conn with item := none } }

/-- A storage line whose item is allocated: the buffer for its data. -/
def acceptLine (w : World) (it : Ptr) (L : StoreLine) : World :=
  let r := w.heap.new (L.vlen + 3).toNat
  { w with
    heap := r.1
    conn := { w.conn with
      item := some it
      rnbufLen := L.vlen
      rnbuf := match r.2 with
        | some b => .live b
        | none => .null
      state := .connNread } }

def commandFiveSixPara (w : World) (tokens : List (List UInt8)) (cas : Bool) : Result World := do
  let w : World := { w with conn := { w.conn with cmd := nreadStatSet (tokens.getD 0 []) } }
  match parseStoreLine tokens cas with
  | none => w.outString BAD_FORMAT
  | some L =>
    match ← w.cache.allocLine L with
    | (s, none) => ({ w with cache := s } : World).refuseLine L
    | (s, some it) => pure (({ w with cache := s } : World).acceptLine it L)

/-- The handler of a line with these tokens. -/
def dispatch (w : World) (tokens : List (List UInt8)) : Result World :=
  match tokens.length with
  | 1 => w.commandOnePara tokens
  | 2 => w.commandTwoPara tokens
  | 3 => w.commandThreePara tokens
  | 5 => do
    let w ← w.commandFiveSixPara tokens false
    pure { w with conn := { w.conn with flagPrecmd := true } }
  | 6 => w.commandFiveSixPara tokens true
  | _ => .ok { w with conn :=
      { w.conn.clearRbuf with rbufNow := 0, state := .connRead, flagPrecmd := false } }

/-- `process_command`: the line in `rbuf` ends at its first zero. -/
def processCommand (w : World) : Result World :=
  let tokens := tokensOf (cstring w.conn.rbuf)
  ({ w with deeds := w.deeds ++ [.command tokens] } : World).dispatch tokens

end World

end MiniMemcached
