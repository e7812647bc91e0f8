import MiniMemcached.Cache.Commands
import MiniMemcached.Memory.Bytes

/-! A connection of a worker thread and what it works on: its buffers and flags, the
cache, the socket, and the allocator that `new` calls. A pointer into a buffer is an
offset. A buffer keeps the bytes of its allocated block, so its length is the
capacity; bytes that were never written are whatever the allocator handed out. -/

namespace MiniMemcached

open Memory

/-- The states of a connection's machine, in the order of the source. -/
inductive ConnStates
  | connListening
  | connParseCmd
  | connWaiting
  | connRead
  | connWrite
  | connNread
  | connClosed
  deriving DecidableEq, Repr

def READBUF_LEN : ℕ := 2048
def WRITEBUF_LEN : ℕ := 2048

/-- A pointer to a block of its own. -/
inductive Block
  | null
  | dangling
  | live (bytes : List UInt8)
  deriving DecidableEq, Repr

/-- `Conn`. The capacity `rbuf_len` is the length of `rbuf`; `wbufNow` is `none` when
`wbuf_now` points into a block that was given back. -/
structure Conn where
  state : ConnStates
  noreply : Bool
  flagStop : Bool
  flagPrecmd : Bool
  flagShake : Bool
  rbuf : List UInt8
  rbufNow : ℕ
  rbufRlen : ℤ
  rnbuf : Block
  rnbufLen : ℤ
  rnbufRlen : ℤ
  item : Option Ptr
  cmd : Nread
  cas : UInt64
  wbuf : List UInt8
  wbufNow : Option ℕ
  wbufLen : ℤ
  wbufWlen : ℤ
  writeWatcher : Bool
  readWatcher : Bool
  deriving DecidableEq

/-- What `read` finds at the socket: bytes, of which it takes as many as it was
offered room for (none: the peer has closed), no bytes yet, or an error. -/
inductive ReadResult
  | data (bs : List UInt8)
  | again
  | failed
  deriving DecidableEq, Repr

/-- What `write` does: take up to `n` bytes, no room yet, or an error. -/
inductive WriteResult
  | wrote (n : ℕ)
  | again
  | failed
  deriving DecidableEq, Repr

/-- The allocator: the contents of the blocks it is going to hand out, and which calls fail. -/
structure Heap where
  calls : ℕ
  garbage : ℕ → ℕ → UInt8
  allocOk : ℕ → Bool

/-- A history of what the machine did with the bytes it received. -/
inductive Deed
  | command (tokens : List (List UInt8))
  | block (bytes : List UInt8)
  | store (cmd : Nread) (key value : List UInt8) (stat : StoreStat)
  deriving DecidableEq, Repr

/-- A connection at work. When the results of the socket are used up it has nothing
more to give for now. -/
structure World where
  conn : Conn
  cache : Cache
  reads : List ReadResult
  writes : List WriteResult
  sent : List UInt8
  heap : Heap
  deeds : List Deed

namespace Heap

/-- `new (std::nothrow) char[n]`. -/
def new (h : Heap) (n : ℕ) : Heap × Option (List UInt8) :=
  ({ h with calls := h.calls + 1 },
    if n < 2 ^ 31 ∧ h.allocOk h.calls = true then some ((List.range n).map (h.garbage h.calls))
    else none)

end Heap

/-- A write to a block, checked against its capacity. -/
def write (b : List UInt8) (off : ℕ) (bs : List UInt8) : Result (List UInt8) :=
  if off + bs.length ≤ b.length then .ok (put b off bs) else .error .outOfBounds

/-- A read from a block, checked against its capacity. -/
def load (b : List UInt8) (off n : ℕ) : Result (List UInt8) :=
  if off + n ≤ b.length then .ok (slice b off n) else .error .outOfBounds

/-- The bytes behind a pointer. -/
def Block.deref : Block → Result (List UInt8)
  | .null => .error .nullPointer
  | .dangling => .error .freed
  | .live bs => .ok bs

def crlf : List UInt8 := [13, 10]

namespace Conn

/-- A worker's connection as the constructor leaves it, with the members it does not set. -/
def new (flagPrecmd flagShake noreply : Bool) (rbuf wbuf : List UInt8) (cas : UInt64) : Conn where
  state := .connRead
  noreply := noreply
  flagStop := false
  flagPrecmd := flagPrecmd
  flagShake := flagShake
  rbuf := rbuf
  rbufNow := 0
  rbufRlen := 0
  rnbuf := .dangling
  rnbufLen := 0
  rnbufRlen := 0
  item := none
  cmd := .error
  cas := cas
  wbuf := wbuf
  wbufNow := some 0
  wbufLen := WRITEBUF_LEN
  wbufWlen := 0
  writeWatcher := false
  readWatcher := true

/-- `ev_io_stop` of the read watcher and `ev_io_start` of the write watcher. -/
def startWrite (c : Conn) : Conn := { c with readWatcher := false, writeWatcher := true }

def startRead (c : Conn) : Conn := { c with writeWatcher := false, readWatcher := true }

/-- `memset(rbuf, 0, rbuf_len)` and `rbuf_rlen = 0`. -/
def clearRbuf (c : Conn) : Conn := { c with rbuf := zeros c.rbuf.length, rbufRlen := 0 }

/-- The line that `out_string` sends, which has to fit into what `wbuf_len` says. -/
def outLine (c : Conn) (wStr : List UInt8) : List UInt8 :=
  if c.wbufLen ≤ wStr.length + 2 then bytes "SERVER_ERROR output line too long" else wStr

/-- The connection with a line queued for writing. -/
def queue (c : Conn) (line : List UInt8) : Conn :=
  { c with
    noreply := false
    wbuf := put c.wbuf 0 (line ++ crlf)
    wbufLen := line.length + 2
    wbufNow := some 0
    state := .connWrite }

/-- `out_string`. -/
def outString (c : Conn) (wStr : List UInt8) : Result Conn :=
  if (c.outLine wStr).length + 2 ≤ c.wbuf.length then .ok (c.queue (c.outLine wStr))
  else .error .outOfBounds

/-- The answer of a handler that is done with its line. -/
def answer (c : Conn) (wStr : List UInt8) : Result Conn := (c.clearRbuf.startWrite).outString wStr

end Conn

namespace World

/-- `read` with room for `n` bytes: the bytes, `none` for an error, or nothing yet. -/
def read (w : World) (n : ℕ) : World × ReadResult :=
  if n = 0 then (w, .data [])
  else match w.reads with
    | [] => (w, .again)
    | .again :: rest => ({ w with reads := rest }, .again)
    | .failed :: rest => ({ w with reads := rest }, .failed)
    | .data bs :: rest =>
      if bs.length ≤ n then ({ w with reads := rest }, .data bs)
      else ({ w with reads := .data (bs.drop n) :: rest }, .data (bs.take n))

end World

end MiniMemcached
