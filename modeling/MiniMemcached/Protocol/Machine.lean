import MiniMemcached.Protocol.Handlers

/-! The machine of a connection. One turn of the loop of `drive_machine` reads what the
socket has, looks for a line and runs its command, takes in a data block, or writes;
the loop ends when a turn has set `flag_stop`. -/

namespace MiniMemcached

open Memory

/-- `READ_DATA_RECEIVED` and its companions. -/
inductive ReadState
  | received
  | noData
  | error
  | memoryError
  deriving DecidableEq, Repr

/-- `WRITE_DATA_ALL` and its companions. -/
inductive WriteState
  | all
  | part
  | error
  deriving DecidableEq, Repr

/-- The size of a block as a signed number, as it stands in sums of lengths. -/
def capacity (b : List UInt8) : ℤ := b.length

namespace World

/-- `conn_shake`: what follows the line is a data block when the flag of the last
command says so, and a line otherwise. -/
def connShake (w : World) (tempEnd : ℕ) (valueLen : ℤ) : Result World := do
  match memchr w.conn.rbuf tempEnd (toSizeT valueLen) 13 with
  | .outside => .error .outOfBounds
  | .missing => pure w
  | .found _ =>
    if w.conn.flagPrecmd then
      let rnbuf ← w.conn.rnbuf.deref
      let value ← load w.conn.rbuf tempEnd (toSizeT (valueLen - 2))
      let rnbuf ← write rnbuf 0 (value ++ [0])
      pure { w with
        conn := { w.conn with
          rnbuf := .live rnbuf
          rnbufRlen := valueLen - 2
          state := .connNread
          flagPrecmd := false
          flagShake := true }
        deeds := w.deeds ++ [.block value] }
    else
      let rest ← load w.conn.rbuf tempEnd (toSizeT valueLen)
      let rbuf ← write w.conn.rbuf 0 (rest ++ [0])
      pure { w with conn := { w.conn with
        rbuf := rbuf
        rbufNow := 0
        rbufRlen := valueLen
        state := .connParseCmd
        flagShake := true } }

/-- Where the line is cut that ends at `endflag`. -/
def cutAt (c : Conn) (endflag : ℕ) : ℕ :=
  if 1 < (endflag : ℤ) - c.rbufNow ∧ c.rbuf[endflag - 1]? = some 13 then endflag - 1 else endflag

/-- The line ends with a zero, and the flag says whether something follows it. -/
def cutLine (w : World) (endflag : ℕ) (next : List UInt8) : World :=
  { w with conn := { w.conn with
    flagShake := decide (next ≠ [0])
    rbuf := w.conn.rbuf.set (cutAt w.conn endflag) 0 } }

/-- The read position behind a line that nothing follows. -/
def passLine (w : World) (endp : ℕ) : World :=
  { w with conn := { w.conn with
    rbufRlen := if w.conn.rbufRlen ≠ 0 then w.conn.rbufRlen - (endp - w.conn.rbufNow) else 0
    rbufNow := if w.conn.rbufNow ≠ 0 then endp else 0 } }

/-- `try_read_command`: `false` when there is nothing to parse. Without a line feed the
byte behind the null pointer is read, so the test for a missing line feed that
follows is never reached. -/
def tryReadCommand (w : World) : Result (World × Bool) := do
  if w.conn.rbufRlen = 0 then pure (w, false)
  else match memchr w.conn.rbuf 0 (toSizeT w.conn.rbufRlen) 10 with
    | .outside => .error .outOfBounds
    | .missing => .error .nullPointer
    | .found endflag =>
      let next ← load w.conn.rbuf (endflag + 1) 1
      let w ← (w.cutLine endflag next).processCommand
      if w.conn.flagShake then
        let w ← w.connShake (endflag + 1) (w.conn.rbufRlen - (endflag + 1))
        pure (w, true)
      else pure (w.passLine (endflag + 1), true)

/-- The doubling of `rbuf`. -/
def growRbuf (w : World) : World × Bool :=
  match w.heap.new (w.conn.rbuf.length * 2) with
  | (heap, some b) =>
    ({ w with heap := heap, conn := { w.conn with rbuf := put b 0 w.conn.rbuf, rbufNow := 0 } }, true)
  | (heap, none) => ({ w with heap := heap, conn := { w.conn with rbufRlen := 0 } }, false)

/-- What one `read` of `try_read_tcp` comes to; it is `full` when it took all the room. -/
inductive Round
  | again
  | error
  | part
  | full
  deriving DecidableEq, Repr

/-- One `read` of `try_read_tcp`, behind the bytes that are held. -/
def readRound (w : World) : Result (World × Round) :=
  let avail := capacity w.conn.rbuf - w.conn.rbufRlen
  match w.read (toSizeT avail) with
  | (w, .failed) => .ok (w, .error)
  | (w, .again) => .ok (w, .again)
  | (w, .data []) => .ok (w, .error)
  | (w, .data bs) =>
    if w.conn.rbufRlen < 0 then .error .outOfBounds
    else do
      let rbuf ← write w.conn.rbuf w.conn.rbufRlen.toNat bs
      let w : World := { w with conn := { w.conn with
        rbuf := rbuf
        rbufNow := w.conn.rbufNow + bs.length
        rbufRlen := w.conn.rbufRlen + bs.length } }
      pure (w, if (bs.length : ℤ) = avail then .full else .part)

/-- The test for room at the head of the loop, and the doubling. -/
def makeRoom (w : World) : World × Bool :=
  if capacity w.conn.rbuf ≤ w.conn.rbufRlen then w.growRbuf else (w, true)

/-- The loop of `try_read_tcp`. Each round but the first starts with a full buffer, so
six rounds are enough for the four doublings. -/
def readLoop : ℕ → ℕ → ReadState → World → Result (World × ReadState)
  | 0, _, _, _ => .error .endless
  | fuel + 1, numAlloc, readState, w =>
    if capacity w.conn.rbuf ≤ w.conn.rbufRlen ∧ numAlloc = 4 then .ok (w, readState)
    else
      let allocs := if capacity w.conn.rbuf ≤ w.conn.rbufRlen then numAlloc + 1 else numAlloc
      match w.makeRoom with
      | (w, false) => do
        let w ← w.outString (bytes "SERVER_ERROR out of memory reading request")
        pure (w, .memoryError)
      | (w, true) => do
        let (w, round) ← w.readRound
        match round with
        | .again => pure (w, readState)
        | .error => pure (w, .error)
        | .part => pure (w, .received)
        | .full => readLoop fuel allocs .received w

/-- The bytes held move from `rbuf_now` to the front of the buffer. -/
def moveDown (w : World) : Result World :=
  if w.conn.rbufNow = 0 then .ok w
  else if w.conn.rbufRlen = 0 then .ok { w with conn := { w.conn with rbufNow := 0 } }
  else do
    let held ← load w.conn.rbuf w.conn.rbufNow (toSizeT w.conn.rbufRlen)
    let rbuf ← write w.conn.rbuf 0 held
    pure { w with conn := { w.conn with rbuf := rbuf, rbufNow := 0 } }

/-- `try_read_tcp`. -/
def tryReadTcp (w : World) : Result (World × ReadState) := w.moveDown >>= readLoop 6 0 .noData

/-- The text for a stored item, or for one that was not stored. -/
def storeAnswer (cmd : Nread) (stat : StoreStat) : List UInt8 :=
  if stat = .STORED then bytes "STORED"
  else if cmd = .cas then bytes "EXISTS"
  else bytes "NOT_STORED"

/-- The end of `read_value_stored` for a known command: the item is completed and
stored, both buffers are cleared, and the answer is queued. -/
def storeValue (w : World) : Result World := do
  match w.conn.item with
  | none => .error .nullPointer
  | some it =>
    let rnbuf ← w.conn.rnbuf.deref
    let value ← load rnbuf 0 (toSizeT w.conn.rnbufLen)
    let (s, stat, cas) ← w.cache.commandBlock it w.conn.cmd value
    if capacity rnbuf < w.conn.rnbufLen + 3 then .error .outOfBounds
    else
      let c : Conn := { w.conn.clearRbuf with
        rnbuf := .dangling
        rnbufRlen := 0
        cas := cas.getD w.conn.cas }
      let c ← c.outString (storeAnswer w.conn.cmd stat)
      pure { w with
        cache := s
        conn := c
        deeds := w.deeds ++ [.store w.conn.cmd (w.cache.items.key it) value stat] }

/-- `read_value_stored` once the block is complete. An unknown command has no arm, but
the watchers are changed all the same. -/
def finishValue (w : World) : Result World := do
  if w.conn.rnbufLen ≠ w.conn.rnbufRlen then pure w
  else if w.conn.cmd = .error then pure { w with conn := w.conn.startWrite }
  else
    let w ← w.storeValue
    pure { w with conn := w.conn.startWrite }

/-- `read_value_stored`. Each read puts its bytes at the front of `rnbuf`. A read into no
buffer fails with `EFAULT` and leaves the bytes on the socket. -/
def readValueStored (w : World) : Result World := do
  if w.conn.flagShake then w.finishValue
  else
    match w.read (toSizeT (w.conn.rnbufLen - w.conn.rnbufRlen)) with
    | (w, .again) => pure w
    | (w, .failed) => w.finishValue
    | (w, .data []) =>
      if w.conn.rnbufRlen ≠ w.conn.rnbufLen then
        pure { w with conn := { w.conn with state := .connClosed } }
      else w.finishValue
    | (taken, .data bs) =>
      if w.conn.rnbuf = .null then w.finishValue
      else do
        let rnbuf ← taken.conn.rnbuf.deref
        let rnbuf ← write rnbuf 0 bs
        finishValue { taken with
          conn := { taken.conn with
            rnbuf := .live rnbuf
            rnbufRlen := taken.conn.rnbufRlen + bs.length }
          deeds := taken.deeds ++ [.block bs] }

/-- The end of `write_activate_read` when the last byte has been taken. -/
def rewindWbuf (c : Conn) : Result Conn := do
  let wbuf ← write c.wbuf 0 (zeros WRITEBUF_LEN)
  pure (({ c with wbuf := wbuf, wbufLen := WRITEBUF_LEN, wbufWlen := 0, wbufNow := some 0 } : Conn).startRead)

/-- The loop of `write_activate_read`, over the results of `write`. -/
def writeLoop : List WriteResult → World → Result (World × WriteState)
  | [], w =>
    if w.conn.wbufLen = w.conn.wbufWlen then .ok ({ w with writes := [], conn := w.conn.startRead }, .all)
    else .ok ({ w with writes := [] }, .part)
  | r :: rest, w =>
    let avail := w.conn.wbufLen - w.conn.wbufWlen
    if avail = 0 then .ok ({ w with writes := r :: rest, conn := w.conn.startRead }, .all)
    else match r with
      | .again => .ok ({ w with writes := rest }, .part)
      | .failed => .ok ({ w with writes := rest }, .error)
      | .wrote n =>
        let ret := min n (toSizeT avail)
        if ret = 0 then .ok ({ w with writes := rest }, .error)
        else
          match w.conn.wbufNow with
          | none => .error .freed
          | some now => do
            let taken ← load w.conn.wbuf now ret
            let w : World := { w with
              sent := w.sent ++ taken
              conn := { w.conn with wbufWlen := w.conn.wbufWlen + ret, wbufNow := some (now + ret) } }
            if (ret : ℤ) = avail then
              let c ← rewindWbuf w.conn
              pure ({ w with writes := rest, conn := c }, .all)
            else writeLoop rest w

/-- `write_activate_read`. -/
def writeActivateRead (w : World) : Result (World × WriteState) := writeLoop w.writes w

def setState (w : World) (s : ConnStates) : World := { w with conn := { w.conn with state := s } }

def setStop (w : World) (b : Bool) : World := { w with conn := { w.conn with flagStop := b } }

/-- The end of the turn in `conn_parse_cmd`: the loop ends unless there is more to parse
or the connection is to be closed. -/
def settle (w : World) (ret : Bool) : World :=
  let w := if ret then w else w.setState .connWaiting
  let w := if w.conn.flagShake then w else w.setStop true
  if w.conn.state = .connClosed then w.setStop false else w

/-- The turn in `conn_parse_cmd`. -/
def parseTurn (w : World) : Result World := do
  let (w, ret) ← w.tryReadCommand
  pure (w.settle ret)

/-- The turn in `conn_read`. -/
def readTurn (w : World) : Result World := do
  let (w, res) ← w.tryReadTcp
  match res with
  | .noData => pure (w.setState .connWaiting)
  | .received => pure (w.setState .connParseCmd)
  | .error => pure (w.setState .connClosed)
  | .memoryError => pure w

/-- The turn in `conn_write`. -/
def writeTurn (w : World) : Result World := do
  let (w, ret) ← w.writeActivateRead
  match ret with
  | .part => pure w
  | .all => pure (w.setState .connWaiting)
  | .error => pure (w.setState .connClosed)

/-- `conn_close`. -/
def connClose (w : World) : World :=
  { w with conn := { w.conn with readWatcher := false, writeWatcher := false } }

/-- One turn of the loop. A worker's connection never listens. -/
def turn (w : World) : Result World :=
  match w.conn.state with
  | .connListening => .ok (w.setStop true)
  | .connParseCmd => w.parseTurn
  | .connRead => w.readTurn
  | .connWrite => w.writeTurn
  | .connNread => w.readValueStored
  | .connWaiting => .ok ((w.setState .connRead).setStop true)
  | .connClosed => .ok (w.connClose.setStop true)

/-- `drive_machine`, for a number of turns. -/
def driveMachine : ℕ → World → Result World
  | 0, _ => .error .endless
  | n + 1, w => if w.conn.flagStop then .ok (w.setStop false) else w.turn >>= driveMachine n

end World

end MiniMemcached
